import GossipLedger.Proofs.Rumor.Hub

/-!
# What a node answers to a status

A node sends its status, and another one answers with rumors that the first lacks, or with
its own status if it lacks something itself.

An answer has several forms, of which the first that applies hides the others: an origin
that the peer has never heard of, then origins of which the peer has heard less.  Whatever
its form, every rumor in it is the next one of its origin that the peer lacks, and it is
without rumors only if the peer lacks none.

Numbers have 32 bits, so the log of an origin that has a message under each of them has no
next number.  In a status zero stands in its place.  Longer logs, where the numbers have come
again, are left aside here.

## Main definitions

* `MessageStore.answerTo` — what a node answers to a status.
* `MessageStore.receive` — the store after rumors came in.
* `MessageStore.Owes` — a rumor is the next one that a store lacks and another has.
* `MessageStore.Full` — a log has a message under every number there is.

## Main results

* `MessageStore.owes_of_mem_answerTo` — **a rumor in an answer is the next one that the
  peer lacks.**
* `MessageStore.length_le_of_answerTo_eq_nil`, `MessageStore.asks_iff` — an answer without
  rumors, and an answer that asks for some.
* `MessageStore.receive_of_owes` — what is owed is taken in.
-/

namespace GossipLedger
namespace MessageStore

variable {s t : MessageStore Rumor} {r : Rumor}

/-- What a node answers to a status: rumors, and whether it asks for some itself. -/
def answerTo (t s : MessageStore Rumor) : List Rumor × Bool :=
  Hub.compareStatus t s.statusVector

/-- The store after rumors came in.  One that is not the next of its origin is dropped. -/
def receive (s : MessageStore Rumor) (rs : List Rumor) : MessageStore Rumor :=
  rs.foldl (fun s r => (s.append? r).getD s) s

/-- A rumor is the next one of its origin that a store lacks, and another store has it. -/
def Owes (t s : MessageStore Rumor) (r : Rumor) : Prop :=
  (t.log r.origin)[s.length r.origin]? = some r

/-! ### Numbers in a status vector -/

/-- The number that a peer had last, as it is read off a status vector. -/
def lastSeen (n : UInt32) : UInt32 := if n = 0 then 0 else n - 1

theorem ofNat_succ_ne_zero {k : Nat} (hk : k + 1 < 2 ^ 32) : UInt32.ofNat (k + 1) ≠ 0 := by
  intro hzero
  have hnat := congrArg UInt32.toNat hzero
  rw [toNat_ofNat_of_lt hk] at hnat
  exact absurd hnat (by simp)

theorem toNat_lastSeen {k : Nat} (hk : k + 1 < 2 ^ 32) :
    (lastSeen (UInt32.ofNat (k + 1))).toNat = k := by
  rw [lastSeen, if_neg (ofNat_succ_ne_zero hk), UInt32.toNat_sub_of_le]
  · rw [toNat_ofNat_of_lt hk]
    rfl
  · rw [UInt32.le_iff_toNat_le, toNat_ofNat_of_lt hk]
    exact Nat.le_add_left 1 k

/-- A log has a message under every number there is. -/
def Full (s : MessageStore Rumor) (o : String) : Prop := s.length o + 1 = 2 ^ 32

/-- After the last number that there is comes zero. -/
theorem Full.ofNat_succ {o : String} (h : s.Full o) : UInt32.ofNat (s.length o + 1) = 0 := by
  rw [h]
  rfl

/-- A log that is not full has a next number. -/
theorem Orderly.room (hs : Orderly s) {o : String} (h : ¬s.Full o) : s.length o + 1 < 2 ^ 32 :=
  lt_of_le_of_ne (hs.short o) h

/-! ### Answers -/

theorem answerTo_of_gap (h : t.firstGap? s.statusVector = some r) :
    t.answerTo s = ([r], false) := by
  simp only [answerTo, Hub.compareStatus, h]

/-- Where no origin is new to the peer, its status is looked at entry by entry. -/
theorem answerTo_of_no_gap (h : t.firstGap? s.statusVector = none) :
    t.answerTo s =
      (s.statusVector.toList.filterMap fun e =>
        if t.compare e.1 (lastSeen e.2) = .old then t.message? e.1 e.2 else none,
      s.statusVector.toList.any fun e => t.compare e.1 (lastSeen e.2) = .new) := by
  simp only [answerTo, Hub.compareStatus, h]
  rfl

/-- The entries of a status are the origins of the store with their next numbers. -/
theorem Built.mem_statusVector_iff (hs : Built s) {o : String} {n : UInt32} :
    (o, n) ∈ s.statusVector.toList ↔ s.log o ≠ [] ∧ n = UInt32.ofNat (s.length o + 1) := by
  rw [← NameMap.get?_eq_some_iff, get?_statusVector, hs.get?_eq]
  split
  next hnil => simp [hnil]
  next hne =>
    rw [Option.map_some, Option.some_inj]
    constructor
    · rintro rfl
      exact ⟨hne, rfl⟩
    · rintro ⟨-, rfl⟩
      rfl

/-- Everything is new of an origin without messages. -/
theorem Built.compare_of_log_eq_nil (ht : Built t) {o : String} (h : t.log o = []) (q : UInt32) :
    t.compare o q = .new := by
  rw [compare, ht.contains_eq_false_iff.2 h]
  rfl

/-- How a number compares that is the last one of another store. -/
theorem Orderly.compare_lastSeen (ht : Orderly t) {o : String} {k : Nat} (hk : k + 1 < 2 ^ 32)
    (hne : t.log o ≠ []) : t.compare o (lastSeen (UInt32.ofNat (k + 1))) =
      if t.length o < k then .new else if k = t.length o then .inSync else .old := by
  rw [compare, if_pos (ht.built.contains_iff.2 hne)]
  simp only [UInt32.lt_iff_toNat_lt, ← UInt32.toNat_inj, toNat_lastSeen hk,
    toNat_last (ht.short o)]

/-- **What is news to a node**: that a peer has more of an origin, unless the log of the peer
is full and the node has heard of the origin. -/
theorem compare_next_eq_new_iff (hs : Orderly s) (ht : Orderly t) {o : String}
    (hne : s.log o ≠ []) :
    t.compare o (lastSeen (UInt32.ofNat (s.length o + 1))) = .new ↔
      t.length o < s.length o ∧ (s.Full o → t.log o = []) := by
  by_cases hnil : t.log o = []
  · have hzero := length_eq_zero_iff.2 hnil
    have hpos : 0 < s.length o := Nat.pos_of_ne_zero fun h => hne (length_eq_zero_iff.1 h)
    rw [hzero]
    exact iff_of_true (ht.built.compare_of_log_eq_nil hnil _) ⟨hpos, fun _ => hnil⟩
  · by_cases hfull : s.Full o
    · -- zero is not more than any number
      refine iff_of_false ?_ fun h => hnil (h.2 hfull)
      have hzero : lastSeen 0 = 0 := rfl
      rw [hfull.ofNat_succ, compare, if_pos (ht.built.contains_iff.2 hnil), hzero,
        if_neg UInt32.not_lt_zero]
      split
      next => exact Freshness.noConfusion
      next => exact Freshness.noConfusion
    · rw [ht.compare_lastSeen (hs.room hfull) hnil]
      by_cases hlt : t.length o < s.length o
      · rw [if_pos hlt]
        exact iff_of_true rfl ⟨hlt, fun h => absurd h hfull⟩
      · rw [if_neg hlt]
        refine iff_of_false ?_ fun h => hlt h.1
        split
        next => exact Freshness.noConfusion
        next => exact Freshness.noConfusion

/-- **A rumor in an answer is the next one that the peer lacks.** -/
theorem owes_of_mem_answerTo (hs : Orderly s) (ht : Orderly t) (hr : r ∈ (t.answerTo s).1) :
    Owes t s r := by
  unfold Owes
  cases hgap : t.firstGap? s.statusVector with
  | some first =>
    -- the peer has nothing of the origin, so the first message is the next one
    rw [answerTo_of_gap hgap, List.mem_singleton] at hr
    obtain ⟨o, hlacks, hfirst⟩ := firstGap?_eq_some hgap
    rw [contains_statusVector, hs.built.contains_eq_false_iff] at hlacks
    obtain rfl : first.origin = o := (ht.built.sequence_eq hfirst).1
    rw [hr, length, hlacks]
    exact hfirst
  | none =>
    rw [answerTo_of_no_gap hgap] at hr
    obtain ⟨⟨o, n⟩, he, hpush⟩ := List.mem_filterMap.1 hr
    obtain ⟨-, rfl⟩ := hs.built.mem_statusVector_iff.1 he
    split at hpush
    next =>
      obtain rfl : r.origin = o := ht.built.origin_eq (mem_log_of_message? hpush)
      by_cases hfull : s.Full r.origin
      · -- there is no message under zero
        simp only at hpush
        rw [hfull.ofNat_succ, message?_zero] at hpush
        exact absurd hpush (by simp)
      · have hk := hs.room hfull
        rw [message?_of_ne_zero _ _ (ofNat_succ_ne_zero hk), toNat_ofNat_of_lt hk,
          Nat.add_sub_cancel] at hpush
        exact hpush
    next => exact absurd hpush (by simp)

/-- The rumors in an answer come from different origins. -/
theorem nodup_origins_answerTo (ht : Built t) :
    ((t.answerTo s).1.map Rumor.origin).Nodup := by
  cases hgap : t.firstGap? s.statusVector with
  | some first =>
    rw [answerTo_of_gap hgap]
    exact List.nodup_singleton _
  | none =>
    rw [answerTo_of_no_gap hgap]
    -- each rumor is of the origin whose entry it answers
    have hsub : ∀ es : List (String × UInt32),
        ((es.filterMap fun e => if t.compare e.1 (lastSeen e.2) = .old then t.message? e.1 e.2
          else none).map Rumor.origin).Sublist (es.map Prod.fst) := by
      intro es
      induction es with
      | nil => exact List.Sublist.refl _
      | cons e es ih =>
        rw [List.filterMap_cons, List.map_cons]
        split
        next => exact ih.cons _
        next x hx =>
          have horigin : x.origin = e.1 := by
            split at hx
            next => exact ht.origin_eq (mem_log_of_message? hx)
            next => exact absurd hx (by simp)
          rw [List.map_cons, horigin]
          exact ih.cons_cons _
    exact s.statusVector.nodup_keys.sublist (hsub _)

/-- **Where an answer has no rumors, the peer lacks none.** -/
theorem length_le_of_answerTo_eq_nil (hs : Orderly s) (ht : Orderly t)
    (hnil : (t.answerTo s).1 = []) (o : String) : t.length o ≤ s.length o := by
  by_contra hlt
  rw [Nat.not_le] at hlt
  have htlt := ht.short o
  have hne : t.log o ≠ [] := fun h => by
    have hzero := length_eq_zero_iff.2 h
    omega
  cases hgap : t.firstGap? s.statusVector with
  | some first =>
    rw [answerTo_of_gap hgap] at hnil
    exact absurd hnil (by simp)
  | none =>
    -- the origin is in the status, with a number that is old
    have hknown := ht.built.firstGap?_eq_none_iff.1 hgap o hne
    rw [contains_statusVector, hs.built.contains_iff] at hknown
    have hentry := hs.built.mem_statusVector_iff.2 ⟨hknown, rfl⟩
    rw [answerTo_of_no_gap hgap] at hnil
    have hnone := List.filterMap_eq_nil_iff.1 hnil _ hentry
    have hk : s.length o + 1 < 2 ^ 32 := by omega
    have hold : t.compare o (lastSeen (UInt32.ofNat (s.length o + 1))) = .old := by
      rw [ht.compare_lastSeen hk hne, if_neg (Nat.lt_asymm hlt), if_neg hlt.ne]
    simp only [hold, if_true] at hnone
    rw [message?_of_ne_zero _ _ (ofNat_succ_ne_zero hk), toNat_ofNat_of_lt hk, Nat.add_sub_cancel,
      List.getElem?_eq_none_iff] at hnone
    exact absurd hlt (Nat.not_lt.2 hnone)

/-- **A node that has no rumors for a peer asks for some exactly if it lacks any**, unless the
log of the peer is full and the node has heard of the origin. -/
theorem asks_iff (hs : Orderly s) (ht : Orderly t) (hnil : (t.answerTo s).1 = []) :
    (t.answerTo s).2 = true ↔ ∃ o, t.length o < s.length o ∧ (s.Full o → t.log o = []) := by
  cases hgap : t.firstGap? s.statusVector with
  | some first =>
    rw [answerTo_of_gap hgap] at hnil
    exact absurd hnil (by simp)
  | none =>
    rw [answerTo_of_no_gap hgap, List.any_eq_true]
    constructor
    · rintro ⟨⟨o, n⟩, he, hnew⟩
      obtain ⟨hne, rfl⟩ := hs.built.mem_statusVector_iff.1 he
      exact ⟨o, (compare_next_eq_new_iff hs ht hne).1 (of_decide_eq_true hnew)⟩
    · rintro ⟨o, hlacks⟩
      have hne : s.log o ≠ [] := fun h => by
        have hzero := length_eq_zero_iff.2 h
        omega
      refine ⟨_, hs.built.mem_statusVector_iff.2 ⟨hne, rfl⟩, decide_eq_true ?_⟩
      exact (compare_next_eq_new_iff hs ht hne).2 hlacks

/-- **Nothing is answered to a node with the same store.** -/
theorem answerTo_self (hs : Orderly s) : s.answerTo s = ([], false) := by
  have hnil : (s.answerTo s).1 = [] := by
    refine List.eq_nil_iff_forall_not_mem.2 fun r hr => ?_
    have hbound := (List.getElem?_eq_some_iff.1 (owes_of_mem_answerTo hs hs hr)).1
    exact absurd hbound (lt_irrefl _)
  refine Prod.ext hnil (Bool.eq_false_iff.2 fun hasks => ?_)
  obtain ⟨o, hlt, -⟩ := (asks_iff hs hs hnil).1 hasks
  exact absurd hlt (lt_irrefl _)

/-! ### Taking rumors in -/

/-- A rumor that another store owes is appended. -/
theorem Owes.append? (h : Owes t s r) (ht : Built t) : ∃ s', s.append? r = some s' := by
  have hseq : r.sequence = UInt32.ofNat (s.length r.origin + 1) := (ht.sequence_eq h).2
  exact ⟨_, if_pos (hseq.trans (s.last_add_one r.origin).symm)⟩

/-- A rumor that another store owes has a number. -/
theorem Owes.sequence_ne_zero (h : Owes t s r) (ht : Orderly t) : r.sequence ≠ 0 := by
  intro hzero
  have hseq : r.sequence.toNat = s.length r.origin + 1 := ht.toNat_sequence h
  rw [hzero] at hseq
  exact absurd hseq (by simp)

/-- **Rumors from different origins that another store owes are all taken in**, each at the
end of the log of its origin. -/
theorem receive_of_owes {rs : List Rumor} (hs : Orderly s) (ht : Orderly t)
    (howes : ∀ r ∈ rs, Owes t s r) (hnodup : (rs.map Rumor.origin).Nodup) :
    rs.foldlM (fun s r => s.append? r) s = some (s.receive rs) ∧ Orderly (s.receive rs) ∧
      ∀ o, (∃ r ∈ rs, r.origin = o ∧ (s.receive rs).log o = s.log o ++ [r]) ∨
        ((∀ r ∈ rs, r.origin ≠ o) ∧ (s.receive rs).log o = s.log o) := by
  induction rs generalizing s with
  | nil => exact ⟨rfl, hs, fun o => Or.inr ⟨by simp, rfl⟩⟩
  | cons r rs ih =>
    obtain ⟨hnew, hnodup⟩ := List.nodup_cons.1 hnodup
    have howed := howes r List.mem_cons_self
    obtain ⟨s', happend⟩ := howed.append? ht.built
    have hlog := log_append? happend
    -- the other rumors are of other origins, whose logs are the same
    have hothers : ∀ x ∈ rs, x.origin ≠ r.origin := fun x hx heq =>
      hnew (heq ▸ List.mem_map_of_mem hx)
    have hstill : ∀ x ∈ rs, Owes t s' x := by
      intro x hx
      have hne : Sequenced.origin r ≠ x.origin := fun heq => hothers x hx heq.symm
      have hsame := hlog x.origin
      rw [if_neg hne] at hsame
      unfold Owes
      rw [length, hsame]
      exact howes x (List.mem_cons_of_mem _ hx)
    obtain ⟨hfold, horderly, hlogs⟩ :=
      ih (hs.append happend (howed.sequence_ne_zero ht)) hstill hnodup
    have hreceive : s.receive (r :: rs) = s'.receive rs := by
      rw [receive, List.foldl_cons, happend]
      rfl
    rw [hreceive]
    refine ⟨?_, horderly, fun o => ?_⟩
    · rw [List.foldlM_cons, happend]
      exact hfold
    · by_cases ho : r.origin = o
      · -- the first rumor is the only one of its origin
        refine Or.inl ⟨r, List.mem_cons_self, ho, ?_⟩
        rcases hlogs o with ⟨x, hx, hxo, -⟩ | ⟨-, hsame⟩
        · exact absurd (hxo.trans ho.symm) (hothers x hx)
        · rw [hsame, hlog]
          exact if_pos ho
      · have hsame := hlog o
        rw [if_neg (show Sequenced.origin r ≠ o from ho)] at hsame
        rcases hlogs o with ⟨x, hx, hxo, hgrown⟩ | ⟨hnone, hlog'⟩
        · rw [hsame] at hgrown
          exact Or.inl ⟨x, List.mem_cons_of_mem _ hx, hxo, hgrown⟩
        · exact Or.inr ⟨List.forall_mem_cons.2 ⟨ho, hnone⟩, hlog'.trans hsame⟩

end MessageStore
end GossipLedger
