import GossipLedger.Proofs.Catalog
import GossipLedger.Rumor.Store
import Mathlib.Algebra.Order.Ring.Nat

/-!
# Laws of message stores

A store that is built by appending has, for each origin, the messages of that origin
numbered from one on without a gap, and no origin without messages.  So it is known by
its logs.

Numbers have 32 bits, and a log may go on when they come again.  As long as no log is that
long, a number says which message is meant.

## Main definitions

* `MessageStore.Built` — the stores that come about by appending.
* `MessageStore.Orderly` — those in which each message has a number of its own.

## Main results

* `MessageStore.log_append?` — the logs after a message was appended.
* `MessageStore.Built.sequence_eq` — **messages stand in the log of their origin at the
  place of their number**, counted in 32 bits.
* `MessageStore.Built.message?_eq_some_iff` — a number says which message is meant.
* `MessageStore.Built.ext_log` — stores with the same logs are equal.
* `MessageStore.get?_statusVector`, `StatusVector.ofWant_toWant` — what a status vector
  says, also once it was sent.
* `MessageStore.Built.firstGap?_eq_none_iff` — when a status vector lacks no origin.
-/

namespace GossipLedger

/-- A status vector is the same when it has been sent. -/
theorem StatusVector.ofWant_toWant (v : StatusVector) :
    StatusVector.ofWant v.toWant = v := by
  refine Catalog.ext ?_
  have hsame : v.toWant.map (fun e => (e.identifier, e.nextSequence)) = v.toList := by
    rw [StatusVector.toWant, List.map_map]
    exact List.map_id _
  rw [StatusVector.ofWant, hsame]
  exact Catalog.toList_ofList v.sorted

namespace MessageStore

variable {α : Type}

/-! ### Logs -/

theorem log_of_get? {s : MessageStore α} {o : String} {l : List α} (h : s.get? o = some l) :
    s.log o = l := by
  rw [log, h]
  rfl

@[simp] theorem log_empty (o : String) : log (.empty : MessageStore α) o = [] := rfl

theorem log_set (s : MessageStore α) (o o' : String) (l : List α) :
    log (s.set o l) o' = if o = o' then l else s.log o' := by
  rw [log, NameMap.get?_set]
  split
  next => rfl
  next => rfl

theorem length_eq_zero_iff {s : MessageStore α} {o : String} : s.length o = 0 ↔ s.log o = [] :=
  List.length_eq_zero_iff

/-- A number that is not more than the numbers reach is itself in 32 bits. -/
theorem toNat_ofNat_of_lt {k : Nat} (hk : k < 2 ^ 32) : (UInt32.ofNat k).toNat = k :=
  UInt32.toNat_ofNat'.trans (Nat.mod_eq_of_lt hk)

/-- Two counts have the same number exactly if they differ by rounds of all numbers. -/
theorem ofNat_eq_ofNat_iff {j k : Nat} :
    UInt32.ofNat j = UInt32.ofNat k ↔ j % 2 ^ 32 = k % 2 ^ 32 := by
  rw [← UInt32.toNat_inj, UInt32.toNat_ofNat', UInt32.toNat_ofNat']

theorem ofNat_succ_eq_iff {j k : Nat} :
    UInt32.ofNat (j + 1) = UInt32.ofNat (k + 1) ↔ j % 2 ^ 32 = k % 2 ^ 32 := by
  rw [UInt32.ofNat_add, UInt32.ofNat_add, UInt32.add_left_inj, ofNat_eq_ofNat_iff]

/-- The number that comes next. -/
theorem last_add_one (s : MessageStore α) (o : String) :
    s.last o + 1 = UInt32.ofNat (s.length o + 1) := (UInt32.ofNat_add _ 1).symm

theorem toNat_last {s : MessageStore α} {o : String} (h : s.length o < 2 ^ 32) :
    (s.last o).toNat = s.length o := toNat_ofNat_of_lt h

/-- A message by its number. -/
theorem message?_of_ne_zero (s : MessageStore α) (o : String) {q : UInt32} (hq : q ≠ 0) :
    s.message? o q = (s.log o)[q.toNat - 1]? := if_neg hq

@[simp] theorem message?_zero (s : MessageStore α) (o : String) : s.message? o 0 = none :=
  if_pos rfl

/-- A message is in the log of the origin under which it is found. -/
theorem mem_log_of_message? {s : MessageStore α} {o : String} {q : UInt32} {m : α}
    (h : s.message? o q = some m) : m ∈ s.log o := by
  unfold message? at h
  split at h
  next => exact absurd h (by simp)
  next => exact List.mem_of_getElem? h

/-- A message is found under its number in a longer log as well. -/
theorem message?_of_prefix {s t : MessageStore α} {o : String} (h : s.log o <+: t.log o)
    {q : UInt32} {m : α} (hm : s.message? o q = some m) : t.message? o q = some m := by
  unfold message? at hm ⊢
  split at hm
  next => exact absurd hm (by simp)
  next hq =>
    obtain ⟨rest, hrest⟩ := h
    rw [if_neg hq, ← hrest, List.getElem?_append_left (List.getElem?_eq_some_iff.1 hm).1]
    exact hm

/-! ### Stores that are built by appending -/

section Built

variable [Sequenced α] {s t : MessageStore α} {m : α}

/-- The stores that come about by appending. -/
inductive Built : MessageStore α → Prop
  /-- The store without messages. -/
  | empty : Built .empty
  /-- One more message. -/
  | append {s t : MessageStore α} {m : α} : Built s → s.append? m = some t → Built t

/-- A message is appended exactly if its number is the next one of its origin. -/
theorem append?_eq_some_iff : s.append? m = some t ↔
    Sequenced.sequence m = s.last (Sequenced.origin m) + 1 ∧
      s.set (Sequenced.origin m) (s.log (Sequenced.origin m) ++ [m]) = t := by
  unfold append?
  by_cases h : Sequenced.sequence m = s.last (Sequenced.origin m) + 1
  · simp [h]
  · simp [h]

/-- **The logs after a message was appended**: that of its origin is one longer. -/
theorem log_append? (h : s.append? m = some t) (o : String) :
    t.log o = if Sequenced.origin m = o then s.log o ++ [m] else s.log o := by
  obtain ⟨-, rfl⟩ := append?_eq_some_iff.1 h
  rw [log_set]
  split
  next ho => rw [ho]
  next => rfl

theorem length_append? (h : s.append? m = some t) (o : String) :
    t.length o = if Sequenced.origin m = o then s.length o + 1 else s.length o := by
  unfold length
  rw [log_append? h]
  split
  next => rw [List.length_append, List.length_singleton]
  next => rfl

/-- A log that takes only messages with a number other than zero ends where the numbers do. -/
theorem length_append?_lt (h : s.append? m = some t) (hm : Sequenced.sequence m ≠ 0) {o : String}
    (hshort : s.length o < 2 ^ 32) : t.length o < 2 ^ 32 := by
  rw [length_append? h]
  split
  next ho =>
    obtain ⟨hnext, -⟩ := append?_eq_some_iff.1 h
    refine lt_of_le_of_ne hshort fun hfull => hm ?_
    rw [hnext, ho, last_add_one, hfull]
    rfl
  next => exact hshort

/-- The number of the message that was appended is the last one of its origin. -/
theorem last_append? (h : s.append? m = some t) (o : String) :
    t.last o = if Sequenced.origin m = o then Sequenced.sequence m else s.last o := by
  obtain ⟨hnext, -⟩ := append?_eq_some_iff.1 h
  rw [last, length_append? h]
  split
  next ho =>
    rw [hnext, ho]
    exact (s.last_add_one o).symm
  next => rfl

theorem mem_log_self (h : s.append? m = some t) : m ∈ t.log (Sequenced.origin m) := by
  rw [log_append? h, if_pos rfl]
  exact List.mem_append_right _ (List.mem_singleton_self m)

/-- The logs only grow. -/
theorem prefix_log_append? (h : s.append? m = some t) (o : String) : s.log o <+: t.log o := by
  rw [log_append? h]
  split
  next => exact List.prefix_append _ _
  next => exact List.prefix_rfl

/-- What is in a log was there or is the message that was appended. -/
theorem mem_log_append? (h : s.append? m = some t) {o : String} {x : α} (hx : x ∈ t.log o) :
    x ∈ s.log o ∨ x = m := by
  rw [log_append? h] at hx
  split at hx
  next => simpa using hx
  next => exact Or.inl hx

/-- No origin is listed without messages. -/
theorem Built.ne_nil (h : Built s) {o : String} {l : List α} (hl : s.get? o = some l) : l ≠ [] := by
  induction h generalizing l with
  | empty => exact absurd hl (by simp [NameMap.get?, Catalog.find?, Catalog.empty])
  | append _ happend ih =>
    obtain ⟨-, rfl⟩ := append?_eq_some_iff.1 happend
    rw [NameMap.get?_set] at hl
    split at hl
    next =>
      obtain rfl := Option.some.inj hl
      simp
    next => exact ih hl

theorem Built.get?_eq (h : Built s) (o : String) :
    s.get? o = if s.log o = [] then none else some (s.log o) := by
  cases hget : s.get? o with
  | none =>
    have hlog : s.log o = [] := by
      rw [log, hget]
      rfl
    rw [if_pos hlog]
  | some l => rw [log_of_get? hget, if_neg (h.ne_nil hget)]

theorem Built.contains_iff (h : Built s) {o : String} : s.contains o = true ↔ s.log o ≠ [] := by
  rw [NameMap.contains_eq, h.get?_eq]
  split
  next hnil => simp [hnil]
  next hne => simp [hne]

theorem Built.contains_eq_false_iff (h : Built s) {o : String} :
    s.contains o = false ↔ s.log o = [] := by
  rw [← Bool.not_eq_true, h.contains_iff, not_not]

/-- The entries are the logs that are not empty. -/
theorem Built.mem_toList_iff (h : Built s) {o : String} {l : List α} :
    (o, l) ∈ s.toList ↔ l ≠ [] ∧ s.log o = l := by
  rw [← NameMap.get?_eq_some_iff, h.get?_eq]
  split
  next hnil =>
    rw [hnil]
    simp only [reduceCtorEq, false_iff, not_and]
    intro hne heq
    exact hne heq.symm
  next hne =>
    rw [Option.some_inj]
    constructor
    · rintro rfl
      exact ⟨hne, rfl⟩
    · exact And.right

/-- **Messages stand in the log of their origin at the place of their number**, counted in
32 bits. -/
theorem Built.sequence_eq (h : Built s) {o : String} {k : Nat} (hm : (s.log o)[k]? = some m) :
    Sequenced.origin m = o ∧ Sequenced.sequence m = UInt32.ofNat (k + 1) := by
  induction h with
  | empty => exact absurd hm (by simp)
  | @append s t x _ happend ih =>
    rw [log_append? happend] at hm
    split at hm
    next ho =>
      obtain ⟨hseq, -⟩ := append?_eq_some_iff.1 happend
      rw [ho, last_add_one] at hseq
      rcases List.getElem?_eq_some_iff.1 hm with ⟨hk, hget⟩
      rw [List.length_append, List.length_singleton] at hk
      rcases Nat.lt_succ_iff_lt_or_eq.1 hk with hk | rfl
      · exact ih (by rw [← hm, List.getElem?_append_left hk])
      · -- the last one is the one that was appended
        rw [List.getElem_append_right le_rfl] at hget
        obtain rfl : x = m := by simpa using hget
        exact ⟨ho, hseq⟩
    next => exact ih hm

theorem Built.origin_eq (h : Built s) {o : String} (hm : m ∈ s.log o) : Sequenced.origin m = o := by
  obtain ⟨k, hk⟩ := List.mem_iff_getElem?.1 hm
  exact (h.sequence_eq hk).1

/-- In a log that is not longer than the numbers reach they are the places. -/
theorem Built.toNat_sequence (h : Built s) {o : String} (hshort : s.length o < 2 ^ 32) {k : Nat}
    (hm : (s.log o)[k]? = some m) : (Sequenced.sequence m).toNat = k + 1 := by
  have hlt : k < s.length o := (List.getElem?_eq_some_iff.1 hm).1
  rw [(h.sequence_eq hm).2]
  exact toNat_ofNat_of_lt (by omega)

/-- Such a log has a message under each number up to its length. -/
theorem Built.message?_eq_some_iff (h : Built s) {o : String} (hshort : s.length o < 2 ^ 32)
    {q : UInt32} : s.message? o q = some m ↔ m ∈ s.log o ∧ Sequenced.sequence m = q := by
  constructor
  · intro hm
    refine ⟨mem_log_of_message? hm, ?_⟩
    have hq : q ≠ 0 := by
      rintro rfl
      exact absurd hm (by simp)
    rw [message?_of_ne_zero s o hq] at hm
    have hseq := h.toNat_sequence hshort hm
    have hpos : 0 < q.toNat := Nat.pos_of_ne_zero fun h0 => hq (UInt32.toNat_inj.1 h0)
    exact UInt32.toNat_inj.1 (by omega)
  · rintro ⟨hm, rfl⟩
    obtain ⟨k, hk⟩ := List.mem_iff_getElem?.1 hm
    have hseq := h.toNat_sequence hshort hk
    have hne : Sequenced.sequence m ≠ 0 := by
      intro h0
      rw [h0] at hseq
      exact absurd hseq (by simp)
    rw [message?_of_ne_zero s o hne, hseq, Nat.add_sub_cancel, hk]

/-- A message that is in two logs of an origin stands in both at the place of its number. -/
theorem Built.mod_eq_of_mem (hs : Built s) (ht : Built t) {o : String} {k : Nat}
    (hk : (s.log o)[k]? = some m) (hm : m ∈ t.log o) :
    ∃ n, (t.log o)[n]? = some m ∧ n % 2 ^ 32 = k % 2 ^ 32 := by
  obtain ⟨n, hn⟩ := List.mem_iff_getElem?.1 hm
  have hseq := (hs.sequence_eq hk).2
  rw [(ht.sequence_eq hn).2] at hseq
  exact ⟨n, hn, ofNat_succ_eq_iff.1 hseq⟩

/-- Of two logs of an origin the one whose messages are all in the other is its beginning, unless
they are so long that the numbers come again. -/
theorem Built.log_prefix_of_subset (hs : Built s) (ht : Built t) {o : String}
    (hslen : s.length o ≤ 2 ^ 32) (htlen : t.length o ≤ 2 ^ 32)
    (h : ∀ m ∈ s.log o, m ∈ t.log o) : s.log o <+: t.log o := by
  rw [List.prefix_iff_getElem?]
  intro k hk
  have hget : (s.log o)[k]? = some (s.log o)[k] := List.getElem?_eq_getElem hk
  -- both places are that of the number
  obtain ⟨n, hn, hplace⟩ := hs.mod_eq_of_mem ht hget (h _ (List.getElem_mem hk))
  have hlt : n < t.length o := (List.getElem?_eq_some_iff.1 hn).1
  have hk' : k < s.length o := hk
  obtain rfl : n = k := by omega
  exact hn

/-- **A store that is built is known by its logs.** -/
theorem Built.ext_log (hs : Built s) (ht : Built t) (h : ∀ o, s.log o = t.log o) : s = t :=
  NameMap.ext_get? fun o => by rw [hs.get?_eq, ht.get?_eq, h]

/-! ### Stores whose messages have numbers of their own -/

/-- The stores that come about by appending, without a log that is longer than the numbers
reach. -/
structure Orderly (s : MessageStore α) : Prop where
  built : Built s
  short : ∀ o, s.length o < 2 ^ 32

theorem Orderly.toNat_sequence (h : Orderly s) {o : String} {k : Nat}
    (hm : (s.log o)[k]? = some m) : (Sequenced.sequence m).toNat = k + 1 :=
  h.built.toNat_sequence (h.short o) hm

/-- The store with a message that has a number. -/
theorem Orderly.append (h : Orderly s) (happend : s.append? m = some t)
    (hm : Sequenced.sequence m ≠ 0) : Orderly t :=
  ⟨h.built.append happend, fun o => length_append?_lt happend hm (h.short o)⟩

end Built

/-! ### Status vectors -/

/-- The entries of a status vector are those of the store. -/
theorem toList_statusVector (s : MessageStore α) :
    s.statusVector.toList = s.toList.map fun e => (e.1, UInt32.ofNat (e.2.length + 1)) := by
  refine Catalog.toList_ofList (List.pairwise_map.2 ?_)
  exact s.sorted

/-- What a status vector says of an origin. -/
theorem get?_statusVector (s : MessageStore α) (o : String) :
    s.statusVector.get? o = (s.get? o).map fun l => UInt32.ofNat (l.length + 1) := by
  refine Option.ext fun n => ?_
  rw [NameMap.get?_eq_some_iff, toList_statusVector, List.mem_map, Option.map_eq_some_iff]
  constructor
  · rintro ⟨⟨o', l⟩, he, heq⟩
    obtain ⟨rfl, rfl⟩ := Prod.mk.inj heq
    exact ⟨l, NameMap.get?_eq_some_iff.2 he, rfl⟩
  · rintro ⟨l, hl, rfl⟩
    exact ⟨(o, l), NameMap.get?_eq_some_iff.1 hl, rfl⟩

/-- A status vector lists the origins of the store. -/
theorem contains_statusVector (s : MessageStore α) (o : String) :
    s.statusVector.contains o = s.contains o := by
  rw [NameMap.contains_eq, NameMap.contains_eq, get?_statusVector, Option.isSome_map]

/-! ### Gaps -/

/-- A gap is filled with the first message of an origin that the status vector lacks. -/
theorem firstGap?_eq_some {s : MessageStore α} {v : StatusVector} {m : α}
    (h : s.firstGap? v = some m) : ∃ o, v.contains o = false ∧ (s.log o)[0]? = some m := by
  unfold firstGap? at h
  split at h
  next e he =>
    have hlacks : v.contains e.1 = false := by simpa using List.find?_some he
    have hlog := log_of_get? (NameMap.get?_eq_some_iff.2 (List.mem_of_find?_eq_some he))
    refine ⟨e.1, hlacks, ?_⟩
    rw [hlog, ← List.head?_eq_getElem?, h]
  next => exact absurd h (by simp)

/-- There is no gap exactly if the status vector lists every origin of the store. -/
theorem Built.firstGap?_eq_none_iff [Sequenced α] {s : MessageStore α} {v : StatusVector}
    (h : Built s) :
    s.firstGap? v = none ↔ ∀ o, s.log o ≠ [] → v.contains o = true := by
  unfold firstGap?
  split
  next e he =>
    -- the origin that is lacking has a first message
    obtain ⟨hne, hlog⟩ := h.mem_toList_iff.1 (List.mem_of_find?_eq_some he)
    have hlacks : v.contains e.1 = false := by simpa using List.find?_some he
    constructor
    · intro hnone
      exact absurd (List.head?_eq_none_iff.1 hnone) hne
    · intro hall
      have hlists := hall e.1 (by rw [hlog]; exact hne)
      rw [hlacks] at hlists
      exact absurd hlists (by simp)
  next hnone =>
    refine iff_of_true rfl fun o ho => ?_
    have hmem : (o, s.log o) ∈ s.toList := h.mem_toList_iff.2 ⟨ho, rfl⟩
    simpa using List.find?_eq_none.1 hnone _ hmem

end MessageStore
end GossipLedger
