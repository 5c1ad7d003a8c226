import GossipLedger.Proofs.Rumor.Answers

/-!
# What a store says of its messages

Whatever messages are offered to a store, in whatever order, it takes those that are next and
refuses the others.  So each log is without a gap, and the number of a message, its place in the
log, the length of the log and the number that comes next are one apart from each other, or the
same.  All that a store says when it is asked agrees with this.

The numbers have 32 bits, so in a log that is longer they come again; as long as it is not, they
are the places.

## Main definitions

* `MessageStore.offer` — the store after a message was offered to it.
* `MessageStore.Lawful` — what a store says of its messages.

## Main results

* `MessageStore.Built.firstGap?_eq_some_iff` — which message fills the first gap.
* `MessageStore.lawful_of_offers` — **every store that comes about by offers is lawful.**
-/

namespace GossipLedger
namespace MessageStore

variable {α : Type} {s : MessageStore α} {m : α} {o : String} {q : UInt32} {v : StatusVector}

/-! ### What is found and compared -/

theorem toNat_last_eq_mod (s : MessageStore α) (o : String) :
    (s.last o).toNat = s.length o % 2 ^ 32 := UInt32.toNat_ofNat'

/-- What it is to be the next number of an origin. -/
theorem eq_last_add_one_iff : q = s.last o + 1 ↔ q.toNat = (s.length o + 1) % 2 ^ 32 := by
  rw [last_add_one, ← UInt32.toNat_inj, UInt32.toNat_ofNat']

/-- Whatever is compared with the numbers of an origin that is listed, the length of its log
decides. -/
theorem compare_iff (hlisted : s.contains o = true) (q : UInt32) :
    (s.compare o q = .new ↔ s.length o % 2 ^ 32 < q.toNat) ∧
      (s.compare o q = .inSync ↔ q.toNat = s.length o % 2 ^ 32) ∧
      (s.compare o q = .old ↔ q.toNat < s.length o % 2 ^ 32) := by
  unfold compare
  rw [if_pos hlisted]
  simp only [UInt32.lt_iff_toNat_lt, ← UInt32.toNat_inj, toNat_last_eq_mod]
  rcases lt_trichotomy q.toNat (s.length o % 2 ^ 32) with hlt | heq | hgt
  · simp only [Nat.lt_asymm hlt, Nat.ne_of_lt hlt, hlt, if_false, reduceCtorEq, and_self]
  · simp [heq]
  · simp only [hgt, Nat.ne_of_gt hgt, Nat.lt_asymm hgt, if_true, reduceCtorEq, and_self]

/-- There is a message under each number from one to the length of the log. -/
theorem isSome_message?_iff :
    (s.message? o q).isSome = true ↔ 1 ≤ q.toNat ∧ q.toNat ≤ s.length o := by
  by_cases hq : q = 0
  · rw [hq, message?_zero]
    exact iff_of_false nofun fun h => absurd h.1 (by simp)
  · have hpos : q.toNat ≠ 0 := fun h => hq (UInt32.toNat_inj.1 h)
    rw [message?_of_ne_zero s o hq, isSome_getElem?]
    unfold length
    omega

/-- The first message of an origin is the one with number one. -/
theorem message?_one (s : MessageStore α) (o : String) : s.message? o 1 = (s.log o).head? := by
  rw [message?_of_ne_zero s o (by decide), List.head?_eq_getElem?]
  rfl

/-- What a status vector says of an origin, as a number. -/
theorem get?_statusVector_toNat (s : MessageStore α) (o : String) :
    (s.statusVector.get? o).map UInt32.toNat =
      if s.contains o = true then some ((s.length o + 1) % 2 ^ 32) else none := by
  rw [get?_statusVector, NameMap.contains_eq]
  cases hget : s.get? o with
  | none => rfl
  | some l =>
    have hlength : s.length o = l.length := congrArg List.length (log_of_get? hget)
    rw [hlength, Option.map_some, Option.map_some, Option.isSome_some, if_pos rfl,
      UInt32.toNat_ofNat']

/-- A gap is that of the least origin that the status vector lacks. -/
theorem exists_least_of_firstGap? (h : s.firstGap? v = some m) :
    ∃ o, s.contains o = true ∧ v.contains o = false ∧
      (∀ o', s.contains o' = true → v.contains o' = false → o ≤ o') ∧ s.message? o 1 = some m := by
  unfold firstGap? at h
  split at h
  next e he =>
    obtain ⟨hlacks, before, later, hlist, hothers⟩ := List.find?_eq_some_iff_append.1 he
    have hmem : e ∈ s.toList := List.mem_of_find?_eq_some he
    have hlog : s.log e.1 = e.2 := log_of_get? (NameMap.get?_eq_some_iff.2 hmem)
    refine ⟨e.1, Catalog.contains_of_mem hmem, by simpa using hlacks,
      fun o' hlisted hlacks' => ?_, ?_⟩
    · obtain ⟨e', he', rfl⟩ := Catalog.contains_iff.1 hlisted
      have hsorted := s.sorted
      rw [hlist] at he' hsorted
      -- those before are not lacking, and those behind are greater
      rcases List.mem_append.1 he' with hbefore | hrest
      · have hthere := hothers e' hbefore
        simp [hlacks'] at hthere
      · rcases List.mem_cons.1 hrest with rfl | hlater
        · exact String.le_refl _
        · have hpairs := (List.pairwise_append.1 hsorted).2.1
          exact String.not_lt.1 (String.lt_asymm ((List.pairwise_cons.1 hpairs).1 e' hlater))
    · rw [message?_one, hlog]
      exact h
  next => exact absurd h (by simp)

/-! ### Offers -/

section Laws

variable [Sequenced α]

/-- The store after a message was offered to it. -/
def offer (s : MessageStore α) (m : α) : MessageStore α := (s.append? m).getD s

/-- **What a store says of its messages.**  A remainder by the number of numbers is the number
itself as long as the log is not longer than they reach. -/
structure Lawful (s : MessageStore α) : Prop where
  /-- An origin that is listed has messages, each of them at the place of its number. -/
  logs : ∀ o l, s.get? o = some l → l ≠ [] ∧ ∀ k m, l[k]? = some m →
    Sequenced.origin m = o ∧ (Sequenced.sequence m).toNat = (k + 1) % 2 ^ 32
  /-- The next message of an origin is taken, and no other. -/
  takes : ∀ m, (s.append? m).isSome = true ↔
    (Sequenced.sequence m).toNat = (s.length (Sequenced.origin m) + 1) % 2 ^ 32
  /-- What is taken makes the log of its origin longer by one, and leaves the others alone. -/
  grows : ∀ m t, s.append? m = some t →
    ∀ o, t.log o = if Sequenced.origin m = o then s.log o ++ [m] else s.log o
  /-- What is refused leaves the store alone. -/
  refuses : ∀ m, (Sequenced.sequence m).toNat ≠ (s.length (Sequenced.origin m) + 1) % 2 ^ 32 →
    s.offer m = s
  /-- What is found under a number is the message of that number, as long as each has its own. -/
  finds : ∀ o, s.length o < 2 ^ 32 → ∀ q m,
    s.message? o q = some m ↔ m ∈ s.log o ∧ Sequenced.sequence m = q
  /-- There is one under each number from one to the length of the log. -/
  found : ∀ o q, (s.message? o q).isSome = true ↔ 1 ≤ q.toNat ∧ q.toNat ≤ s.length o
  /-- A number is new, the last or old as it is above, equal to or below the length of the log. -/
  compares : ∀ o, s.contains o = true → ∀ q,
    (s.compare o q = .new ↔ s.length o % 2 ^ 32 < q.toNat) ∧
    (s.compare o q = .inSync ↔ q.toNat = s.length o % 2 ^ 32) ∧
    (s.compare o q = .old ↔ q.toNat < s.length o % 2 ^ 32)
  /-- The status vector has the next number of each origin that is listed. -/
  status : ∀ o, (s.statusVector.get? o).map UInt32.toNat =
    if s.contains o = true then some ((s.length o + 1) % 2 ^ 32) else none
  /-- It is the same when it has been sent. -/
  sent : StatusVector.ofWant s.statusVector.toWant = s.statusVector
  /-- Another vector has no gap if it has all origins that are listed. -/
  noGap : ∀ v : StatusVector, s.firstGap? v = none ↔
    ∀ o, s.contains o = true → v.contains o = true
  /-- The first gap is filled by the first message of the least origin that it lacks. -/
  gap : ∀ (v : StatusVector) m, s.firstGap? v = some m ↔
    ∃ o, s.contains o = true ∧ v.contains o = false ∧
      (∀ o', s.contains o' = true → v.contains o' = false → o ≤ o') ∧ s.message? o 1 = some m
  /-- There are no messages exactly if no origin is listed. -/
  empty : s.isEmpty = true ↔ s.count = 0

/-! ### One law at a time -/

theorem isSome_append?_iff : (s.append? m).isSome = true ↔
    (Sequenced.sequence m).toNat = (s.length (Sequenced.origin m) + 1) % 2 ^ 32 := by
  rw [Option.isSome_iff_exists, ← eq_last_add_one_iff]
  constructor
  · rintro ⟨t, happend⟩
    exact (append?_eq_some_iff.1 happend).1
  · intro hnext
    exact ⟨_, append?_eq_some_iff.2 ⟨hnext, rfl⟩⟩

theorem offer_of_ne
    (hother : (Sequenced.sequence m).toNat ≠ (s.length (Sequenced.origin m) + 1) % 2 ^ 32) :
    s.offer m = s := by
  unfold offer append?
  dsimp only
  rw [if_neg fun hnext => hother (eq_last_add_one_iff.1 hnext)]
  rfl

theorem Built.offer (h : Built s) (m : α) : Built (s.offer m) := by
  unfold MessageStore.offer
  cases happend : s.append? m with
  | none => exact h
  | some t => exact h.append happend

/-- **Which message fills the first gap**: the first one of the least origin that the status vector
lacks. -/
theorem Built.firstGap?_eq_some_iff (h : Built s) : s.firstGap? v = some m ↔
    ∃ o, s.contains o = true ∧ v.contains o = false ∧
      (∀ o', s.contains o' = true → v.contains o' = false → o ≤ o') ∧ s.message? o 1 = some m := by
  refine ⟨exists_least_of_firstGap?, ?_⟩
  rintro ⟨o, hlisted, hlacks, hleast, hfirst⟩
  cases hgap : s.firstGap? v with
  | none =>
    have hthere := h.firstGap?_eq_none_iff.1 hgap o (h.contains_iff.1 hlisted)
    rw [hlacks] at hthere
    exact nomatch hthere
  | some m' =>
    -- two least origins are the same
    obtain ⟨o', hlisted', hlacks', hleast', hfirst'⟩ := exists_least_of_firstGap? hgap
    obtain rfl : o = o' :=
      String.le_antisymm (hleast o' hlisted' hlacks') (hleast' o hlisted hlacks)
    exact hfirst'.symm.trans hfirst

theorem Built.isEmpty_iff (h : Built s) : s.isEmpty = true ↔ s.count = 0 := by
  have hnone : s.isEmpty = true ↔ s.toList = [] := List.isEmpty_iff
  rw [hnone]
  constructor
  · intro hnil
    unfold count
    rw [hnil]
    rfl
  · intro hcount
    cases hlist : s.toList with
    | nil => rfl
    | cons e es =>
      have hne : e.2 ≠ [] := (h.mem_toList_iff.1 (hlist ▸ List.mem_cons_self)).1
      have hpos : 0 < e.2.length := List.length_pos_of_ne_nil hne
      unfold count at hcount
      rw [hlist, List.map_cons, List.foldr_cons] at hcount
      omega

/-! ### All of them -/

/-- A store that is built by appending is lawful. -/
theorem Built.lawful (h : Built s) : Lawful s where
  logs o l hl := by
    refine ⟨h.ne_nil hl, fun k m hm => ?_⟩
    rw [← log_of_get? hl] at hm
    obtain ⟨horigin, hnumber⟩ := h.sequence_eq hm
    exact ⟨horigin, by rw [hnumber, UInt32.toNat_ofNat']⟩
  takes _ := isSome_append?_iff
  grows _ _ happend := log_append? happend
  refuses _ := offer_of_ne
  finds _ hshort _ _ := h.message?_eq_some_iff hshort
  found _ _ := isSome_message?_iff
  compares _ := compare_iff
  status := get?_statusVector_toNat s
  sent := StatusVector.ofWant_toWant _
  noGap _ := by
    rw [h.firstGap?_eq_none_iff]
    exact forall_congr' fun o => imp_congr_left h.contains_iff.symm
  gap _ _ := h.firstGap?_eq_some_iff
  empty := h.isEmpty_iff

theorem built_offers (ms : List α) (h : Built s) : Built (ms.foldl offer s) := by
  induction ms generalizing s with
  | nil => exact h
  | cons m ms ih => exact ih (h.offer m)

/-- **Every store that comes about by offers is lawful**, whatever is offered and in whatever
order. -/
theorem lawful_of_offers (ms : List α) : Lawful (ms.foldl offer .empty) :=
  (built_offers ms .empty).lawful

/-- Six rumors are offered, three of them too early or twice.  A peer that has heard of the first
origin only lacks the first rumor of the second. -/
theorem lawful_after_six_offers :
    let r (o : String) (n : UInt32) : Rumor := ⟨o, n, "text"⟩
    let s : MessageStore Rumor :=
      [r "b" 2, r "a" 1, r "a" 3, r "a" 2, r "b" 1, r "a" 1].foldl offer .empty
    let v : StatusVector := .ofWant [⟨"a", 1⟩]
    s.length "a" = 2 ∧ (s.statusVector.get? "a").map UInt32.toNat = some 3 ∧
      s.message? "a" 2 = some (r "a" 2) ∧ s.firstGap? v = some (r "b" 1) := by
  intro r s v
  have hlawful : Lawful s := lawful_of_offers _
  have hlength : s.length "a" = 2 := by decide +kernel
  have hlisted : s.contains "a" = true := by decide +kernel
  have hstatus := hlawful.status "a"
  rw [if_pos hlisted, hlength] at hstatus
  have hfound : s.message? "a" 2 = some (r "a" 2) :=
    (hlawful.finds "a" (by rw [hlength]; decide) 2 (r "a" 2)).2 ⟨by decide +kernel, rfl⟩
  refine ⟨hlength, hstatus, hfound, (hlawful.gap v (r "b" 1)).2 ⟨"b", by decide +kernel,
    by decide +kernel, fun o hthere hlacks => ?_, by decide +kernel⟩⟩
  -- the origins that are listed are `a` and `b`
  have hnames : s.names = ["a", "b"] := by decide +kernel
  obtain ⟨e, he, rfl⟩ := Catalog.contains_iff.1 hthere
  have hmem : e.1 ∈ s.names := List.mem_map_of_mem he
  rw [hnames, List.mem_cons, List.mem_singleton] at hmem
  rcases hmem with ha | hb
  · rw [ha] at hlacks
    exact absurd hlacks (by decide +kernel)
  · exact hb.symm ▸ String.le_refl "b"

end Laws

end MessageStore
end GossipLedger
