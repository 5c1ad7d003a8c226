import GossipLedger.Proofs.Ledger.Steps

/-!
# Transactions that wait again

Where a side chain takes the place of the end of the chain, the transactions of that end
wait again.  Of several with one name the first does, and only if none with its name waits
or is confirmed already; the list of those that wait again is made in the same way.  So
whatever waits after a block came either waited before, or is on that list, or belonged to
the attempt that the block ended.

## Main definitions

* `BlockOutcome.requeued` — the transactions that wait again after a block came.

## Main results

* `Ledger.mem_requeue_iff` — what waits after transactions were sent back.
* `Ledger.mem_firstOfEachName` — the first transaction of each name.
* `Ledger.mem_requeued_reorganize` — what waits again after a reorganization.
* `Ledger.Arrival.mem_pending_or_requeued` — **what waits after a block came.**
* `Ledger.Arrival.exists_of_mem_requeued` — what waits again was on the chain.
-/

namespace GossipLedger

/-- The transactions that wait again after a block came. -/
def BlockOutcome.requeued : BlockOutcome → List Transaction
  | .reorganized _ requeued => requeued
  | _ => []

namespace Ledger

variable {l m : Ledger} {difficulty : Nat}

/-- **What waits after transactions were sent back**: the first of each name, if none with
that name waited or was confirmed. -/
theorem mem_requeue_iff {ts : List Transaction} {t : Transaction} :
    t ∈ (l.requeue ts).pending.toList ↔
      t ∈ l.pending.toList ∨
        l.knows t.name = false ∧ ts.find? (fun u => u.name = t.name) = some t := by
  unfold requeue
  induction ts generalizing l with
  | nil => simp
  | cons u us ih =>
    rw [List.foldl_cons, ih]
    by_cases hname : u.name = t.name
    · rw [List.find?_cons_of_pos (by simpa using hname)]
      split
      next hconfirmed =>
        -- the name is confirmed, so no transaction with it is sent back
        have hknown : l.knows t.name = true := by
          rw [← hname]
          exact knows_iff.2 (Or.inr hconfirmed)
        simp [hknown]
      next hnew =>
        have hwaits : knows { l with pending := l.pending.add u } t.name = true :=
          knows_iff.2 (Or.inl (Catalog.contains_add.2 (Or.inr hname)))
        have hfree : l.knows t.name = l.pending.contains u.name := by
          rw [knows, ← hname]
          simp [hnew]
        simp only [hwaits, Catalog.mem_add, hfree, Option.some.injEq]
        constructor
        · rintro ((ht | ⟨rfl, hc⟩) | ⟨hfalse, -⟩)
          · exact Or.inl ht
          · exact Or.inr ⟨hc, rfl⟩
          · exact absurd hfalse (by simp)
        · rintro (ht | ⟨hc, rfl⟩)
          · exact Or.inl (Or.inl ht)
          · exact Or.inl (Or.inr ⟨rfl, hc⟩)
    · rw [List.find?_cons_of_neg (by simpa using hname)]
      split
      next => rfl
      next =>
        have hsame : knows { l with pending := l.pending.add u } t.name = l.knows t.name := by
          rw [Bool.eq_iff_iff, knows_iff, knows_iff, Catalog.contains_add]
          simp [hname, confirms]
        have hmem : t ∈ (l.pending.add u).toList ↔ t ∈ l.pending.toList := by
          rw [Catalog.mem_add]
          exact or_iff_left fun h => hname (congrArg Transaction.name h.1).symm
        rw [hsame, hmem]

/-- A transaction is the first of its name if it is the one that is found under it. -/
theorem mem_firstOfEachName {ts : List Transaction} {t : Transaction} :
    t ∈ firstOfEachName ts ↔ ts.find? (fun u => u.name = t.name) = some t := by
  -- with some transactions taken already, only new names count
  have hfold : ∀ taken : List Transaction,
      t ∈ ts.foldl (fun r u => if r.any fun v => v.name = u.name then r else u :: r) taken ↔
        t ∈ taken ∨ (∀ v ∈ taken, v.name ≠ t.name) ∧
          ts.find? (fun u => u.name = t.name) = some t := by
    induction ts with
    | nil => simp
    | cons u us ih =>
      intro taken
      rw [List.foldl_cons, ih]
      by_cases hname : u.name = t.name
      · rw [List.find?_cons_of_pos (by simpa using hname)]
        split
        next htaken =>
          obtain ⟨v, hv, heq⟩ : ∃ v ∈ taken, v.name = u.name := by simpa using htaken
          have hold : ¬∀ v ∈ taken, v.name ≠ t.name := fun h => h v hv (heq.trans hname)
          simp [hold]
        next hnew =>
          have hfresh : ∀ v ∈ taken, v.name ≠ t.name := by
            intro v hv heq
            exact hnew (by simpa using ⟨v, hv, heq.trans hname.symm⟩)
          have hstale : ¬∀ v ∈ u :: taken, v.name ≠ t.name := fun h => h u List.mem_cons_self hname
          rw [or_iff_left fun h => hstale h.1, List.mem_cons, Option.some.injEq,
            and_iff_right hfresh, or_comm, eq_comm]
      · rw [List.find?_cons_of_neg (by simpa using hname)]
        split
        next => rfl
        next =>
          have hne : t ≠ u := fun h => hname (congrArg Transaction.name h).symm
          simp [hname, hne]
  rw [firstOfEachName, List.mem_reverse, hfold]
  simp

/-- Whether a transaction is the first of its name among those that are left over depends
on whether transactions of that name are left over. -/
theorem mem_firstOfEachName_filter {ts : List Transaction} {p : Digest → Bool}
    {t : Transaction} : t ∈ firstOfEachName (ts.filter fun u => p u.name) ↔
      p t.name = true ∧ ts.find? (fun u => u.name = t.name) = some t := by
  rw [mem_firstOfEachName, List.find?_filter]
  cases hp : p t.name with
  | true =>
    -- all transactions with the name are left over
    have hsame : (fun u : Transaction => decide (p u.name = true ∧
        decide (u.name = t.name) = true)) = fun u => decide (u.name = t.name) := by
      funext u
      by_cases hname : u.name = t.name
      · simp [hname, hp]
      · simp [hname]
    rw [hsame, and_iff_right rfl]
  | false =>
    constructor
    · intro h
      have hboth := List.find?_some h
      simp [hp] at hboth
    · rintro ⟨h, -⟩
      exact absurd h (by simp)

/-- **What waits again after a reorganization**: of the transactions of the dropped blocks
the first of each name that waits now. -/
theorem mem_requeued_reorganize {s : SideChain} {t : Transaction} :
    t ∈ (l.reorganize s).2.requeued ↔
      (l.reorganize s).1.pending.contains t.name = true ∧
        ((l.dropped s).flatMap Block.transactions).find? (fun u => u.name = t.name) = some t :=
  mem_firstOfEachName_filter (p := (l.reorganize s).1.pending.contains)

/-- What waits after a reorganization waited before, or waits again. -/
theorem mem_pending_reorganize {s : SideChain} {t : Transaction}
    (ht : t ∈ (l.reorganize s).1.pending.toList) :
    t ∈ l.pending.toList ∨ t ∈ (l.reorganize s).2.requeued := by
  have hcut := mem_of_mem_foldl_extend ht
  rcases mem_requeue_iff.1 hcut with hold | ⟨-, hfirst⟩
  · exact Or.inl hold
  · exact Or.inr (mem_requeued_reorganize.2 ⟨Catalog.contains_of_mem ht, hfirst⟩)

/-- What waits again after a reorganization was on the chain. -/
theorem exists_of_mem_requeued_reorganize {s : SideChain} {t : Transaction}
    (ht : t ∈ (l.reorganize s).2.requeued) : ∃ c ∈ l.chain, t ∈ c.transactions := by
  have hfirst := List.mem_of_find?_eq_some (mem_requeued_reorganize.1 ht).2
  obtain ⟨c, hc, htc⟩ := List.mem_flatMap.1 hfirst
  exact ⟨c, List.mem_of_mem_drop hc, htc⟩

/-- **What waits after a block came** waited before, or waits again, or belonged to the
attempt that the block ended. -/
theorem Arrival.mem_pending_or_requeued {b : Block} {mining : Option Block} {o : BlockOutcome}
    (harrival : Arrival l b mining m o) {t : Transaction} (ht : t ∈ m.pending.toList) :
    t ∈ l.pending.toList ∨ t ∈ o.requeued ∨ ∃ c, mining = some c ∧ t ∈ c.transactions := by
  cases harrival with
  | invalid => exact Or.inl ht
  | ignored => exact Or.inl ht
  | extended => exact (mem_of_mem_preempt (mem_of_mem_extend ht)).imp_right Or.inr
  | reorganized => exact (mem_pending_reorganize ht).imp_right Or.inl
  | stored => exact Or.inl ht

/-- What waits again after a block came was on the chain. -/
theorem Arrival.exists_of_mem_requeued {b : Block} {mining : Option Block} {o : BlockOutcome}
    (harrival : Arrival l b mining m o) {t : Transaction} (ht : t ∈ o.requeued) :
    ∃ c ∈ l.chain, t ∈ c.transactions := by
  cases harrival with
  | invalid => exact absurd ht List.not_mem_nil
  | ignored => exact absurd ht List.not_mem_nil
  | extended => exact absurd ht List.not_mem_nil
  | reorganized => exact exists_of_mem_requeued_reorganize (l := l.park b) ht
  | stored => exact absurd ht List.not_mem_nil

end Ledger
end GossipLedger
