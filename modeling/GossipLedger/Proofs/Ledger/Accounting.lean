import GossipLedger.Proofs.Ledger.Confirmation
import GossipLedger.Proofs.Ledger.Restored
import GossipLedger.Proofs.Ledger.Retention

/-!
# The accounts of a reorganization

Where a side chain takes the place of the end of the chain, three collections of
transactions meet: those of the blocks that stay, of the blocks that are dropped and of
the side chain, each with repetitions, and with names that need not fit the contents.
What is reported as waiting again is found by a pass of its own over the dropped blocks.
The report is right because no name both waits and is confirmed, and because no name is
forgotten: a name of a dropped block waits afterwards exactly if the new chain does not
confirm it, and no transaction with that name waited before.

## Main results

* `Ledger.nodup_names_firstOfEachName` — the report names nothing twice.
* `Ledger.contains_pending_reorganize_iff` — which dropped names wait afterwards.
* `Ledger.mem_pending_of_mem_requeued` — what is reported waits as it is.
* `Ledger.reorganized_addBlock` — **the accounts of a reorganization.**
-/

namespace GossipLedger
namespace Ledger

variable {l : Ledger} {difficulty : Nat}

/-! ### The first transaction of each name -/

/-- The first transactions of each name have different names. -/
theorem nodup_names_firstOfEachName (ts : List Transaction) :
    ((firstOfEachName ts).map Transaction.name).Nodup := by
  have hfold : ∀ taken : List Transaction, (taken.map Transaction.name).Nodup →
      ((ts.foldl (fun (r : List Transaction) u =>
        if r.any fun v => v.name = u.name then r else u :: r) taken).map
          Transaction.name).Nodup := by
    induction ts with
    | nil =>
      intro taken h
      exact h
    | cons u us ih =>
      intro taken h
      rw [List.foldl_cons]
      apply ih
      split
      next => exact h
      next hnew =>
        rw [List.map_cons, List.nodup_cons]
        refine ⟨fun hmem => hnew ?_, h⟩
        obtain ⟨v, hv, hname⟩ := List.mem_map.1 hmem
        simpa using ⟨v, hv, hname⟩
  rw [firstOfEachName, List.map_reverse, List.nodup_reverse]
  exact hfold [] .nil

/-- Every name has a first transaction. -/
theorem mem_names_firstOfEachName {ts : List Transaction} {n : Digest} :
    n ∈ (firstOfEachName ts).map Transaction.name ↔ ∃ t ∈ ts, t.name = n := by
  constructor
  · intro h
    obtain ⟨t, ht, rfl⟩ := List.mem_map.1 h
    exact ⟨t, List.mem_of_find?_eq_some (mem_firstOfEachName.1 ht), rfl⟩
  · rintro ⟨t, ht, rfl⟩
    cases hfind : ts.find? (fun u => u.name = t.name) with
    | none => exact absurd (List.find?_eq_none.1 hfind t ht) (by simp)
    | some u =>
      have hname : u.name = t.name := by simpa using List.find?_some hfind
      refine List.mem_map.2 ⟨u, mem_firstOfEachName.2 ?_, hname⟩
      rw [hname]
      exact hfind

/-! ### What waits again -/

section Reorganize

variable {s : SideChain}

/-- What the new chain confirms: what the blocks that stay confirm, and the side chain. -/
theorem confirms_reorganize {n : Digest} : (l.reorganize s).1.confirms n = true ↔
    (l.cutBack s).confirms n = true ∨ ∃ b ∈ s.blocks, b.confirms n = true := by
  simp [confirms]

/-- **A name of a dropped block waits afterwards exactly if the new chain does not confirm
it.** -/
theorem contains_pending_reorganize_iff (hl : l.Apart) {n : Digest}
    (hn : ∃ b ∈ l.dropped s, b.confirms n = true) :
    (l.reorganize s).1.pending.contains n = true ↔ (l.reorganize s).1.confirms n = false := by
  constructor
  · intro hwaits
    exact apart_reorganize s hl n hwaits
  · intro hconfirmed
    -- the name was known, so it still is
    obtain ⟨b, hb, hbn⟩ := hn
    have hknown : l.knows n = true :=
      knows_iff.2 (Or.inr (confirms_iff.2 ⟨b, List.mem_of_mem_drop hb, hbn⟩))
    rcases knows_iff.1 (remembers_reorganize l s n hknown) with hwaits | hconf
    · exact hwaits
    · rw [hconfirmed] at hconf
      exact absurd hconf (by simp)

/-- The names that wait again. -/
theorem mem_names_requeued_reorganize (hl : l.Apart) {n : Digest} :
    n ∈ (l.reorganize s).2.requeued.map Transaction.name ↔
      (∃ b ∈ l.dropped s, b.confirms n = true) ∧ (l.reorganize s).1.confirms n = false := by
  have hnames : n ∈ (l.reorganize s).2.requeued.map Transaction.name ↔
      ∃ t ∈ ((l.dropped s).flatMap Block.transactions).filter fun u =>
        (l.reorganize s).1.pending.contains u.name, t.name = n := mem_names_firstOfEachName
  rw [hnames]
  constructor
  · rintro ⟨t, ht, rfl⟩
    obtain ⟨hmem, hwaits⟩ := List.mem_filter.1 ht
    obtain ⟨b, hb, htb⟩ := List.mem_flatMap.1 hmem
    have hdropped : ∃ b ∈ l.dropped s, b.confirms t.name = true :=
      ⟨b, hb, Block.confirms_iff.2 ⟨t, htb, rfl⟩⟩
    exact ⟨hdropped, (contains_pending_reorganize_iff hl hdropped).1 hwaits⟩
  · rintro ⟨hdropped, hconfirmed⟩
    have hwaits := (contains_pending_reorganize_iff hl hdropped).2 hconfirmed
    obtain ⟨b, hb, hbn⟩ := hdropped
    obtain ⟨t, ht, rfl⟩ := Block.confirms_iff.1 hbn
    exact ⟨t, List.mem_filter.2 ⟨List.mem_flatMap.2 ⟨b, hb, ht⟩, hwaits⟩, rfl⟩

/-- **What is reported waits as it is**: no other transaction with its name waited before,
and it is the first that is sent back. -/
theorem mem_pending_of_mem_requeued (hl : l.Apart) {t : Transaction}
    (ht : t ∈ (l.reorganize s).2.requeued) : t ∈ (l.reorganize s).1.pending.toList := by
  obtain ⟨hwaits, hfirst⟩ := mem_requeued_reorganize.1 ht
  obtain ⟨b, hb, htb⟩ := List.mem_flatMap.1 (List.mem_of_find?_eq_some hfirst)
  have hbn : b.confirms t.name = true := Block.confirms_iff.2 ⟨t, htb, rfl⟩
  obtain ⟨hcut, hspliced⟩ := contains_foldl_extend.1 hwaits
  refine mem_foldl_extend.2 ⟨mem_requeue_iff.2 (Or.inr ⟨?_, hfirst⟩), hspliced⟩
  -- the name was confirmed, so nothing with it waited
  have hold : l.pending.contains t.name = false := by
    rw [← Bool.not_eq_true]
    intro hold
    have hconf : l.confirms t.name = true := confirms_iff.2 ⟨b, List.mem_of_mem_drop hb, hbn⟩
    rw [hl _ hold] at hconf
    exact absurd hconf (by simp)
  have hkept : (l.cutBack s).confirms t.name = false := apart_cutBack s hl _ hcut
  rw [confirms, cutBack_chain] at hkept
  rw [knows, Bool.or_eq_false_iff]
  exact ⟨hold, hkept⟩

/-- **The names that wait after a reorganization**: those that waited and those that wait
again, without those that the side chain confirms. -/
theorem contains_pending_reorganize (hl : l.Apart) {n : Digest} :
    (l.reorganize s).1.pending.contains n = true ↔
      (l.pending.contains n = true ∨ n ∈ (l.reorganize s).2.requeued.map Transaction.name) ∧
        ∀ b ∈ s.blocks, b.confirms n = false := by
  rw [reorganize_pending, contains_foldl_extend, contains_cutBack, mem_names_requeued_reorganize hl]
  refine and_congr_left fun hspliced => or_congr_right ?_
  -- without the side chain the new chain confirms what stays
  have hsame : (l.reorganize s).1.confirms n = false ↔ (l.cutBack s).confirms n = false := by
    rw [← Bool.not_eq_true, confirms_reorganize, ← Bool.not_eq_true, not_or, and_iff_left]
    rintro ⟨b, hb, hbn⟩
    rw [hspliced b hb] at hbn
    exact absurd hbn (by simp)
  rw [hsame, and_comm]

end Reorganize

/-! ### The accounts -/

/-- A block that brings about a reorganization is pooled, and a side chain overtakes. -/
theorem exists_of_reorganized {b : Block} {mining : Option Block} {dropped : Nat}
    {requeued : List Transaction} (h : (l.addBlock b mining).2 = .reorganized dropped requeued) :
    ∃ s, (l.park b).overtaking? = some s ∧
      (l.addBlock b mining).1 = ((l.park b).reorganize s).1 ∧
      ((l.park b).dropped s).length = dropped ∧
      ((l.park b).reorganize s).2.requeued = requeued := by
  have harrival := l.addBlock_arrival b mining
  rw [h] at harrival
  generalize (l.addBlock b mining).1 = m at harrival ⊢
  cases harrival with
  | reorganized _ _ hover => exact ⟨_, hover, rfl, rfl, rfl⟩

/-- **The accounts of a reorganization.**  The last blocks of the chain are dropped, and
pooled blocks take their place, each on top of the one before.  What is reported as
waiting again has different names: those of the dropped blocks that the new chain does
not confirm.  It waits as it was in a dropped block.  And the names that wait now are those
that waited before and those that are reported, without those that the new blocks confirm. -/
theorem reorganized_addBlock {b : Block} {mining : Option Block} {dropped : Nat}
    {requeued : List Transaction} (hl : Reachable difficulty l)
    (h : (l.addBlock b mining).2 = .reorganized dropped requeued) :
    ∃ kept gone spliced,
      (l.chain = kept ++ gone ∧ gone.length = dropped ∧
        (l.addBlock b mining).1.chain = kept ++ spliced ∧
        LinkedFrom (tipAfter .zero kept) spliced ∧
        ∀ c ∈ spliced, c ∈ (l.park b).pooled.toList) ∧
      (requeued.map Transaction.name).Nodup ∧
      (∀ n, n ∈ requeued.map Transaction.name ↔
        (∃ c ∈ gone, c.confirms n = true) ∧ (l.addBlock b mining).1.confirms n = false) ∧
      (∀ t ∈ requeued, t ∈ (l.addBlock b mining).1.pending.toList ∧
        ∃ c ∈ gone, t ∈ c.transactions) ∧
      ∀ n, (l.addBlock b mining).1.pending.contains n = true ↔
        (l.pending.contains n = true ∨ n ∈ requeued.map Transaction.name) ∧
          ∀ c ∈ spliced, c.confirms n = false := by
  obtain ⟨s, hover, hledger, rfl, rfl⟩ := exists_of_reorganized h
  have hapart : (l.park b).Apart := hl.apart
  have hfits := fits_of_overtaking? hover
  rw [hledger]
  refine ⟨l.chain.take s.kept, (l.park b).dropped s, s.blocks,
    ⟨?_, rfl, reorganize_chain s, hfits.linked, ?_⟩, ?_, ?_, ?_, ?_⟩
  · exact (List.take_append_drop s.kept l.chain).symm
  · intro c hc
    exact (mem_orphans.1 (hfits.orphan c hc)).1
  · exact nodup_names_firstOfEachName _
  · intro n
    exact mem_names_requeued_reorganize hapart
  · intro t ht
    refine ⟨mem_pending_of_mem_requeued hapart ht, ?_⟩
    obtain ⟨-, hfirst⟩ := mem_requeued_reorganize.1 ht
    exact List.mem_flatMap.1 (List.mem_of_find?_eq_some hfirst)
  · intro n
    exact contains_pending_reorganize hapart

/-! ### A transaction that waits again -/

/-- A payment under a name that need not fit it. -/
def payment (name : UInt8) : Transaction := ⟨filled 1, filled 2, 5, filled name⟩

/-- A block of the chain with two payments, one of them twice, and the second block of a branch
of which the first is missing. -/
def disputed : List Op :=
  arrivals [{ sample 0 1 with transactions := [payment 7, payment 8, payment 7] }, sample 2 3]

/-- The first block of the branch. -/
def rival : Block := { sample 0 2 with transactions := [payment 8] }

/-- When the first block of the branch comes, the first payment waits again, and only it. -/
theorem waits_after_rival :
    (((new 0).run disputed).addBlock rival none).2 = .reorganized 1 [payment 7] ∧
      payment 7 ∈ (((new 0).run disputed).addBlock rival none).1.pending.toList ∧
      (((new 0).run disputed).addBlock rival none).1.pending.contains (filled 8) = false := by
  have houtcome : (((new 0).run disputed).addBlock rival none).2 =
      .reorganized 1 [payment 7] := by decide +kernel
  obtain ⟨kept, gone, spliced, -, -, -, hwaits, hnames⟩ := reorganized_addBlock ⟨_, rfl⟩ houtcome
  refine ⟨houtcome, (hwaits _ List.mem_cons_self).1, ?_⟩
  rw [← Bool.not_eq_true, hnames]
  rintro ⟨hold | hnew, -⟩
  · exact absurd hold (by decide +kernel)
  · exact absurd hnew (by decide +kernel)

end Ledger
end GossipLedger
