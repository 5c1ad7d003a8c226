import GossipLedger.Proofs.Ledger.Overtaking

/-!
# What an outcome says

Whoever brings a block to a ledger goes by the outcome: an accepted block is passed on, and
the attempt to mine ends when the head has moved.  So an outcome is a statement about the
ledger, and it has to be true.  A block that is refused or known leaves no trace.  A stored
one is pooled, and an extension goes on top of the chain; either leaves the rest of the
blocks alone.  A reorganization puts more blocks in the place of fewer.

The last needs an argument.  A side chain overtakes if it has more blocks than the chain has
above the place where the side chain stands, and that number is a difference of natural
numbers, which is zero as well for a place above the chain.  There is no such side chain:
each stands on a block of the chain or on none.

## Main definitions

* `BlockOutcome.Tells` — what an outcome says of the ledger before and after a block.

## Main results

* `Ledger.Arrival.tells` — whatever becomes of a block, its outcome tells.
* `BlockOutcome.Tells.length_lt_iff` — the chain grows exactly if the head has moved.
* `BlockOutcome.Tells.chain_eq_of_length_eq` — a branch of the same height does not take the
  place of the chain.
* `Ledger.length_le_run` — the chain never becomes shorter.
* `Ledger.tells_addBlock` — **every outcome is true of the ledger.**
-/

namespace GossipLedger

/-- What an outcome says of the ledger before and after a block came. -/
def BlockOutcome.Tells (b : Block) (l m : Ledger) : BlockOutcome → Prop
  | .invalid => m = l
  | .ignored => m = l
  | .extended _ => m.chain = l.chain ++ [b] ∧ m.pooled = l.pooled ∧ m.sideChains = l.sideChains
  | .stored => m.chain = l.chain ∧ m.pending = l.pending ∧
      l.pooled.contains b.nonce = false ∧ ∀ c, c ∈ m.pooled.toList ↔ c ∈ l.pooled.toList ∨ c = b
  | .reorganized dropped _ => ∃ kept gone spliced, l.chain = kept ++ gone ∧
      gone.length = dropped ∧ m.chain = kept ++ spliced ∧ gone.length < spliced.length

namespace Ledger

variable {l m : Ledger} {b : Block} {mining : Option Block} {o : BlockOutcome}

/-! ### Every outcome tells -/

@[simp] theorem preempt_sideChains (b : Block) (mining : Option Block) :
    (l.preempt b mining).1.sideChains = l.sideChains := by
  rcases l.preempt_eq b mining with h | ⟨m, -, h⟩
  · rw [h]
  · rw [h, requeue_eq]

/-- A side chain that takes the place of the end of the chain has more blocks. -/
theorem length_dropped_lt {s : SideChain} (h : s.Overtakes l.chain.length) :
    (l.dropped s).length < s.blocks.length := by
  rw [dropped, List.length_drop]
  exact h

/-- **Whatever becomes of a block, its outcome tells.** -/
theorem Arrival.tells (harrival : Arrival l b mining m o) : o.Tells b l m := by
  cases harrival with
  | invalid => rfl
  | ignored => rfl
  | extended =>
    refine ⟨?_, ?_, ?_⟩
    · rw [extend_chain, preempt_chain]
    · rw [extend_pooled, preempt_pooled]
    · exact preempt_sideChains b mining
  | @reorganized s _ _ hover =>
    have hlonger := (mem_of_overtaking? hover).2
    exact ⟨l.chain.take s.kept, (l.park b).dropped s, s.blocks,
      (List.take_append_drop s.kept l.chain).symm, rfl, reorganize_chain s,
      length_dropped_lt hlonger⟩
  | stored _ hkind =>
    have hfree := (kindOf_eq_unknownParent.1 hkind).2.2
    refine ⟨rfl, rfl, hfree, ?_⟩
    intro c
    rw [park_pooled, Catalog.mem_add]
    simp [hfree]

/-- The difficulty is the same for ever. -/
theorem Arrival.difficulty_eq (harrival : Arrival l b mining m o) :
    m.difficulty = l.difficulty := by
  cases harrival with
  | invalid => rfl
  | ignored => rfl
  | extended => exact preempt_difficulty b mining
  | reorganized => exact reorganize_difficulty _
  | stored => rfl

/-! ### What is refused -/

/-- A block is refused exactly if it does not show enough work. -/
theorem Arrival.eq_invalid_iff (harrival : Arrival l b mining m o) :
    o = .invalid ↔ ¬b.Meets l.difficulty := by
  cases harrival with
  | invalid hmeets => exact iff_of_true rfl hmeets
  | ignored hmeets => exact iff_of_false nofun (not_not.2 hmeets)
  | extended hmeets => exact iff_of_false nofun (not_not.2 hmeets)
  | reorganized hmeets => exact iff_of_false nofun (not_not.2 hmeets)
  | stored hmeets => exact iff_of_false nofun (not_not.2 hmeets)

/-- A block is accepted exactly if it shows enough work and is not known. -/
theorem Arrival.isAccepted_iff (harrival : Arrival l b mining m o) :
    o.isAccepted = true ↔ b.Meets l.difficulty ∧ l.kindOf b ≠ .old := by
  cases harrival with
  | invalid hmeets => exact iff_of_false nofun fun h => hmeets h.1
  | ignored _ hkind => exact iff_of_false nofun fun h => h.2 hkind
  | extended hmeets hnew hprev =>
    have hkind : l.kindOf b = .current := kindOf_eq_current.2 ⟨hnew, hprev⟩
    exact iff_of_true rfl ⟨hmeets, by simp [hkind]⟩
  | reorganized hmeets hkind => exact iff_of_true rfl ⟨hmeets, by simp [hkind]⟩
  | stored hmeets hkind => exact iff_of_true rfl ⟨hmeets, by simp [hkind]⟩

end Ledger

/-! ### Traces and heights -/

namespace BlockOutcome

variable {b : Block} {l m : Ledger} {o : BlockOutcome}

/-- A block that is not accepted leaves no trace. -/
theorem Tells.eq_of_not_isAccepted (h : o.Tells b l m) (hrefused : o.isAccepted = false) :
    m = l := by
  cases o with
  | invalid => exact h
  | ignored => exact h
  | extended preempted => simp [isAccepted] at hrefused
  | stored => simp [isAccepted] at hrefused
  | reorganized dropped requeued => simp [isAccepted] at hrefused

/-- Where the head has not moved the chain is the same. -/
theorem Tells.chain_eq (h : o.Tells b l m) (hstays : o.movedHead = false) :
    m.chain = l.chain := by
  cases o with
  | invalid => exact congrArg Ledger.chain h
  | ignored => exact congrArg Ledger.chain h
  | extended preempted => simp [movedHead] at hstays
  | stored => exact h.1
  | reorganized dropped requeued => simp [movedHead] at hstays

/-- Where the head has moved the chain has become longer. -/
theorem Tells.length_lt (h : o.Tells b l m) (hmoved : o.movedHead = true) :
    l.chain.length < m.chain.length := by
  cases o with
  | invalid => simp [movedHead] at hmoved
  | ignored => simp [movedHead] at hmoved
  | extended preempted =>
    obtain ⟨hchain, -, -⟩ := h
    simp [hchain]
  | stored => simp [movedHead] at hmoved
  | reorganized dropped requeued =>
    obtain ⟨kept, gone, spliced, hold, -, hnew, hlt⟩ := h
    rw [hold, hnew, List.length_append, List.length_append]
    omega

/-- An accepted block leaves a trace: the chain has become longer, or the block is pooled. -/
theorem Tells.ne_of_isAccepted (h : o.Tells b l m) (haccepted : o.isAccepted = true) : m ≠ l := by
  rintro rfl
  cases hmoved : o.movedHead with
  | true => exact lt_irrefl _ (h.length_lt hmoved)
  | false =>
    cases o with
    | invalid => simp [isAccepted] at haccepted
    | ignored => simp [isAccepted] at haccepted
    | extended preempted => simp [movedHead] at hmoved
    | stored =>
      obtain ⟨-, -, hfree, hpooled⟩ := h
      rw [Catalog.contains_of_mem ((hpooled b).2 (Or.inr rfl))] at hfree
      exact absurd hfree (by simp)
    | reorganized dropped requeued => simp [movedHead] at hmoved

/-- **The chain grows exactly if the head has moved.** -/
theorem Tells.length_lt_iff (h : o.Tells b l m) :
    l.chain.length < m.chain.length ↔ o.movedHead = true := by
  constructor
  · intro hlt
    by_contra hstays
    rw [h.chain_eq (by simpa using hstays)] at hlt
    exact lt_irrefl _ hlt
  · exact h.length_lt

theorem Tells.length_le (h : o.Tells b l m) : l.chain.length ≤ m.chain.length := by
  cases hmoved : o.movedHead with
  | true => exact (h.length_lt hmoved).le
  | false => rw [h.chain_eq hmoved]

/-- **A branch of the same height does not take the place of the chain.** -/
theorem Tells.chain_eq_of_length_eq (h : o.Tells b l m)
    (hheight : m.chain.length = l.chain.length) : m.chain = l.chain := by
  refine h.chain_eq ?_
  rw [← Bool.not_eq_true, ← h.length_lt_iff]
  omega

end BlockOutcome

namespace Ledger

variable {l : Ledger}

/-- **The chain never becomes shorter**, whatever is done to the ledger. -/
theorem length_le_run (l : Ledger) (ops : List Op) :
    l.chain.length ≤ (l.run ops).chain.length := by
  refine run_keeps (P := fun m => l.chain.length ≤ m.chain.length) ?_ ops le_rfl
  intro m op hle
  refine hle.trans ?_
  cases op with
  | transaction t => exact (congrArg List.length (addTransaction_chain t)).ge
  | block b mining => exact (m.addBlock_arrival b mining).tells.length_le
  | rebuild => exact le_rfl

/-- **Every outcome is true of the ledger**, whatever the ledger is like, and whichever
block comes while whichever other may be being mined.  A block is refused exactly if it does
not show enough work, and accepted exactly if it does and is not known.  The chain does not
become shorter, it grows exactly if the head has moved, and a branch of the same height does
not take its place. -/
theorem tells_addBlock (l : Ledger) (b : Block) (mining : Option Block) :
    (l.addBlock b mining).2.Tells b l (l.addBlock b mining).1 ∧
      ((l.addBlock b mining).2 = .invalid ↔ ¬b.Meets l.difficulty) ∧
      ((l.addBlock b mining).2.isAccepted = true ↔ b.Meets l.difficulty ∧ l.kindOf b ≠ .old) ∧
      (l.addBlock b mining).1.difficulty = l.difficulty ∧
      l.chain.length ≤ (l.addBlock b mining).1.chain.length ∧
      (l.chain.length < (l.addBlock b mining).1.chain.length ↔
        (l.addBlock b mining).2.movedHead = true) ∧
      ((l.addBlock b mining).1.chain.length = l.chain.length →
        (l.addBlock b mining).1.chain = l.chain) := by
  have harrival := l.addBlock_arrival b mining
  have htells := harrival.tells
  exact ⟨htells, harrival.eq_invalid_iff, harrival.isAccepted_iff, harrival.difficulty_eq,
    htells.length_le, htells.length_lt_iff, htells.chain_eq_of_length_eq⟩

end Ledger
end GossipLedger
