import GossipLedger.Proofs.Ledger.Longest
import Mathlib.Data.List.Infix

/-!
# Accepted blocks are kept

A block that was accepted is known from then on, with the contents that it came with,
so that a branch which lost can still win back.  There is one exception.  Blocks are
pooled under their nonces, and nothing ties a nonce to the rest of a block.  A block on
top of the chain is taken although another one with its nonce is pooled; when a side
chain then takes its place on the chain, its place in the pool is taken as well, and it
is gone.  The nonce itself is never forgotten.

## Main definitions

* `Ledger.Shadowed` — another block with the same nonce is pooled.
* `Ledger.CutsOff`, `Ledger.Loses` — an operation takes a block off the chain, and does
  so while the block is shadowed.
* `Ledger.accepted` — the blocks that are accepted in the course of some operations.

## Main results

* `Ledger.Arrival.not_holds_iff` — which blocks the arrival of a block makes unknown.
* `Ledger.held_iff_never_lost` — **an accepted block is known in every later state
  exactly if no operation cuts it off while it is shadowed.**
* `Ledger.not_holds_after_cut` — this can happen.
-/

namespace GossipLedger
namespace Ledger

variable {l m : Ledger} {difficulty : Nat}

/-- Another block with the nonce of this one is pooled. -/
def Shadowed (l : Ledger) (b : Block) : Prop :=
  ∃ c ∈ l.pooled.toList, c.nonce = b.nonce ∧ c ≠ b

/-- An operation takes a block off the chain. -/
def CutsOff (l : Ledger) (op : Op) (b : Block) : Prop := b ∈ l.chain ∧ b ∉ (l.apply op).chain

/-- An operation takes a block off the chain whose place in the pool is taken. -/
def Loses (l : Ledger) (op : Op) (b : Block) : Prop := l.CutsOff op b ∧ l.Shadowed b

/-- The block that an operation brings, if it is accepted. -/
def accepts (l : Ledger) : Op → List Block
  | .transaction _ => []
  | .block b mining => if (l.addBlock b mining).2.isAccepted then [b] else []
  | .rebuild => []

/-- The blocks that are accepted in the course of some operations. -/
def accepted (l : Ledger) : List Op → List Block
  | [] => []
  | op :: ops => l.accepts op ++ (l.apply op).accepted ops

/-! ### Blocks that are dropped -/

/-- **A dropped block is pooled afterwards exactly if it is not shadowed.** -/
theorem mem_pooled_reorganize_iff {s : SideChain} (hl : (l.chain.map Block.nonce).Nodup)
    {b : Block} (hb : b ∈ l.dropped s) :
    b ∈ (l.reorganize s).1.pooled.toList ↔ ¬l.Shadowed b := by
  have hdropped : ((l.dropped s).map Block.nonce).Nodup :=
    hl.sublist ((List.drop_sublist _ _).map _)
  rw [reorganize_pooled, Catalog.mem_foldl_add_iff hdropped]
  constructor
  · rintro (hpooled | ⟨-, hfree⟩) ⟨c, hc, hnonce, hne⟩
    · exact hne (Catalog.eq_of_key_eq hc hpooled hnonce)
    · exact Catalog.contains_eq_false_iff.1 hfree c hc hnonce
  · intro hshadow
    cases hfree : l.pooled.contains b.nonce with
    | false => exact Or.inr ⟨hb, rfl⟩
    | true =>
      -- the nonce is pooled, so the block under it is this one
      obtain ⟨c, hc, hnonce⟩ := Catalog.contains_iff.1 hfree
      by_cases hcb : c = b
      · exact Or.inl (hcb ▸ hc)
      · exact absurd ⟨c, hc, hnonce, hcb⟩ hshadow

/-! ### The arrival of a block -/

/-- What is pooled stays pooled. -/
theorem Arrival.mem_pooled {b c : Block} {mining : Option Block} {o : BlockOutcome}
    (harrival : Arrival l b mining m o) (hc : c ∈ l.pooled.toList) : c ∈ m.pooled.toList := by
  cases harrival with
  | invalid => exact hc
  | ignored => exact hc
  | extended =>
    rw [extend_pooled, preempt_pooled]
    exact hc
  | reorganized =>
    rw [reorganize_pooled]
    exact Catalog.mem_foldl_add_of_mem (Catalog.mem_add_of_mem hc)
  | stored => exact Catalog.mem_add_of_mem hc

/-- A block of the chain that is taken off it was dropped by a reorganization. -/
theorem mem_dropped_of_not_mem_reorganize {s : SideChain} {b : Block} (hb : b ∈ l.chain)
    (hcut : b ∉ (l.reorganize s).1.chain) : b ∈ l.dropped s := by
  rw [reorganize_chain, List.mem_append, not_or] at hcut
  rw [← List.take_append_drop s.kept l.chain] at hb
  exact (List.mem_append.1 hb).resolve_left hcut.1

/-- Where the nonce of the parked block is not on the chain, parking it shadows no block
of the chain. -/
theorem shadowed_park_iff {b c : Block} (hnew : ∀ d ∈ l.chain, d.nonce ≠ b.nonce)
    (hc : c ∈ l.chain) : (l.park b).Shadowed c ↔ l.Shadowed c := by
  unfold Shadowed
  rw [park_pooled]
  constructor
  · rintro ⟨d, hd, hnonce, hne⟩
    rcases Catalog.mem_of_mem_add hd with hd | rfl
    · exact ⟨d, hd, hnonce, hne⟩
    · exact absurd hnonce.symm (hnew c hc)
  · rintro ⟨d, hd, hnonce, hne⟩
    exact ⟨d, Catalog.mem_add_of_mem hd, hnonce, hne⟩

/-- **A block that is taken off the chain is pooled from then on exactly if it was not
shadowed.** -/
theorem Arrival.mem_pooled_iff {b c : Block} {mining : Option Block} {o : BlockOutcome}
    (harrival : Arrival l b mining m o) (hl : Sound difficulty l) (hc : c ∈ l.chain)
    (hcut : c ∉ m.chain) : c ∈ m.pooled.toList ↔ ¬l.Shadowed c := by
  cases harrival with
  | invalid => exact absurd hc hcut
  | ignored => exact absurd hc hcut
  | extended =>
    rw [extend_chain, preempt_chain, List.mem_append, not_or] at hcut
    exact absurd hc hcut.1
  | reorganized _ hkind _ =>
    obtain ⟨hnew, -, -⟩ := kindOf_eq_unknownParent.1 hkind
    have hdropped := mem_dropped_of_not_mem_reorganize (l := l.park b) hc hcut
    rw [mem_pooled_reorganize_iff (l := l.park b) hl.nodup hdropped, shadowed_park_iff hnew hc]
  | stored => exact absurd hc hcut

/-- **What the arrival of a block makes unknown**: the shadowed blocks that are taken off
the chain. -/
theorem Arrival.not_holds_iff {b c : Block} {mining : Option Block} {o : BlockOutcome}
    (harrival : Arrival l b mining m o) (hl : Sound difficulty l) (hc : l.Holds c) :
    ¬m.Holds c ↔ (c ∈ l.chain ∧ c ∉ m.chain) ∧ l.Shadowed c := by
  constructor
  · intro hlost
    obtain ⟨hcut, hgone⟩ := not_or.1 hlost
    have hchain : c ∈ l.chain := hc.resolve_right fun h => hgone (harrival.mem_pooled h)
    refine ⟨⟨hchain, hcut⟩, ?_⟩
    rw [harrival.mem_pooled_iff hl hchain hcut] at hgone
    exact not_not.1 hgone
  · rintro ⟨⟨hchain, hcut⟩, hshadow⟩ (h | h)
    · exact hcut h
    · exact (harrival.mem_pooled_iff hl hchain hcut).1 h hshadow

/-- A block that is accepted is known. -/
theorem Arrival.holds_of_isAccepted {b : Block} {mining : Option Block} {o : BlockOutcome}
    (harrival : Arrival l b mining m o) (ho : o.isAccepted = true) : m.Holds b := by
  cases harrival with
  | invalid => exact absurd ho (by simp [BlockOutcome.isAccepted])
  | ignored => exact absurd ho (by simp [BlockOutcome.isAccepted])
  | extended => exact Or.inl (by simp)
  | reorganized _ hkind _ =>
    obtain ⟨-, -, hfree⟩ := kindOf_eq_unknownParent.1 hkind
    refine Or.inr ?_
    rw [reorganize_pooled]
    exact Catalog.mem_foldl_add_of_mem (Catalog.mem_add.2 (Or.inr ⟨rfl, hfree⟩))
  | stored _ hkind _ =>
    obtain ⟨-, -, hfree⟩ := kindOf_eq_unknownParent.1 hkind
    exact Or.inr (Catalog.mem_add.2 (Or.inr ⟨rfl, hfree⟩))

/-- Only a block that is accepted comes to be known. -/
theorem Arrival.holds_or_accepted {b c : Block} {mining : Option Block} {o : BlockOutcome}
    (harrival : Arrival l b mining m o) (hc : m.Holds c) :
    l.Holds c ∨ (o.isAccepted = true ∧ c = b) := by
  cases hacc : o.isAccepted with
  | true => exact (harrival.holds hc).imp_right fun h => ⟨rfl, h⟩
  | false =>
    cases harrival with
    | invalid => exact Or.inl hc
    | ignored => exact Or.inl hc
    | extended => exact absurd hacc (by simp [BlockOutcome.isAccepted])
    | reorganized =>
      obtain ⟨requeued, ho⟩ := (l.park b).reorganize_outcome (s := _)
      rw [ho] at hacc
      exact absurd hacc (by simp [BlockOutcome.isAccepted])
    | stored => exact absurd hacc (by simp [BlockOutcome.isAccepted])

/-! ### Every operation -/

/-- A block of the chain that an operation cuts off is pooled from then on exactly if it
was not shadowed. -/
theorem mem_pooled_apply_iff (hl : Sound difficulty l) {op : Op} {c : Block}
    (h : l.CutsOff op c) : c ∈ (l.apply op).pooled.toList ↔ ¬l.Shadowed c := by
  obtain ⟨hchain, hcut⟩ := h
  cases op with
  | transaction t =>
    rw [apply, addTransaction_chain] at hcut
    exact absurd hchain hcut
  | block b mining => exact (l.addBlock_arrival b mining).mem_pooled_iff hl hchain hcut
  | rebuild => exact absurd hchain hcut

/-- **A known block stays known unless the operation loses it.** -/
theorem holds_apply_iff (hl : Sound difficulty l) (op : Op) {c : Block} (hc : l.Holds c) :
    (l.apply op).Holds c ↔ ¬l.Loses op c := by
  cases op with
  | transaction t =>
    have hkept : ¬l.CutsOff (.transaction t) c := by
      rintro ⟨hchain, hcut⟩
      rw [apply, addTransaction_chain] at hcut
      exact hcut hchain
    exact iff_of_true ((holds_addTransaction t c).2 hc) fun h => hkept h.1
  | block b mining =>
    rw [iff_not_comm]
    exact ((l.addBlock_arrival b mining).not_holds_iff hl hc).symm
  | rebuild => exact iff_of_true hc fun h => h.1.2 h.1.1

/-- A nonce that is known stays known. -/
theorem exists_holds_apply (hl : Sound difficulty l) (op : Op) {c : Block} (hc : l.Holds c) :
    ∃ d, (l.apply op).Holds d ∧ d.nonce = c.nonce := by
  by_cases hlost : l.Loses op c
  · -- the block that shadows it keeps the nonce
    obtain ⟨d, hd, hnonce, hne⟩ := hlost.2
    refine ⟨d, ?_, hnonce⟩
    cases op with
    | transaction t => exact (holds_addTransaction t d).2 (Or.inr hd)
    | block b mining => exact Or.inr ((l.addBlock_arrival b mining).mem_pooled hd)
    | rebuild => exact Or.inr hd
  · exact ⟨c, (holds_apply_iff hl op hc).2 hlost, rfl⟩

/-- Only blocks that are accepted come to be known. -/
theorem holds_or_mem_accepts (l : Ledger) (op : Op) {c : Block} (hc : (l.apply op).Holds c) :
    l.Holds c ∨ c ∈ l.accepts op := by
  cases op with
  | transaction t => exact Or.inl ((holds_addTransaction t c).1 hc)
  | block b mining =>
    rcases (l.addBlock_arrival b mining).holds_or_accepted hc with hc | ⟨hacc, rfl⟩
    · exact Or.inl hc
    · exact Or.inr (by rw [accepts, if_pos hacc]; exact List.mem_singleton_self c)
  | rebuild => exact Or.inl hc

/-! ### Sequences of operations -/

theorem run_cons (l : Ledger) (op : Op) (ops : List Op) :
    l.run (op :: ops) = (l.apply op).run ops := rfl

/-- **A known block is known in every later state exactly if no operation loses it.** -/
theorem holds_run_iff (hl : Sound difficulty l) {c : Block} (hc : l.Holds c) (ops : List Op) :
    (∀ first, first <+: ops → (l.run first).Holds c) ↔
      ∀ first op, first ++ [op] <+: ops → ¬(l.run first).Loses op c := by
  induction ops generalizing l with
  | nil =>
    constructor
    · intro _ first op h
      exact absurd (List.prefix_nil.1 h) (by simp)
    · intro _ first h
      rw [List.prefix_nil.1 h]
      exact hc
  | cons op ops ih =>
    constructor
    · intro hall first op' hfirst
      have hnext : (l.apply op).Holds c := hall [op] (by simp)
      cases first with
      | nil =>
        obtain rfl : op' = op := (List.cons_prefix_cons.1 hfirst).1
        exact (holds_apply_iff hl op' hc).1 hnext
      | cons op'' first =>
        obtain ⟨rfl, hrest⟩ := List.cons_prefix_cons.1 hfirst
        refine (ih (hl.apply op'') hnext).1 (fun as has => ?_) first op' hrest
        exact hall (op'' :: as) (List.cons_prefix_cons.2 ⟨rfl, has⟩)
    · intro hnever first hfirst
      cases first with
      | nil => exact hc
      | cons op' first =>
        obtain ⟨rfl, hrest⟩ := List.cons_prefix_cons.1 hfirst
        have hnext : (l.apply op').Holds c :=
          (holds_apply_iff hl op' hc).2 (hnever [] op' (by simp))
        refine (ih (hl.apply op') hnext).2 (fun as op'' has => ?_) first hrest
        exact hnever (op' :: as) op'' (List.cons_prefix_cons.2 ⟨rfl, has⟩)

theorem exists_holds_run (hl : Sound difficulty l) {c : Block} (hc : l.Holds c) (ops : List Op) :
    ∃ d, (l.run ops).Holds d ∧ d.nonce = c.nonce := by
  induction ops generalizing l c with
  | nil => exact ⟨c, hc, rfl⟩
  | cons op ops ih =>
    obtain ⟨d, hd, hnonce⟩ := exists_holds_apply hl op hc
    obtain ⟨e, he, hnonce'⟩ := ih (hl.apply op) hd
    exact ⟨e, he, hnonce'.trans hnonce⟩

theorem holds_or_mem_accepted (l : Ledger) (ops : List Op) {c : Block}
    (hc : (l.run ops).Holds c) : l.Holds c ∨ c ∈ l.accepted ops := by
  induction ops generalizing l with
  | nil => exact Or.inl hc
  | cons op ops ih =>
    rw [accepted, List.mem_append]
    rcases ih (l.apply op) hc with hc | hc
    · exact (l.holds_or_mem_accepts op hc).imp_right Or.inl
    · exact Or.inr (Or.inr hc)

theorem accepted_append (l : Ledger) (as bs : List Op) :
    l.accepted (as ++ bs) = l.accepted as ++ (l.run as).accepted bs := by
  induction as generalizing l with
  | nil => rfl
  | cons op as ih => rw [List.cons_append, accepted, accepted, ih, run_cons, List.append_assoc]

/-- All that is known after operations from the start was accepted. -/
theorem mem_accepted_of_holds {ops : List Op} {c : Block}
    (hc : ((new difficulty).run ops).Holds c) : c ∈ (new difficulty).accepted ops := by
  refine ((new difficulty).holds_or_mem_accepted ops hc).resolve_left ?_
  rintro (h | h)
  · exact absurd h List.not_mem_nil
  · exact absurd h List.not_mem_nil

/-- **An accepted block is known in every later state, with the contents that it came
with, exactly if no operation cuts it off while it is shadowed.**  So it is if no other
accepted block has its nonce.  In any case its nonce stays known; and a block that is cut
off is pooled as it was, exactly if it is not shadowed. -/
theorem held_iff_never_lost (difficulty : Nat) (earlier later : List Op) (b : Block)
    (mining : Option Block)
    (haccepted : (((new difficulty).run earlier).addBlock b mining).2.isAccepted = true) :
    ((∀ ops, ops <+: later →
        ((new difficulty).run (earlier ++ .block b mining :: ops)).Holds b) ↔
      ∀ ops op, ops ++ [op] <+: later →
        ¬((new difficulty).run (earlier ++ .block b mining :: ops)).Loses op b) ∧
    ((∀ c ∈ (new difficulty).accepted (earlier ++ .block b mining :: later),
        c.nonce = b.nonce → c = b) →
      ∀ ops, ops <+: later →
        ((new difficulty).run (earlier ++ .block b mining :: ops)).Holds b) ∧
    (∃ c, ((new difficulty).run (earlier ++ .block b mining :: later)).Holds c ∧
      c.nonce = b.nonce) ∧
    ∀ op c, ((new difficulty).run (earlier ++ .block b mining :: later)).CutsOff op c →
      (c ∈ (((new difficulty).run (earlier ++ .block b mining :: later)).apply op).pooled.toList ↔
        ¬((new difficulty).run (earlier ++ .block b mining :: later)).Shadowed c) := by
  have hsound : Sound difficulty ((new difficulty).run earlier) := (sound_new difficulty).run earlier
  have hnext := hsound.apply (.block b mining)
  have hb : (((new difficulty).run earlier).apply (.block b mining)).Holds b :=
    (addBlock_arrival _ b mining).holds_of_isAccepted haccepted
  have hrun : ∀ ops, (new difficulty).run (earlier ++ .block b mining :: ops) =
      (((new difficulty).run earlier).apply (.block b mining)).run ops := fun ops =>
    run_append _ _ _
  simp only [hrun]
  have hiff := holds_run_iff hnext hb later
  refine ⟨hiff, fun hsame => hiff.2 ?_, exists_holds_run hnext hb later, fun op c hcut => ?_⟩
  · -- what shadows the block was accepted before and has its nonce
    rintro ops op hops ⟨-, c, hc, hnonce, hne⟩
    have hmem : c ∈ (new difficulty).accepted (earlier ++ .block b mining :: ops) := by
      refine mem_accepted_of_holds (Or.inr ?_)
      rw [hrun]
      exact hc
    obtain ⟨rest, hrest⟩ := (List.prefix_append ops [op]).trans hops
    refine hne (hsame c ?_ hnonce)
    rw [← hrest, ← List.cons_append, ← List.append_assoc, accepted_append]
    exact List.mem_append_left _ hmem
  · exact mem_pooled_apply_iff (hnext.run later) hcut

/-! ### A branch that wins back and a block that is lost -/

/-- The digest of one byte over and over. -/
def filled (n : UInt8) : Digest := ⟨List.replicate 32 n, List.length_replicate⟩

/-- A block without transactions. -/
def sample (previous nonce : UInt8) : Block := ⟨filled previous, filled nonce, default, []⟩

/-- Blocks come in, one after the other. -/
def arrivals (bs : List Block) : List Op := bs.map fun b => .block b none

/-- A block that is cut off by a longer branch is pooled, and is on the chain again when
its own branch has become the longer one. -/
theorem holds_after_win_back :
    ((new 0).addBlock (sample 0 1) none).2.isAccepted = true ∧
      ((new 0).run (arrivals [sample 0 1, sample 1 2, sample 0 3, sample 3 4])).CutsOff
        (.block (sample 4 5) none) (sample 0 1) ∧
      ((new 0).run (arrivals [sample 0 1, sample 1 2, sample 0 3, sample 3 4, sample 4 5])).Holds
        (sample 0 1) ∧
      ((new 0).run (arrivals [sample 0 1, sample 1 2, sample 0 3, sample 3 4, sample 4 5,
        sample 2 6, sample 6 7])).chain = [sample 0 1, sample 1 2, sample 2 6, sample 6 7] := by
  have haccepted : ((new 0).addBlock (sample 0 1) none).2.isAccepted = true := by decide +kernel
  refine ⟨haccepted, by unfold CutsOff; decide +kernel, ?_, by decide +kernel⟩
  refine (held_iff_never_lost 0 [] (arrivals [sample 1 2, sample 0 3, sample 3 4, sample 4 5])
    (sample 0 1) none haccepted).2.1 ?_ _ List.prefix_rfl
  decide +kernel

/-- The second of two blocks with one nonce is taken on top of the chain while the first
is pooled.  A longer branch cuts it off. -/
def sameNonceCut : List Block := [sample 9 1, sample 0 1, sample 0 3, sample 3 4]

/-- **An accepted block can become unknown**: here the second one extends the chain, is
cut off by the fourth, and is neither on the chain nor pooled afterwards. -/
theorem not_holds_after_cut :
    (((new 0).run (arrivals [sample 9 1])).addBlock (sample 0 1) none).2 = .extended false ∧
      ((new 0).run (arrivals [sample 9 1, sample 0 1, sample 0 3])).CutsOff
        (.block (sample 3 4) none) (sample 0 1) ∧
      ¬((new 0).run (arrivals sameNonceCut)).Holds (sample 0 1) := by
  refine ⟨by decide +kernel, by unfold CutsOff; decide +kernel, by decide +kernel⟩

end Ledger
end GossipLedger
