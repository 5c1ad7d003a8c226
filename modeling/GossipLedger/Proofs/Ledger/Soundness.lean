import GossipLedger.Proofs.Ledger.Steps

/-!
# The chain stays sound

Whatever blocks come in, also ones that were made up to do harm, the chain is linked,
does not come back to a nonce, and shows the work it should.  A block on top of the
chain keeps this by the checks it passed.  A side chain keeps it because it starts at a
root of the orphans: its nonces are not on the chain, and it never meets its own tip.

## Main definitions

* `Ledger.Sound` — what always holds of the chain and of the pooled blocks.
* `Ledger.Splices` — a side chain can take the place of the end of the chain.

## Main results

* `Ledger.splices_of_overtaking?` — a side chain that overtakes does.
* `Ledger.Arrival.sound` — no block does any harm.
* `Ledger.sound_run_and_splices` — **the chain stays sound, and every reorganization
  cuts where there is a block and puts each block on top of the one before.**
-/

namespace GossipLedger
namespace Ledger

variable {l m : Ledger}

/-- What always holds of a ledger of a given difficulty. -/
structure Sound (difficulty : Nat) (l : Ledger) : Prop where
  /-- The difficulty is the one of the start. -/
  difficulty_eq : l.difficulty = difficulty
  /-- Each block of the chain stands on the one before, the first on none. -/
  linked : l.Linked
  /-- The nonces of the chain are different. -/
  nodup : (l.chain.map Block.nonce).Nodup
  /-- Every block of the chain shows enough work. -/
  chain_meets : ∀ b ∈ l.chain, b.Meets difficulty
  /-- Every pooled block shows enough work. -/
  pooled_meets : ∀ b ∈ l.pooled.toList, b.Meets difficulty

theorem sound_new (difficulty : Nat) : Sound difficulty (new difficulty) where
  difficulty_eq := rfl
  linked := trivial
  nodup := .nil
  chain_meets _ hb := absurd hb List.not_mem_nil
  pooled_meets _ hb := absurd hb List.not_mem_nil

/-- Only the chain and the pooled blocks count. -/
theorem Sound.congr {difficulty : Nat} (h : Sound difficulty l)
    (hdifficulty : m.difficulty = l.difficulty) (hchain : m.chain = l.chain)
    (hpooled : m.pooled = l.pooled) : Sound difficulty m where
  difficulty_eq := hdifficulty.trans h.difficulty_eq
  linked := by
    unfold Linked
    rw [hchain]
    exact h.linked
  nodup := by
    rw [hchain]
    exact h.nodup
  chain_meets := by
    rw [hchain]
    exact h.chain_meets
  pooled_meets := by
    rw [hpooled]
    exact h.pooled_meets

/-! ### Side chains that take the place of the end of the chain -/

/-- A side chain can take the place of the end of the chain: the block that it stands
on is there, and each of its blocks, when its turn comes, stands on top. -/
structure Splices (l : Ledger) (s : SideChain) : Prop where
  /-- The block that the side chain stands on is there. -/
  parent_lt : ∀ i, s.parent = some i → i < l.chain.length
  /-- Each block stands on top of the chain as it is then. -/
  previous_eq : ∀ below b above, s.blocks = below ++ b :: above →
    b.previous = (below.foldl extend (l.cutBack s)).headHash

/-- **A side chain that overtakes can take the place of the end of the chain**,
whatever the ledger is like. -/
theorem splices_of_overtaking? {b : Block} {s : SideChain}
    (h : (l.park b).overtaking? = some s) : (l.park b).Splices s := by
  have hfits := fits_of_overtaking? h
  refine ⟨hfits.parent_lt, fun below c above heq => ?_⟩
  have hlinked := hfits.linked
  rw [heq] at hlinked
  rw [headHash_eq, foldl_extend_chain, cutBack_chain, park_chain, tipAfter_append]
  exact hlinked.previous_eq

/-! ### What becomes of a block -/

theorem Sound.extend {difficulty : Nat} {b : Block} (h : Sound difficulty l)
    (hmeets : b.Meets l.difficulty) (hnew : ∀ c ∈ l.chain, c.nonce ≠ b.nonce)
    (hprev : b.previous = l.headHash) : Sound difficulty (l.extend b) where
  difficulty_eq := h.difficulty_eq
  linked := linkedFrom_concat.2 ⟨h.linked, hprev.trans l.headHash_eq⟩
  nodup := nodup_nonces_concat h.nodup hnew
  chain_meets c hc := by
    rcases List.mem_append.1 hc with hc | hc
    · exact h.chain_meets c hc
    · rw [List.mem_singleton.1 hc, ← h.difficulty_eq]
      exact hmeets
  pooled_meets := h.pooled_meets

theorem Sound.park {difficulty : Nat} {b : Block} (h : Sound difficulty l)
    (hmeets : b.Meets l.difficulty) : Sound difficulty (l.park b) where
  difficulty_eq := h.difficulty_eq
  linked := h.linked
  nodup := h.nodup
  chain_meets := h.chain_meets
  pooled_meets c hc := by
    rcases Catalog.mem_of_mem_add hc with hc | rfl
    · exact h.pooled_meets c hc
    · rw [← h.difficulty_eq]
      exact hmeets

/-- A side chain that fits keeps the chain sound. -/
theorem Sound.reorganize {difficulty : Nat} {s : SideChain} (h : Sound difficulty l)
    (hfits : s.Fits l.chain l.pooled) : Sound difficulty (l.reorganize s).1 where
  difficulty_eq := (reorganize_difficulty s).trans h.difficulty_eq
  linked := by
    unfold Linked
    rw [reorganize_chain]
    exact linkedFrom_append.2 ⟨h.linked.take s.kept, hfits.linked⟩
  nodup := by
    rw [reorganize_chain, nodup_nonces_append]
    refine ⟨h.nodup.sublist ((List.take_sublist _ _).map _), hfits.nodup, ?_⟩
    intro c hc b hb
    -- an orphan has a nonce that is not on the chain
    exact (mem_orphans.1 (hfits.orphan b hb)).2 c (List.mem_of_mem_take hc)
  chain_meets b hb := by
    rw [reorganize_chain] at hb
    rcases List.mem_append.1 hb with hb | hb
    · exact h.chain_meets b (List.mem_of_mem_take hb)
    · exact h.pooled_meets b (mem_orphans.1 (hfits.orphan b hb)).1
  pooled_meets b hb := by
    rw [reorganize_pooled] at hb
    rcases Catalog.mem_of_mem_foldl_add hb with hb | hb
    · exact h.pooled_meets b hb
    · exact h.chain_meets b (List.mem_of_mem_drop hb)

/-- **No block does any harm**, whatever becomes of it. -/
theorem Arrival.sound {difficulty : Nat} {b : Block} {mining : Option Block} {o : BlockOutcome}
    (harrival : Arrival l b mining m o) (h : Sound difficulty l) : Sound difficulty m := by
  cases harrival with
  | invalid => exact h
  | ignored => exact h
  | extended hmeets hnew hprev =>
    have hpreempt : Sound difficulty (l.preempt b mining).1 :=
      h.congr (preempt_difficulty b mining) (preempt_chain b mining) (preempt_pooled b mining)
    refine hpreempt.extend ?_ ?_ ?_
    · rw [preempt_difficulty]
      exact hmeets
    · rw [preempt_chain]
      exact hnew
    · rw [headHash_eq, preempt_chain, ← headHash_eq]
      exact hprev
  | reorganized hmeets _ hover => exact (h.park hmeets).reorganize (fits_of_overtaking? hover)
  | stored hmeets => exact h.park hmeets

theorem Sound.apply {difficulty : Nat} (h : Sound difficulty l) (op : Op) :
    Sound difficulty (l.apply op) := by
  cases op with
  | transaction t =>
    exact h.congr (addTransaction_difficulty t) (addTransaction_chain t) (addTransaction_pooled t)
  | block b mining => exact (l.addBlock_arrival b mining).sound h
  | rebuild => exact h.congr rfl rfl rfl

theorem Sound.run {difficulty : Nat} (h : Sound difficulty l) (ops : List Op) :
    Sound difficulty (l.run ops) :=
  run_keeps (fun _ op h => h.apply op) ops h

theorem Reachable.sound {difficulty : Nat} (h : Reachable difficulty l) : Sound difficulty l := by
  obtain ⟨ops, rfl⟩ := h
  exact (sound_new difficulty).run ops

/-- **The chain stays sound**: after any sequence of operations with any blocks it is
linked, its nonces are different, and its blocks and the pooled ones show enough work.
Every reorganization that then comes about cuts where there is a block and puts each
block on top of the one before. -/
theorem sound_run_and_splices (difficulty : Nat) (ops : List Op) :
    Sound difficulty ((new difficulty).run ops) ∧
      ∀ b s, (((new difficulty).run ops).park b).overtaking? = some s →
        (((new difficulty).run ops).park b).Splices s := by
  constructor
  · exact (sound_new difficulty).run ops
  · intro b s h
    exact splices_of_overtaking? h

end Ledger
end GossipLedger
