import GossipLedger.Proofs.Keeper.Handling
import GossipLedger.Proofs.Ledger.Longest
import GossipLedger.Proofs.Ledger.Proposals

/-!
# Where the blocks of a keeper come from

Among keepers that only take blocks which one of them proposed, each knows no other
blocks, has no transactions with wrong names waiting, and proposes what its own chain
does not confirm.

## Main definitions

* `ChainCommand.blocks` — the blocks that a command brings.
* `Keeper.Within` — all that a keeper knows and mines is of the known kind.

## Main results

* `Keeper.Within.told` — **a command with known blocks leaves a keeper within them.**
* `Keeper.Within.passes` — so do all stages of it.
* `Keeper.Within.confirmsOnce` — what the chain of such a keeper confirms.
-/

namespace GossipLedger

/-- The blocks that a command brings: at most one. -/
def ChainCommand.blocks : ChainCommand → List Block
  | .submit _ => []
  | .transaction _ _ _ => []
  | .block b _ _ => [b]
  | .mined _ b _ => [b]

namespace Keeper

open Ledger

variable {k : Keeper} {S : Block → Prop}

/-- All that a keeper knows and mines is of a kind: its blocks are, what waits has the
right names, and what it mines was proposed on blocks of the kind. -/
structure Within (S : Block → Prop) (k : Keeper) : Prop where
  sound : ∃ difficulty, Sound difficulty k.ledger
  apart : k.ledger.Apart
  known : ∀ b, k.ledger.Holds b → S b
  wellFormed : ∀ t ∈ k.ledger.pending.toList, t.WellFormed
  proposed : ∀ a, k.attempt = some a → Proposed S a.candidate

theorem within_new (settings : ChainSettings) (identity : Digest) :
    Within S (new settings identity) where
  sound := ⟨settings.difficulty, sound_new _⟩
  apart := apart_new _
  known b hb := by
    rcases hb with hb | hb
    · exact absurd hb List.not_mem_nil
    · exact absurd hb List.not_mem_nil
  wellFormed t ht := absurd ht List.not_mem_nil
  proposed a ha := absurd ha (by simp [new])

theorem Within.mono {T : Block → Prop} (h : Within S k) (hST : ∀ b, S b → T b) :
    Within T k where
  sound := h.sound
  apart := h.apart
  known b hb := hST b (h.known b hb)
  wellFormed := h.wellFormed
  proposed a ha := (h.proposed a ha).mono hST

/-! ### Stages -/

theorem Within.finish (h : Within S k) (elapsed : Nat) : Within S (k.finish elapsed) where
  sound := h.sound
  apart := h.apart
  known := h.known
  wellFormed := h.wellFormed
  proposed a ha := absurd ha (by simp [Keeper.finish])

theorem Within.learn (h : Within S k) (t : Transaction) : Within S (k.learn t) := by
  unfold Keeper.learn
  split
  next hwf =>
    obtain ⟨difficulty, hsound⟩ := h.sound
    refine ⟨⟨difficulty, hsound.apply (.transaction t)⟩, apart_addTransaction t h.apart, ?_, ?_,
      h.proposed⟩
    · intro b hb
      exact h.known b ((holds_addTransaction t b).1 hb)
    · intro u hu
      rcases mem_of_mem_addTransaction hu with hu | rfl
      · exact h.wellFormed u hu
      · exact hwf
  next => exact h

section Blocks

variable (hproposed : ∀ b, S b → Proposed S b)

include hproposed

/-- A block of the kind leaves a keeper within it: what waits again was in blocks of
the kind. -/
theorem Within.applyBlock (h : Within S k) {b : Block} (hb : S b) :
    Within S (k.applyBlock b).1 := by
  have harrival := k.applyBlock_arrival b
  obtain ⟨difficulty, hsound⟩ := h.sound
  refine ⟨⟨difficulty, harrival.sound hsound⟩, harrival.apart h.apart, ?_, ?_, ?_⟩
  · intro c hc
    rcases harrival.holds hc with hc | rfl
    · exact h.known c hc
    · exact hb
  · intro t ht
    -- what waits now waited before, was on the chain or was being mined
    rcases harrival.mem_pending ht with ht | ⟨c, hc, ht⟩ | ⟨c, hmining, ht⟩
    · exact h.wellFormed t ht
    · exact (hproposed c (h.known c (Or.inl hc))).wellFormed t ht
    · obtain ⟨a, ha, rfl⟩ := Option.map_eq_some_iff.1 hmining
      exact (h.proposed a ha).wellFormed t ht
  · intro a ha
    rcases k.applyBlock_attempt b with hattempt | hattempt
    · rw [hattempt] at ha
      exact absurd ha (by simp)
    · rw [hattempt] at ha
      exact h.proposed a ha

theorem Within.takeIn (h : Within S k) {c : ChainCommand} (hc : ∀ b ∈ c.blocks, S b) :
    Within S (k.takeIn c) := by
  cases c with
  | submit t => exact h.learn t
  | transaction t hopLimit origin => exact h.learn t
  | block b hopLimit origin => exact h.applyBlock hproposed (hc b List.mem_cons_self)
  | mined number b elapsed =>
    rw [Keeper.takeIn]
    split
    next => exact (h.finish elapsed).applyBlock hproposed (hc b List.mem_cons_self)
    next => exact h

theorem Within.extension (h : Within S k) {b : Block} (hb : b ∈ k.ledger.extensions) :
    Within S (k.applyBlock b).1 :=
  h.applyBlock hproposed (h.known b (Or.inr (mem_extensions.1 hb).1))

end Blocks

/-- What a keeper starts to mine was proposed on its own chain. -/
theorem Within.startMining (h : Within S k) (time : Timestamp) : Within S (k.startMining time) := by
  unfold Keeper.startMining
  split
  next => exact h
  next =>
    split
    next => exact h
    next candidate hcandidate =>
      refine ⟨h.sound, h.apart, h.known, h.wellFormed, ?_⟩
      intro a ha
      obtain rfl : (⟨k.issued + 1, candidate⟩ : Attempt) = a := Option.some.inj ha
      obtain ⟨difficulty, hsound⟩ := h.sound
      refine ⟨k.ledger.chain, hsound.linked, fun b hb => h.known b (Or.inl hb), ?_⟩
      exact proposedOn_of_buildCandidate h.apart h.wellFormed (Digest.isZero_iff.2 rfl)
        (Transaction.wellFormed_make _ _ _) hcandidate

/-! ### Commands -/

section Commands

variable (hproposed : ∀ b, S b → Proposed S b)

include hproposed

/-- **A command with blocks of the kind leaves a keeper within it.** -/
theorem Within.told (h : Within S k) {t : Turn} (ht : ∀ b ∈ t.command.blocks, S b) :
    Within S (k.told t).keeper :=
  told_keeps t (h.takeIn hproposed ht) (fun _ _ hk hb => hk.extension hproposed hb)
    fun _ hk => hk.startMining t.time

/-- **All that can be seen of a keeper while it handles a command is within the kind.** -/
theorem Within.passes (h : Within S k) {t : Turn} (ht : ∀ b ∈ t.command.blocks, S b) :
    ∀ l ∈ k.passes t, ∃ k', Within S k' ∧ k'.ledger = l :=
  passes_keeps t (h.takeIn hproposed ht) fun _ _ hk hb => hk.extension hproposed hb

/-- The chain of a keeper within proposed blocks confirms each transaction once. -/
theorem Within.confirmsOnce (hS : Identified S) (hdistinct : Distinct S) (h : Within S k) :
    ConfirmsOnce k.ledger.chain := by
  obtain ⟨difficulty, hsound⟩ := h.sound
  exact confirmsOnce_of_proposed hS hdistinct hproposed hsound.linked
    fun b hb => h.known b (Or.inl hb)

end Commands

end Keeper
end GossipLedger
