import GossipLedger.Proofs.Keeper.Reach
import GossipLedger.Proofs.Ledger.Outcomes

/-!
# Commands that are rejected

A peer may send anything at any time, and the result of an attempt may come when the attempt
has been ended by a block from outside, or twice.  Whether a command counts is found out in
several places, some of which have begun to work on it by then.  Nothing of that remains: a
command that is rejected leaves the keeper as it was, and nothing is published.

The result of an attempt is taken once.  The keeper awaits the result of one attempt, which is
the last one it started, and the number of a later one is higher.  So a number that is not
awaited any more is never awaited again.

## Main definitions

* `Keeper.Rejects` — why a command is rejected.
* `Keeper.Spent` — the result of an attempt does not count any more.
* `Keeper.applied` — the numbers of the attempts whose results are taken.

## Main results

* `Keeper.told_of_rejects` — a rejected command does nothing.
* `Keeper.AtRest.keeper_told_ne` — any other command changes the keeper.
* `Keeper.Spent.told`, `Keeper.spent_told_mined` — the result of an attempt does not count
  once it was taken, and never again.
* `Keeper.rejected_and_applied_once` — **commands that are rejected do nothing, and the result
  of each attempt is taken once.**
-/

namespace GossipLedger
namespace Keeper

open Ledger

variable {k : Keeper} {difficulty : Nat}

/-- Why a command is rejected: the name of a transaction is wrong or known; a block does not
show enough work, or its nonce is that of a block on the chain, or that of a pooled block and it
does not stand on top of the chain; a result is not that of the attempt being made. -/
def Rejects (k : Keeper) : ChainCommand → Prop
  | .submit u => ¬u.WellFormed ∨ k.ledger.knows u.name = true
  | .transaction u _ _ => ¬u.WellFormed ∨ k.ledger.knows u.name = true
  | .block b _ _ => ¬b.Meets k.ledger.difficulty ∨ (∃ c ∈ k.ledger.chain, c.nonce = b.nonce) ∨
      (k.ledger.pooled.contains b.nonce = true ∧ b.previous ≠ k.ledger.headHash)
  | .mined number _ _ => ¬k.awaits number

/-! ### A rejected command does nothing -/

/-- A transaction whose name is wrong or known is dropped. -/
theorem onTransaction_of_rejects {u : Transaction}
    (h : ¬u.WellFormed ∨ k.ledger.knows u.name = true) (picker : Picker Block) (time : Timestamp)
    (hopLimit : UInt32) (exclude : Option PeerAddress) :
    k.onTransaction picker time u hopLimit exclude = (k, []) := by
  unfold onTransaction
  split
  next => rfl
  next hwf =>
    rw [if_pos (h.resolve_left hwf)]

/-- A block is rejected exactly if it is not accepted. -/
theorem rejects_block_iff {b : Block} {hopLimit : UInt32} {origin : PeerAddress} :
    k.Rejects (.block b hopLimit origin) ↔ (k.applyBlock b).2.1.isAccepted = false := by
  rw [← Bool.not_eq_true, (k.applyBlock_arrival b).isAccepted_iff, Rejects, ← kindOf_eq_old]
  tauto

/-- A block that is not accepted does nothing to a keeper. -/
theorem applyBlock_of_not_isAccepted {b : Block} (h : (k.applyBlock b).2.1.isAccepted = false) :
    (k.applyBlock b).1 = k ∧ (k.applyBlock b).2.2 = [] := by
  have hledger : (k.applyBlock b).1.ledger = k.ledger :=
    (k.applyBlock_arrival b).tells.eq_of_not_isAccepted h
  rw [applyBlock_keeper, applyBlock_published, hledger]
  generalize (k.applyBlock b).2.1 = o at h ⊢
  cases o with
  | invalid => exact ⟨rfl, rfl⟩
  | ignored => exact ⟨rfl, rfl⟩
  | extended preempted => simp [BlockOutcome.isAccepted] at h
  | stored => simp [BlockOutcome.isAccepted] at h
  | reorganized dropped requeued => simp [BlockOutcome.isAccepted] at h

theorem onBlock_of_not_isAccepted {b : Block} (h : (k.applyBlock b).2.1.isAccepted = false)
    (picker : Picker Block) (time : Timestamp) (hopLimit : UInt32) (sender : PeerAddress) :
    k.onBlock picker time b hopLimit sender = (k, []) := by
  obtain ⟨hkeeper, hpublished⟩ := applyBlock_of_not_isAccepted h
  unfold onBlock
  generalize k.applyBlock b = r at h hkeeper hpublished ⊢
  obtain ⟨k', outcome, published⟩ := r
  simp only at h hkeeper hpublished ⊢
  rw [h, hkeeper, hpublished]
  rfl

/-- **A rejected command does nothing.** -/
theorem told_of_rejects {t : Turn} (h : k.Rejects t.command) : k.told t = ⟨k, [], true⟩ := by
  obtain ⟨picker, time, c⟩ := t
  cases c with
  | submit u => simp only [told, handle, onTransaction_of_rejects h]
  | transaction u hopLimit origin => simp only [told, handle, onTransaction_of_rejects h]
  | block b hopLimit origin =>
    simp only [told, handle, onBlock_of_not_isAccepted (rejects_block_iff.1 h)]
  | mined number b elapsed => exact onMined_of_not_awaits picker time b elapsed h

/-! ### Results that do not count any more -/

/-- The attempt of a number was started, and its result does not count any more. -/
def Spent (k : Keeper) (n : Nat) : Prop := n ≤ k.issued ∧ ¬k.awaits n

/-- No result counts where no attempt is being made. -/
theorem not_awaits_of_attempt_eq_none (h : k.attempt = none) (n : Nat) : ¬k.awaits n := by
  unfold awaits
  rw [h]
  exact (Option.some_ne_none n).symm

/-- The attempt being made was started. -/
theorem AtRest.le_issued (h : AtRest k) {n : Nat} (hn : k.awaits n) : n ≤ k.issued := by
  obtain ⟨a, ha, rfl⟩ := Option.map_eq_some_iff.1 hn
  exact (h.upToDate a ha).latest.le

variable {k' : Keeper} {n : Nat}

/-- Where the attempt goes on or ends, a result that did not count does not count. -/
theorem Spent.of_attempt (h : k.Spent n) (hissued : k'.issued = k.issued)
    (hattempt : k'.attempt = none ∨ k'.attempt = k.attempt) : k'.Spent n := by
  refine ⟨hissued ▸ h.1, ?_⟩
  rcases hattempt with hnone | hsame
  · exact not_awaits_of_attempt_eq_none hnone n
  · unfold awaits
    rw [hsame]
    exact h.2

/-- Where the next attempt has been started, the result of an earlier one does not count. -/
theorem Spent.of_started (h : k.Spent n) (hissued : k'.issued = k.issued + 1) {candidate : Block}
    (hattempt : k'.attempt = some ⟨k.issued + 1, candidate⟩) : k'.Spent n := by
  have hle := h.1
  refine ⟨by omega, ?_⟩
  unfold awaits
  rw [hattempt]
  show some (k.issued + 1) ≠ some n
  rw [Ne, Option.some_inj]
  omega

/-- A result that does not count any more does not count after another command either. -/
theorem Spent.told (h : k.Spent n) (t : Turn) : (k.told t).keeper.Spent n := by
  rcases k.told_attempt t with ⟨hissued, hattempt⟩ | ⟨hissued, candidate, hattempt⟩
  · exact h.of_attempt hissued hattempt
  · exact h.of_started hissued hattempt

theorem Spent.startMining (h : k.Spent n) (time : Timestamp) : (k.startMining time).Spent n := by
  rcases k.startMining_cases time with ⟨-, hsame⟩ | ⟨-, -, hsame⟩ | ⟨-, -, hstarts⟩
  · rw [hsame]
    exact h
  · rw [hsame]
    exact h
  · rw [hstarts]
    exact h.of_started rfl rfl

/-- **A result that was taken does not count any more**: the attempt has come to its end, and
the next one has a higher number. -/
theorem spent_told_mined (hn : k.awaits n) (hle : n ≤ k.issued) {picker : Picker Block}
    {time : Timestamp} {b : Block} {elapsed : Nat} :
    (k.told ⟨picker, time, .mined n b elapsed⟩).keeper.Spent n := by
  have hfinished : (k.finish elapsed).Spent n := ⟨hle, not_awaits_of_attempt_eq_none rfl n⟩
  refine told_keeps (P := fun k' => k'.Spent n) _ ?_ ?_ ?_
  · show (k.takeIn (.mined n b elapsed)).Spent n
    rw [takeIn, if_pos hn]
    exact hfinished.of_attempt (applyBlock_issued b) ((k.finish elapsed).applyBlock_attempt b)
  · rintro k' c h -
    exact h.of_attempt (applyBlock_issued c) (k'.applyBlock_attempt c)
  · intro k' h
    exact h.startMining time

/-! ### Every other command changes the keeper -/

/-- A new transaction is known afterwards. -/
theorem keeper_told_ne_of_learns {t : Turn} {u : Transaction} (hu : u ∈ k.learns t.command) :
    (k.told t).keeper ≠ k := by
  intro hsame
  obtain ⟨hnew, hknown⟩ := knows_of_mem_learns hu
  have hafter := knows_told hknown
  rw [hsame, hnew] at hafter
  exact absurd hafter (by simp)

/-- A block that is accepted makes the chain longer, or it is pooled. -/
theorem keeper_told_ne_of_isAccepted {b : Block} (h : (k.applyBlock b).2.1.isAccepted = true)
    {picker : Picker Block} {time : Timestamp} {hopLimit : UInt32} {origin : PeerAddress} :
    (k.told ⟨picker, time, .block b hopLimit origin⟩).keeper ≠ k := by
  have htells := (k.applyBlock_arrival b).tells
  intro hsame
  cases hmoved : (k.applyBlock b).2.1.movedHead with
  | true =>
    have hlonger := htells.length_lt hmoved
    obtain ⟨ops, hops⟩ := k.exists_run_of_takeIn ⟨picker, time, .block b hopLimit origin⟩
    have hstill := length_le_run (k.applyBlock b).1.ledger ops
    rw [hsame] at hops
    have hle : (k.applyBlock b).1.ledger.chain.length ≤ k.ledger.chain.length :=
      hstill.trans (congrArg (fun l : Ledger => l.chain.length) hops).ge
    omega
  | false =>
    have htaken : (k.told ⟨picker, time, .block b hopLimit origin⟩).keeper =
        (k.applyBlock b).1 := by
      rw [told_keeper]
      refine if_neg fun hboth => ?_
      exact absurd (hboth.1.symm.trans hmoved) (by simp)
    exact htells.ne_of_isAccepted h (congrArg Keeper.ledger (htaken.symm.trans hsame))

/-- **A command that is not rejected changes a keeper at rest.** -/
theorem AtRest.keeper_told_ne (h : AtRest k) {t : Turn} (ht : ¬k.Rejects t.command) :
    (k.told t).keeper ≠ k := by
  obtain ⟨picker, time, c⟩ := t
  cases c with
  | submit u =>
    have hlearns : k.learns (.submit u) = [u] := if_pos (by simpa [Rejects] using ht)
    exact keeper_told_ne_of_learns (u := u) (by simp [hlearns])
  | transaction u hopLimit origin =>
    have hlearns : k.learns (.transaction u hopLimit origin) = [u] :=
      if_pos (by simpa [Rejects] using ht)
    exact keeper_told_ne_of_learns (u := u) (by simp [hlearns])
  | block b hopLimit origin =>
    refine keeper_told_ne_of_isAccepted ?_
    simpa using mt rejects_block_iff.2 ht
  | mined number b elapsed =>
    have hawaits : k.awaits number := not_not.1 ht
    intro hsame
    have hspent : k.Spent number := hsame ▸ spent_told_mined hawaits (h.le_issued hawaits)
    exact hspent.2 hawaits

/-! ### Sequences of commands -/

/-- The number of the attempt whose result a command brings, if the result counts. -/
def applies (k : Keeper) : ChainCommand → List Nat
  | .mined number _ _ => if k.awaits number then [number] else []
  | _ => []

/-- The numbers of the attempts whose results are taken in the course of a sequence of
commands. -/
def applied (k : Keeper) (turns : List Turn) : List Nat :=
  (k.heard turns).flatMap fun x => x.1.applies x.2.command

theorem mem_applies {c : ChainCommand} {n : Nat} :
    n ∈ k.applies c ↔ k.awaits n ∧ ∃ b elapsed, c = .mined n b elapsed := by
  cases c with
  | submit u => simp [applies]
  | transaction u hopLimit origin => simp [applies]
  | block b hopLimit origin => simp [applies]
  | mined number b elapsed =>
    rw [applies, List.mem_ite_nil_right, List.mem_singleton]
    constructor
    · rintro ⟨hawaits, rfl⟩
      exact ⟨hawaits, b, elapsed, rfl⟩
    · rintro ⟨hawaits, b', elapsed', heq⟩
      cases heq
      exact ⟨hawaits, rfl⟩

/-- **The result of each attempt is taken once.** -/
theorem AtRest.nodup_applied (h : AtRest k) (hk : Sound difficulty k.ledger)
    (turns : List Turn) : (k.applied turns).Nodup := by
  have hrun := nodup_heard (I := fun k' _ => Sound difficulty k'.ledger ∧ AtRest k')
    (f := fun k' t => k'.applies t.command) (P := Spent) ?_ ?_ ?_ turns ⟨hk, h⟩
  · exact hrun.1
  · rintro k' t ts ⟨hk', h'⟩ halive
    exact ⟨sound_told hk' t, h'.told hk' halive⟩
  · rintro k' t ts -
    refine ⟨?_, fun n hn hspent => hspent.2 (mem_applies.1 hn).1⟩
    cases t.command with
    | mined number b elapsed => rw [applies]; split <;> simp
    | _ => exact List.nodup_nil
  · rintro k' ⟨picker, time, c⟩ ts ⟨-, h'⟩ n (hn | hspent)
    · obtain ⟨hawaits, b, elapsed, rfl⟩ := mem_applies.1 hn
      exact spent_told_mined hawaits (h'.le_issued hawaits)
    · exact hspent.told _

/-- **Commands that are rejected do nothing, and the result of each attempt is taken once.**
Whatever a new keeper was told, the commands that it rejects are exactly those that leave it as
it was, with its ledger, both pools, the attempt being made, the number of attempts and the time
of the last own block, and that make it publish nothing and go on.  A block that is known is
among them.  And no two results of one number are taken, whichever blocks they bring. -/
theorem rejected_and_applied_once (settings : ChainSettings) (identity : Digest)
    (turns : List Turn) :
    (∀ t : Turn, ((new settings identity).after turns).Rejects t.command ↔
      ((new settings identity).after turns).told t =
        ⟨(new settings identity).after turns, [], true⟩) ∧
    (∀ b hopLimit origin, ((new settings identity).after turns).ledger.Holds b →
      ((new settings identity).after turns).Rejects (.block b hopLimit origin)) ∧
    ((new settings identity).applied turns).Nodup := by
  have hsound : Sound settings.difficulty (new settings identity).ledger := sound_new _
  have hnew := atRest_new settings identity
  have hrest := atRest_after hnew hsound turns
  refine ⟨fun t => ⟨told_of_rejects, fun hsame => ?_⟩, fun b hopLimit origin hb => ?_,
    hnew.nodup_applied hsound turns⟩
  · by_contra hnot
    exact hrest.keeper_told_ne hnot (congrArg Result.keeper hsame)
  · have hnone := extensions_eq_nil_of_nextPooledBlock (hrest.connected .first)
    exact rejects_block_iff.2 (not_isAccepted_of_holds (applyBlock_arrival _ b) hnone hb)

/-- The result of the first attempt comes twice, and is taken once. -/
example : (new { difficulty := 0 } .zero).applied
    (⟨.first, default, .submit (.make .zero .zero 1)⟩ ::
      List.replicate 2 ⟨.first, default, .mined 1 ⟨.zero, .zero, default, []⟩ 0⟩) = [1] := by
  decide +kernel

end Keeper
end GossipLedger
