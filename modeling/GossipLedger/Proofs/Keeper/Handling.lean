import GossipLedger.Ledger.Keeper
import GossipLedger.Proofs.Ledger.Steps

/-!
# How a keeper handles a command

A command is handled in three stages: what it brings is taken in, then pooled blocks
are connected one by one, then mining starts.  The stages are given names, so that
what every stage keeps is kept by every command.

## Main definitions

* `Keeper.Turn` — a command with the choices made while it is handled.
* `Keeper.takeIn` — the keeper once it took in what a command brings.
* `Keeper.connections`, `Keeper.picks` — the pooled blocks that are then connected,
  each with the ledger that it extends.
* `Keeper.passes` — the ledgers that can be seen while a command is handled.
* `Keeper.handled`, `Keeper.after`, `Keeper.accepted` — a sequence of commands: those
  that are handled to the end, the keeper afterwards and the blocks it accepted.

## Main results

* `Keeper.told_keeper` — a handled command is its three stages.
* `Keeper.told_keeps`, `Keeper.passes_keeps` — what every stage keeps is kept by a command,
  and holds all the way.
* `Keeper.exists_run_told` — a command does nothing to the ledger but operate it.
-/

namespace GossipLedger

/-- A command, with the pick among pooled blocks and the time while it is handled. -/
structure Keeper.Turn where
  picker : Picker Block
  time : Timestamp
  command : ChainCommand

namespace Keeper

variable {k : Keeper}

/-! ### The stages -/

/-- A command is handled. -/
def told (k : Keeper) (t : Turn) : Result := k.handle t.picker t.time t.command

/-- A transaction goes into the pool if its name is right and not known. -/
def learn (k : Keeper) (t : Transaction) : Keeper :=
  if t.WellFormed then { k with ledger := k.ledger.addTransaction t } else k

/-- The keeper once the attempt being made has come to its end. -/
def finish (k : Keeper) (elapsed : Nat) : Keeper :=
  { k with attempt := none, lastBlockTime := elapsed }

/-- Whether a number is that of the attempt being made. -/
def awaits (k : Keeper) (number : Nat) : Prop := k.attempt.map Attempt.number = some number

instance (number : Nat) : Decidable (k.awaits number) := inferInstanceAs (Decidable (_ = _))

/-- The keeper once it took in the transaction or the block that a command brings. -/
def takeIn (k : Keeper) : ChainCommand → Keeper
  | .submit t => k.learn t
  | .transaction t _ _ => k.learn t
  | .block b _ _ => (k.applyBlock b).1
  | .mined number b elapsed =>
      if k.awaits number then ((k.finish elapsed).applyBlock b).1 else k

/-- The blocks that a command brings and that are accepted: at most one. -/
def accepts (k : Keeper) : ChainCommand → List Block
  | .submit _ => []
  | .transaction _ _ _ => []
  | .block b _ _ => if (k.applyBlock b).2.1.isAccepted then [b] else []
  | .mined number b elapsed =>
      if k.awaits number ∧ ((k.finish elapsed).applyBlock b).2.1.isAccepted then [b] else []

/-- Whether pooled blocks are connected after a command. -/
def goesOn (k : Keeper) : ChainCommand → Prop
  | .submit t => t.WellFormed ∧ k.ledger.knows t.name = false
  | .transaction t _ _ => t.WellFormed ∧ k.ledger.knows t.name = false
  | .block b _ _ => (k.applyBlock b).2.1.movedHead = true
  | .mined number _ _ => k.awaits number

instance decidableGoesOn : (c : ChainCommand) → Decidable (k.goesOn c)
  | .submit t =>
      inferInstanceAs (Decidable (t.WellFormed ∧ k.ledger.knows t.name = false))
  | .transaction t _ _ =>
      inferInstanceAs (Decidable (t.WellFormed ∧ k.ledger.knows t.name = false))
  | .block b _ _ => inferInstanceAs (Decidable ((k.applyBlock b).2.1.movedHead = true))
  | .mined number _ _ => inferInstanceAs (Decidable (k.awaits number))

/-- The pooled blocks that are connected, each with the ledger that it extends. -/
def connections (picker : Picker Block) : Nat → Keeper → List (Ledger × Block)
  | 0, _ => []
  | fuel + 1, k =>
      match k.ledger.nextPooledBlock picker with
      | none => []
      | some b =>
          (k.ledger, b) ::
            if (k.applyBlock b).2.1.movedHead then connections picker fuel (k.applyBlock b).1
            else []

/-- The pooled blocks that are connected while a command is handled. -/
def picks (k : Keeper) (t : Turn) : List (Ledger × Block) :=
  if k.goesOn t.command then
    connections t.picker (k.takeIn t.command).ledger.pooled.size (k.takeIn t.command)
  else []

/-- The ledgers that can be seen while a command is handled: the one that took in what
the command brings, and then one for each pooled block that is connected. -/
def passes (k : Keeper) (t : Turn) : List Ledger :=
  (k.takeIn t.command).ledger :: (k.picks t).map Prod.fst

/-- The commands of a sequence that are handled to the end, each with the keeper that
was told it.  A keeper that ends handles no further one. -/
def handled (k : Keeper) : List Turn → List (Keeper × Turn)
  | [] => []
  | t :: ts => if (k.told t).alive then (k, t) :: (k.told t).keeper.handled ts else []

/-- The keeper after the last command that is handled to the end. -/
def after (k : Keeper) : List Turn → Keeper
  | [] => k
  | t :: ts => if (k.told t).alive then (k.told t).keeper.after ts else k

/-- The blocks that are accepted. -/
def accepted (k : Keeper) (turns : List Turn) : List Block :=
  (k.handled turns).flatMap fun h => h.1.accepts h.2.command

/-! ### What a block does to a keeper -/

/-- A block changes the ledger, and ends the attempt if it moves the head. -/
theorem applyBlock_keeper (b : Block) : (k.applyBlock b).1 =
    { k with
      ledger := (k.applyBlock b).1.ledger
      attempt := if (k.applyBlock b).2.1.movedHead then none else k.attempt } := by
  unfold applyBlock
  rcases k.ledger.addBlock b (k.attempt.map Attempt.candidate) with ⟨l, outcome⟩
  cases outcome with
  | invalid => rfl
  | ignored => rfl
  | extended preempted => rfl
  | stored => rfl
  | reorganized dropped requeued => rfl

theorem applyBlock_attempt (b : Block) :
    (k.applyBlock b).1.attempt = none ∨ (k.applyBlock b).1.attempt = k.attempt := by
  rw [applyBlock_keeper]
  split
  next => exact Or.inl rfl
  next => exact Or.inr rfl

theorem applyBlock_attempt_eq_none {b : Block} (h : (k.applyBlock b).2.1.movedHead = true) :
    (k.applyBlock b).1.attempt = none := by
  rw [applyBlock_keeper, if_pos h]

@[simp] theorem applyBlock_issued (b : Block) : (k.applyBlock b).1.issued = k.issued := by
  rw [applyBlock_keeper]

@[simp] theorem applyBlock_settings (b : Block) : (k.applyBlock b).1.settings = k.settings := by
  rw [applyBlock_keeper]

/-! ### What a stage does to the ledger -/

@[simp] theorem applyBlock_ledger (b : Block) :
    (k.applyBlock b).1.ledger = (k.ledger.addBlock b (k.attempt.map Attempt.candidate)).1 := by
  unfold applyBlock
  rcases k.ledger.addBlock b (k.attempt.map Attempt.candidate) with ⟨l, outcome⟩
  cases outcome <;> rfl

@[simp] theorem applyBlock_outcome (b : Block) :
    (k.applyBlock b).2.1 = (k.ledger.addBlock b (k.attempt.map Attempt.candidate)).2 := by
  unfold applyBlock
  rcases k.ledger.addBlock b (k.attempt.map Attempt.candidate) with ⟨l, outcome⟩
  cases outcome <;> rfl

/-- What becomes of a block that comes to a keeper is what becomes of it in the ledger. -/
theorem applyBlock_arrival (k : Keeper) (b : Block) :
    Ledger.Arrival k.ledger b (k.attempt.map Attempt.candidate) (k.applyBlock b).1.ledger
      (k.applyBlock b).2.1 := by
  rw [applyBlock_ledger, applyBlock_outcome]
  exact k.ledger.addBlock_arrival b _

@[simp] theorem startMining_ledger (time : Timestamp) :
    (k.startMining time).ledger = k.ledger := by
  unfold startMining
  split
  next => rfl
  next => split <;> rfl

theorem learn_ledger (t : Transaction) :
    (k.learn t).ledger = if t.WellFormed then k.ledger.addTransaction t else k.ledger := by
  unfold learn
  split <;> rfl

/-- A transaction is passed over or comes to the ledger. -/
theorem learn_ledger_eq (t : Transaction) : (k.learn t).ledger = k.ledger ∨
    (k.learn t).ledger = k.ledger.addTransaction t := by
  rw [learn_ledger]
  split
  next => exact Or.inr rfl
  next => exact Or.inl rfl

/-- A transaction whose name is wrong or known is passed over. -/
theorem learn_eq_self {t : Transaction} (h : ¬(t.WellFormed ∧ k.ledger.knows t.name = false)) :
    k.learn t = k := by
  unfold learn
  split
  next hwf =>
    have hknown : k.ledger.knows t.name = true := by simpa [hwf] using h
    rw [Ledger.addTransaction, if_pos hknown]
  next => rfl

/-! ### A command in three stages -/

theorem onTransaction_keeper (picker : Picker Block) (time : Timestamp) (t : Transaction)
    (hopLimit : UInt32) (exclude : Option PeerAddress) :
    (k.onTransaction picker time t hopLimit exclude).1 =
      if t.WellFormed ∧ k.ledger.knows t.name = false then
        ((k.learn t).connect picker (k.learn t).ledger.pooled.size).1.startMining time
      else k.learn t := by
  unfold onTransaction
  by_cases hwf : t.WellFormed
  · rw [if_neg (not_not.2 hwf)]
    cases hknown : k.ledger.knows t.name with
    | true =>
      have hsame : k.ledger.addTransaction t = k.ledger := if_pos hknown
      rw [if_pos rfl, if_neg (by simp), learn, if_pos hwf, hsame]
    | false =>
      rw [if_neg (by simp), if_pos ⟨hwf, rfl⟩, learn, if_pos hwf]
      rfl
  · rw [if_pos hwf, if_neg (fun h => hwf h.1), learn, if_neg hwf]

theorem onBlock_keeper (picker : Picker Block) (time : Timestamp) (b : Block)
    (hopLimit : UInt32) (sender : PeerAddress) :
    (k.onBlock picker time b hopLimit sender).1 =
      if (k.applyBlock b).2.1.movedHead = true then
        ((k.applyBlock b).1.connect picker (k.applyBlock b).1.ledger.pooled.size).1.startMining time
      else (k.applyBlock b).1 := by
  unfold onBlock
  rcases k.applyBlock b with ⟨k', outcome, published⟩
  cases outcome <;> rfl

/-- The result of an attempt that is awaited: the keeper ends, or it goes on. -/
theorem onMined_keeper (picker : Picker Block) (time : Timestamp) {number : Nat} (b : Block)
    (elapsed : Nat) (h : k.awaits number) :
    (k.onMined picker time number b elapsed).keeper =
      if (k.onMined picker time number b elapsed).alive = true then
        (((k.finish elapsed).applyBlock b).1.connect picker
          ((k.finish elapsed).applyBlock b).1.ledger.pooled.size).1.startMining time
      else ((k.finish elapsed).applyBlock b).1 := by
  have hnot : ¬k.attempt.map Attempt.number ≠ some number := not_not.2 h
  have hfinish : { k with attempt := none, lastBlockTime := elapsed } = k.finish elapsed := rfl
  unfold onMined
  rw [if_neg hnot, hfinish]
  rcases (k.finish elapsed).applyBlock b with ⟨k', outcome, published⟩
  simp only
  split
  next => rfl
  next => rfl

/-- The result of an attempt that is not awaited does nothing. -/
theorem onMined_of_not_awaits (picker : Picker Block) (time : Timestamp) {number : Nat} (b : Block)
    (elapsed : Nat) (h : ¬k.awaits number) :
    k.onMined picker time number b elapsed = ⟨k, [], true⟩ := if_pos h

/-- **A command is handled in three stages**, unless the keeper ends after the first. -/
theorem told_keeper (t : Turn) :
    (k.told t).keeper =
      if k.goesOn t.command ∧ (k.told t).alive = true then
        ((k.takeIn t.command).connect t.picker
          (k.takeIn t.command).ledger.pooled.size).1.startMining t.time
      else k.takeIn t.command := by
  obtain ⟨picker, time, c⟩ := t
  cases c with
  | submit t =>
    refine (onTransaction_keeper picker time t _ _).trans ?_
    simp [told, handle, goesOn, takeIn]
  | transaction t hopLimit origin =>
    refine (onTransaction_keeper picker time t _ _).trans ?_
    simp [told, handle, goesOn, takeIn]
  | block b hopLimit origin =>
    refine (onBlock_keeper picker time b _ _).trans ?_
    simp [told, handle, goesOn, takeIn]
  | mined number b elapsed =>
    have hmined : (k.told ⟨picker, time, .mined number b elapsed⟩) =
      k.onMined picker time number b elapsed := rfl
    rw [hmined]
    by_cases hawaits : k.awaits number
    · rw [onMined_keeper picker time b elapsed hawaits]
      simp [goesOn, takeIn, hawaits]
    · rw [onMined_of_not_awaits picker time b elapsed hawaits]
      simp [goesOn, takeIn, hawaits]

/-! ### What every stage keeps -/

theorem mem_extensions_of_nextPooledBlock {l : Ledger} {picker : Picker Block} {b : Block}
    (h : l.nextPooledBlock picker = some b) : b ∈ l.extensions := picker.mem_of_pick h

theorem extensions_eq_nil_of_nextPooledBlock {l : Ledger} {picker : Picker Block}
    (h : l.nextPooledBlock picker = none) : l.extensions = [] := picker.pick_eq_none_iff.1 h

/-- What is kept when one pooled block is connected is kept when all are. -/
theorem connect_keeps {P : Keeper → Prop}
    (hstep : ∀ k b, P k → b ∈ k.ledger.extensions → P (k.applyBlock b).1)
    (picker : Picker Block) (fuel : Nat) (h : P k) : P (k.connect picker fuel).1 := by
  induction fuel generalizing k with
  | zero => exact h
  | succ fuel ih =>
    rw [connect]
    split
    next => exact h
    next b hb =>
      have hnext := hstep k b h (mem_extensions_of_nextPooledBlock hb)
      simp only
      split
      next => exact ih hnext
      next => exact hnext

/-- So it holds whenever one is connected. -/
theorem connections_keeps {P : Keeper → Prop}
    (hstep : ∀ k b, P k → b ∈ k.ledger.extensions → P (k.applyBlock b).1)
    (picker : Picker Block) (fuel : Nat) (h : P k) :
    ∀ p ∈ connections picker fuel k, ∃ k', P k' ∧ k'.ledger = p.1 := by
  induction fuel generalizing k with
  | zero =>
    intro p hp
    exact absurd hp List.not_mem_nil
  | succ fuel ih =>
    intro p hp
    rw [connections] at hp
    split at hp
    next => exact absurd hp List.not_mem_nil
    next b hb =>
      rcases List.mem_cons.1 hp with rfl | hp
      · exact ⟨k, h, rfl⟩
      · split at hp
        next => exact ih (hstep k b h (mem_extensions_of_nextPooledBlock hb)) p hp
        next => exact absurd hp List.not_mem_nil

/-- **What every stage keeps is kept by a command.** -/
theorem told_keeps {P : Keeper → Prop} (t : Turn) (htake : P (k.takeIn t.command))
    (hconnect : ∀ k b, P k → b ∈ k.ledger.extensions → P (k.applyBlock b).1)
    (hstart : ∀ k, P k → P (k.startMining t.time)) : P (k.told t).keeper := by
  rw [told_keeper]
  split
  next => exact hstart _ (connect_keeps hconnect _ _ htake)
  next => exact htake

/-- **What every stage keeps holds of all that can be seen while a command is handled.** -/
theorem passes_keeps {P : Keeper → Prop} (t : Turn) (htake : P (k.takeIn t.command))
    (hconnect : ∀ k b, P k → b ∈ k.ledger.extensions → P (k.applyBlock b).1) :
    ∀ l ∈ k.passes t, ∃ k', P k' ∧ k'.ledger = l := by
  intro l hl
  rcases List.mem_cons.1 hl with rfl | hl
  · exact ⟨_, htake, rfl⟩
  · obtain ⟨p, hp, rfl⟩ := List.mem_map.1 hl
    unfold picks at hp
    split at hp
    next => exact connections_keeps hconnect _ _ htake p hp
    next => exact absurd hp List.not_mem_nil

theorem exists_run_takeIn (c : ChainCommand) :
    ∃ ops, (k.takeIn c).ledger = k.ledger.run ops := by
  have hlearn : ∀ t, ∃ ops, (k.learn t).ledger = k.ledger.run ops := by
    intro t
    rcases k.learn_ledger_eq t with h | h
    · exact ⟨[], h⟩
    · exact ⟨[.transaction t], h⟩
  cases c with
  | submit t => exact hlearn t
  | transaction t hopLimit origin => exact hlearn t
  | block b hopLimit origin => exact ⟨[.block b _], applyBlock_ledger b⟩
  | mined number b elapsed =>
    rw [takeIn]
    split
    next => exact ⟨[.block b _], applyBlock_ledger (k := k.finish elapsed) b⟩
    next => exact ⟨[], rfl⟩

/-- **A command does nothing to the ledger but operate it.** -/
theorem exists_run_told (t : Turn) : ∃ ops, (k.told t).keeper.ledger = k.ledger.run ops := by
  refine told_keeps (P := fun k' => ∃ ops, k'.ledger = k.ledger.run ops) t
    (exists_run_takeIn t.command) ?_ ?_
  · rintro k' b ⟨ops, h⟩ -
    refine ⟨ops ++ [.block b (k'.attempt.map Attempt.candidate)], ?_⟩
    rw [applyBlock_ledger, Ledger.run_append, ← h]
    rfl
  · rintro k' ⟨ops, h⟩
    exact ⟨ops, (startMining_ledger t.time).trans h⟩

end Keeper
end GossipLedger
