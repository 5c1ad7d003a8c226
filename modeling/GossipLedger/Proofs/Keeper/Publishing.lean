import GossipLedger.Proofs.Keeper.Provenance
import GossipLedger.Proofs.Keeper.Rest
import GossipLedger.Proofs.Ledger.Restored
import GossipLedger.Proofs.Ledger.Retention

/-!
# What a keeper publishes

What a command leads to is published in two parts: first the transactions that wait again
because a side chain replaced the end of the chain, then what the command brought, if it
was new.  Connecting pooled blocks publishes nothing.

What was new once is never new again.  The name of a transaction is not forgotten, and
neither is the nonce of a block; and a pooled block could only be taken for a new one if it
stood on top of the chain, which no pooled block does while a keeper is at rest.  So each
transaction and each block is passed on once.

## Main definitions

* `Keeper.restored` — the transactions that wait again because of a command.
* `Keeper.relays` — what a keeper publishes of what a command brings.
* `Keeper.heard` — the commands that a keeper takes notice of.
* `Keeper.Relays` — how a publication passes on what a command brings.
* `Keeper.relayed`, `Keeper.announced` — all that is passed on, and all that is published.

## Main results

* `Keeper.told_published` — what is published because of a command.
* `Keeper.not_isAccepted_of_holds` — at rest no block is accepted that is known.
* `Keeper.nodup_heard` — what is published only if it is not known, and known from then
  on, is published once.
* `Keeper.relayed_once` — **each block and each transaction is passed on once.**
-/

namespace GossipLedger

/-- The packet that is published. -/
def Publication.packet : Publication → Packet
  | .now packet _ => packet
  | .later _ packet => packet

/-- The transaction that is published. -/
def Publication.transaction? (p : Publication) : Option Transaction :=
  match p.packet with
  | .transaction m => some m.transaction
  | _ => none

/-- The block that is published. -/
def Publication.block? (p : Publication) : Option Block :=
  match p.packet with
  | .block m => some m.block
  | _ => none

namespace Keeper

open Ledger

variable {k : Keeper} {difficulty : Nat}

/-! ### Two parts -/

/-- The transactions that wait again because of what a command brings. -/
def restored (k : Keeper) : ChainCommand → List Transaction
  | .submit _ => []
  | .transaction _ _ _ => []
  | .block b _ _ => (k.applyBlock b).2.1.requeued
  | .mined number b elapsed =>
      if k.awaits number then ((k.finish elapsed).applyBlock b).2.1.requeued else []

/-- A transaction that waits again is published for everyone. -/
def republish (s : ChainSettings) (t : Transaction) : Publication :=
  .now (.transaction ⟨t, s.txHopLimit⟩) none

/-- What a keeper publishes of what a command brings: at most one packet, and only of what
is new. -/
def relays (k : Keeper) (t : Turn) : List Publication :=
  match t.command with
  | .submit u => if k.goesOn (.submit u) then relayTransaction u k.settings.txHopLimit none else []
  | .transaction u hopLimit origin =>
      if k.goesOn (.transaction u hopLimit origin) then
        relayTransaction u (lessOne hopLimit) (some origin)
      else []
  | .block b hopLimit origin =>
      if (k.applyBlock b).2.1.isAccepted then relayBlock b (lessOne hopLimit) (some origin) else []
  | .mined number b elapsed =>
      if k.awaits number ∧ ((k.finish elapsed).applyBlock b).2.1.isAccepted ∧
          (k.told t).alive then
        [.later (elapsed * k.settings.publishDelayFactor.toNat)
          (.block ⟨b, k.settings.blockHopLimit⟩)]
      else []

/-- **When a block comes, the transactions that wait again are published.** -/
theorem applyBlock_published (b : Block) :
    (k.applyBlock b).2.2 = (k.applyBlock b).2.1.requeued.map (republish k.settings) := by
  unfold applyBlock
  rcases k.ledger.addBlock b (k.attempt.map Attempt.candidate) with ⟨l, outcome⟩
  cases outcome <;> rfl

/-- A pooled block that is connected makes nothing wait again. -/
theorem requeued_addBlock_extension {l : Ledger} {b : Block} (hl : Sound difficulty l)
    (hb : b ∈ l.extensions) (mining : Option Block) : (l.addBlock b mining).2.requeued = [] := by
  rw [addBlock_extension_eq hl hb]
  rfl

/-- Connecting pooled blocks publishes nothing. -/
theorem connect_published (hk : Sound difficulty k.ledger) (picker : Picker Block) (fuel : Nat) :
    (k.connect picker fuel).2 = [] := by
  induction fuel generalizing k with
  | zero => rfl
  | succ fuel ih =>
    rw [connect]
    split
    next => rfl
    next b hb =>
      have hext := mem_extensions_of_nextPooledBlock hb
      obtain ⟨-, hsound, -⟩ := applyBlock_extension hk hext
      have hnone : (k.applyBlock b).2.2 = [] := by
        rw [applyBlock_published, applyBlock_outcome, requeued_addBlock_extension hk hext]
        rfl
      simp only [hnone, ih hsound, List.nil_append]
      split
      next => rfl
      next => rfl

/-- Pooled blocks are connected and mining starts, and nothing is published. -/
theorem buildAndMine_published (hk : Sound difficulty k.ledger) (picker : Picker Block)
    (time : Timestamp) : (k.buildAndMine picker time).2 = [] := connect_published hk picker _

theorem onTransaction_published (hk : Sound difficulty k.ledger) (picker : Picker Block)
    (time : Timestamp) (u : Transaction) (hopLimit : UInt32) (exclude : Option PeerAddress) :
    (k.onTransaction picker time u hopLimit exclude).2 =
      if u.WellFormed ∧ k.ledger.knows u.name = false then relayTransaction u hopLimit exclude
      else [] := by
  have hnone : ({ k with ledger := k.ledger.addTransaction u }.buildAndMine picker time).2 = [] :=
    buildAndMine_published (hk.apply (.transaction u)) picker time
  unfold onTransaction
  by_cases hwf : u.WellFormed
  · rw [if_neg (not_not.2 hwf)]
    cases hknown : k.ledger.knows u.name with
    | true => simp
    | false => simp [hwf, hnone]
  · rw [if_pos hwf, if_neg fun h => hwf h.1]

theorem onBlock_published (hk : Sound difficulty k.ledger) (picker : Picker Block)
    (time : Timestamp) (b : Block) (hopLimit : UInt32) (sender : PeerAddress) :
    (k.onBlock picker time b hopLimit sender).2 =
      (k.applyBlock b).2.1.requeued.map (republish k.settings) ++
        if (k.applyBlock b).2.1.isAccepted then relayBlock b (lessOne hopLimit) (some sender)
        else [] := by
  have hnone := buildAndMine_published ((k.applyBlock_arrival b).sound hk) picker time
  have hfirst := k.applyBlock_published b
  unfold onBlock
  generalize k.applyBlock b = r at hnone hfirst ⊢
  obtain ⟨k', outcome, published⟩ := r
  simp only at hnone hfirst ⊢
  subst hfirst
  cases outcome with
  | invalid => simp [BlockOutcome.isAccepted]
  | ignored => simp [BlockOutcome.isAccepted]
  | extended preempted => simp [BlockOutcome.isAccepted, BlockOutcome.movedHead, hnone]
  | stored => simp [BlockOutcome.isAccepted, BlockOutcome.movedHead]
  | reorganized dropped requeued => simp [BlockOutcome.isAccepted, BlockOutcome.movedHead, hnone]

theorem onMined_published (hk : Sound difficulty k.ledger) (picker : Picker Block)
    (time : Timestamp) {number : Nat} (b : Block) (elapsed : Nat) (h : k.awaits number) :
    (k.onMined picker time number b elapsed).published =
      ((k.finish elapsed).applyBlock b).2.1.requeued.map (republish k.settings) ++
        if ((k.finish elapsed).applyBlock b).2.1.isAccepted ∧
            (k.onMined picker time number b elapsed).alive then
          [.later (elapsed * k.settings.publishDelayFactor.toNat)
            (.block ⟨b, k.settings.blockHopLimit⟩)]
        else [] := by
  have hnot : ¬k.attempt.map Attempt.number ≠ some number := not_not.2 h
  have hfinish : { k with attempt := none, lastBlockTime := elapsed } = k.finish elapsed := rfl
  have hsettings : ((k.finish elapsed).applyBlock b).1.settings = k.settings :=
    applyBlock_settings b
  have hsound : Sound difficulty ((k.finish elapsed).applyBlock b).1.ledger :=
    ((k.finish elapsed).applyBlock_arrival b).sound hk
  have hnone := buildAndMine_published hsound picker time
  have hfirst := (k.finish elapsed).applyBlock_published b
  unfold onMined
  rw [if_neg hnot, hfinish]
  generalize (k.finish elapsed).applyBlock b = r at hsettings hnone hfirst ⊢
  obtain ⟨k', outcome, published⟩ := r
  simp only at hsettings hnone hfirst ⊢
  subst hfirst
  rw [hsettings]
  split
  next => simp [finish]
  next =>
    cases hacc : outcome.isAccepted with
    | true => simp [hnone, finish]
    | false => simp [hnone, finish]

/-- **What is published because of a command**: the transactions that wait again, and then
what the command brings. -/
theorem told_published (hk : Sound difficulty k.ledger) (t : Turn) :
    (k.told t).published =
      (k.restored t.command).map (republish k.settings) ++ k.relays t := by
  obtain ⟨picker, time, c⟩ := t
  cases c with
  | submit u => exact onTransaction_published hk picker time u _ _
  | transaction u hopLimit origin => exact onTransaction_published hk picker time u _ _
  | block b hopLimit origin => exact onBlock_published hk picker time b hopLimit origin
  | mined number b elapsed =>
    by_cases hawaits : k.awaits number
    · have hmined := onMined_published hk picker time b elapsed hawaits
      simpa [told, handle, restored, relays, hawaits] using hmined
    · have hmined := k.onMined_of_not_awaits picker time b elapsed hawaits
      simp [told, handle, restored, relays, hawaits, hmined]

/-! ### How what is new is passed on -/

/-- How a keeper passes on what a command brings: what its own node made with the configured
hop limit, to everyone; what a peer sent with one hop less than it came with, as long as
some are left, to everyone but that peer. -/
inductive Relays (s : ChainSettings) : ChainCommand → Publication → Prop
  /-- A transaction of the own node. -/
  | submit {u : Transaction} : 0 < s.txHopLimit →
      Relays s (.submit u) (.now (.transaction ⟨u, s.txHopLimit⟩) none)
  /-- A transaction of a peer. -/
  | transaction {u : Transaction} {hopLimit left : UInt32} {origin : PeerAddress} :
      left.toNat + 1 = hopLimit.toNat → 0 < left →
      Relays s (.transaction u hopLimit origin) (.now (.transaction ⟨u, left⟩) (some origin))
  /-- A block of a peer. -/
  | block {b : Block} {hopLimit left : UInt32} {origin : PeerAddress} :
      left.toNat + 1 = hopLimit.toNat → 0 < left →
      Relays s (.block b hopLimit origin) (.now (.block ⟨b, left⟩) (some origin))
  /-- An own block, after a multiple of the time that it took. -/
  | mined {number : Nat} {b : Block} {elapsed : Nat} :
      Relays s (.mined number b elapsed)
        (.later (elapsed * s.publishDelayFactor.toNat) (.block ⟨b, s.blockHopLimit⟩))

/-- Hops that are left after one are one less than there were. -/
theorem lessOne_of_ne_zero {hopLimit : UInt32} (h : lessOne hopLimit ≠ 0) :
    (lessOne hopLimit).toNat + 1 = hopLimit.toNat ∧ 0 < lessOne hopLimit := by
  unfold lessOne at h ⊢
  split at h
  next => exact absurd rfl h
  next hzero =>
    rw [if_neg hzero]
    have hpos : hopLimit.toNat ≠ 0 := fun hnat => hzero (UInt32.toNat_inj.1 hnat)
    have hone : (1 : UInt32) ≤ hopLimit := UInt32.le_iff_toNat_le.2 (Nat.one_le_iff_ne_zero.2 hpos)
    have hsub : (hopLimit - 1).toNat = hopLimit.toNat - 1 := UInt32.toNat_sub_of_le _ _ hone
    refine ⟨by omega, UInt32.lt_iff_toNat_lt.2 (Nat.pos_of_ne_zero fun hnat => h ?_)⟩
    exact UInt32.toNat_inj.1 hnat

theorem mem_relayTransaction {u : Transaction} {hopLimit : UInt32} {exclude : Option PeerAddress}
    {p : Publication} : p ∈ relayTransaction u hopLimit exclude ↔
      hopLimit ≠ 0 ∧ p = .now (.transaction ⟨u, hopLimit⟩) exclude := by
  rw [relayTransaction, List.mem_ite_nil_left, List.mem_singleton]

theorem mem_relayBlock {b : Block} {hopLimit : UInt32} {exclude : Option PeerAddress}
    {p : Publication} : p ∈ relayBlock b hopLimit exclude ↔
      hopLimit ≠ 0 ∧ p = .now (.block ⟨b, hopLimit⟩) exclude := by
  rw [relayBlock, List.mem_ite_nil_left, List.mem_singleton]

/-- **What is passed on is passed on by the rules.** -/
theorem relays_of_mem {t : Turn} {p : Publication} (hp : p ∈ k.relays t) :
    Relays k.settings t.command p := by
  obtain ⟨picker, time, c⟩ := t
  unfold relays at hp
  cases c with
  | submit u =>
    obtain ⟨-, hp⟩ := List.mem_ite_nil_right.1 hp
    obtain ⟨hhops, rfl⟩ := mem_relayTransaction.1 hp
    exact .submit (UInt32.pos_iff_ne_zero.2 hhops)
  | transaction u hopLimit origin =>
    obtain ⟨-, hp⟩ := List.mem_ite_nil_right.1 hp
    obtain ⟨hhops, rfl⟩ := mem_relayTransaction.1 hp
    obtain ⟨hleft, hpos⟩ := lessOne_of_ne_zero hhops
    exact .transaction hleft hpos
  | block b hopLimit origin =>
    obtain ⟨-, hp⟩ := List.mem_ite_nil_right.1 hp
    obtain ⟨hhops, rfl⟩ := mem_relayBlock.1 hp
    obtain ⟨hleft, hpos⟩ := lessOne_of_ne_zero hhops
    exact .block hleft hpos
  | mined number b elapsed =>
    obtain ⟨-, hp⟩ := List.mem_ite_nil_right.1 hp
    rw [List.mem_singleton.1 hp]
    exact .mined

/-- The transactions that a command brings and that are new: at most one. -/
def learns (k : Keeper) : ChainCommand → List Transaction
  | .submit u => if u.WellFormed ∧ k.ledger.knows u.name = false then [u] else []
  | .transaction u _ _ => if u.WellFormed ∧ k.ledger.knows u.name = false then [u] else []
  | .block _ _ _ => []
  | .mined _ _ _ => []

/-- Only a new transaction is passed on. -/
theorem transaction?_relays (t : Turn) :
    ((k.relays t).filterMap Publication.transaction?).Sublist (k.learns t.command) := by
  have hrelay : ∀ u hopLimit exclude,
      ((relayTransaction u hopLimit exclude).filterMap Publication.transaction?).Sublist [u] := by
    intro u hopLimit exclude
    unfold relayTransaction
    split
    next => exact List.nil_sublist _
    next => exact List.Sublist.refl _
  obtain ⟨picker, time, c⟩ := t
  cases c with
  | submit u =>
    by_cases hnew : k.goesOn (.submit u)
    · have hlearns : k.learns (.submit u) = [u] := if_pos hnew
      simp only [relays, hlearns, if_pos hnew]
      exact hrelay u _ _
    · have hlearns : k.learns (.submit u) = [] := if_neg hnew
      simp only [relays, hlearns, if_neg hnew]
      exact List.Sublist.refl _
  | transaction u hopLimit origin =>
    by_cases hnew : k.goesOn (.transaction u hopLimit origin)
    · have hlearns : k.learns (.transaction u hopLimit origin) = [u] := if_pos hnew
      simp only [relays, hlearns, if_pos hnew]
      exact hrelay u _ _
    · have hlearns : k.learns (.transaction u hopLimit origin) = [] := if_neg hnew
      simp only [relays, hlearns, if_neg hnew]
      exact List.Sublist.refl _
  | block b hopLimit origin =>
    simp only [relays, relayBlock]
    split
    next =>
      split
      next => exact List.Sublist.refl _
      next => exact List.Sublist.refl _
    next => exact List.Sublist.refl _
  | mined number b elapsed =>
    simp only [relays]
    split
    next => exact List.Sublist.refl _
    next => exact List.Sublist.refl _

/-- Only an accepted block is passed on. -/
theorem block?_relays (t : Turn) :
    ((k.relays t).filterMap Publication.block?).Sublist (k.accepts t.command) := by
  have hrelay : ∀ u hopLimit exclude,
      (relayTransaction u hopLimit exclude).filterMap Publication.block? = [] := by
    intro u hopLimit exclude
    unfold relayTransaction
    split
    next => rfl
    next => rfl
  obtain ⟨picker, time, c⟩ := t
  cases c with
  | submit u =>
    simp only [relays]
    split
    next => rw [hrelay]; exact List.nil_sublist _
    next => exact List.nil_sublist _
  | transaction u hopLimit origin =>
    simp only [relays]
    split
    next => rw [hrelay]; exact List.nil_sublist _
    next => exact List.nil_sublist _
  | block b hopLimit origin =>
    simp only [relays, relayBlock, accepts]
    split
    next =>
      split
      next => exact List.nil_sublist _
      next => exact List.Sublist.refl _
    next => exact List.Sublist.refl _
  | mined number b elapsed =>
    simp only [relays, accepts]
    split
    next h =>
      rw [if_pos ⟨h.1, h.2.1⟩]
      exact List.Sublist.refl _
    next => exact List.nil_sublist _

/-- The blocks that are published because of a command: at most the accepted one. -/
theorem block?_published (hk : Sound difficulty k.ledger) (t : Turn) :
    ((k.told t).published.filterMap Publication.block?).Sublist (k.accepts t.command) := by
  have hnone : ∀ us : List Transaction,
      (us.map (republish k.settings)).filterMap Publication.block? = [] := by
    intro us
    rw [List.filterMap_map]
    exact List.filterMap_eq_nil_iff.2 fun _ _ => rfl
  rw [told_published hk, List.filterMap_append, hnone, List.nil_append]
  exact block?_relays t

/-! ### Sequences of commands -/

/-- The commands of a sequence that a keeper takes notice of, each with the keeper that was
told it; the one at which it ends is the last. -/
def heard (k : Keeper) : List Turn → List (Keeper × Turn)
  | [] => []
  | t :: ts => (k, t) :: if (k.told t).alive then (k.told t).keeper.heard ts else []

/-- All that is passed on in the course of a sequence of commands. -/
def relayed (k : Keeper) (turns : List Turn) : List Publication :=
  (k.heard turns).flatMap fun x => x.1.relays x.2

/-- All that is published in the course of a sequence of commands. -/
def announced (k : Keeper) (turns : List Turn) : List Publication :=
  (k.heard turns).flatMap fun x => (x.1.told x.2).published

theorem heard_cons_of_alive {t : Turn} (ts : List Turn) (h : (k.told t).alive = true) :
    k.heard (t :: ts) = (k, t) :: (k.told t).keeper.heard ts := by
  rw [heard, if_pos h]

/-- **What holds of a keeper whenever it is told something**: what holds at the start and is
kept by every command that is handled to the end. -/
theorem forall_heard {I : Keeper → List Turn → Prop}
    (hstep : ∀ k t ts, I k (t :: ts) → (k.told t).alive = true → I (k.told t).keeper ts)
    {turns : List Turn} (h : I k turns) : ∀ x ∈ k.heard turns, ∃ ts, I x.1 (x.2 :: ts) := by
  induction turns generalizing k with
  | nil => exact fun x hx => absurd hx List.not_mem_nil
  | cons t ts ih =>
    intro x hx
    rcases List.mem_cons.1 hx with rfl | hx
    · exact ⟨ts, h⟩
    · split at hx
      next halive => exact ih (hstep k t ts h halive) x hx
      next => exact absurd hx List.not_mem_nil

/-- **What is published only if it is not known, and is known from then on, is published
once.** -/
theorem nodup_heard {κ : Type} {I : Keeper → List Turn → Prop} {f : Keeper → Turn → List κ}
    {P : Keeper → κ → Prop}
    (hstep : ∀ k t ts, I k (t :: ts) → (k.told t).alive = true → I (k.told t).keeper ts)
    (hfresh : ∀ k t ts, I k (t :: ts) → (f k t).Nodup ∧ ∀ n ∈ f k t, ¬P k n)
    (hknown : ∀ k t ts, I k (t :: ts) → ∀ n, n ∈ f k t ∨ P k n → P (k.told t).keeper n)
    (turns : List Turn) (h : I k turns) :
    ((k.heard turns).flatMap fun x => f x.1 x.2).Nodup ∧
      ∀ n ∈ (k.heard turns).flatMap fun x => f x.1 x.2, ¬P k n := by
  induction turns generalizing k with
  | nil => exact ⟨List.nodup_nil, fun n hn => absurd hn List.not_mem_nil⟩
  | cons t ts ih =>
    obtain ⟨hnodup, hnew⟩ := hfresh k t ts h
    rw [heard, List.flatMap_cons]
    split
    next halive =>
      obtain ⟨hrest, hlater⟩ := ih (hstep k t ts h halive)
      constructor
      · -- what comes later was not known after this command
        rw [List.nodup_append]
        refine ⟨hnodup, hrest, fun n hn m hm heq => ?_⟩
        subst heq
        exact hlater n hm (hknown k t ts h n (Or.inl hn))
      · intro n hn
        rcases List.mem_append.1 hn with hn | hn
        · exact hnew n hn
        · exact fun hold => hlater n hn (hknown k t ts h n (Or.inr hold))
    next =>
      rw [List.flatMap_nil, List.append_nil]
      exact ⟨hnodup, hnew⟩

/-! ### Transactions are passed on once -/

/-- Once a command was taken in, the ledger is only operated. -/
theorem exists_run_of_takeIn (k : Keeper) (t : Turn) :
    ∃ ops, (k.told t).keeper.ledger = (k.takeIn t.command).ledger.run ops := by
  refine told_keeps (P := fun k' => ∃ ops, k'.ledger = (k.takeIn t.command).ledger.run ops) t
    ⟨[], rfl⟩ ?_ ?_
  · rintro k' b ⟨ops, hops⟩ -
    refine ⟨ops ++ [.block b (k'.attempt.map Attempt.candidate)], ?_⟩
    rw [applyBlock_ledger, run_append, ← hops]
    rfl
  · rintro k' ⟨ops, hops⟩
    exact ⟨ops, (startMining_ledger t.time).trans hops⟩

theorem knows_told {n : Digest} {t : Turn} (h : (k.takeIn t.command).ledger.knows n = true) :
    (k.told t).keeper.ledger.knows n = true := by
  obtain ⟨ops, hops⟩ := k.exists_run_of_takeIn t
  rw [hops]
  exact remembers_run _ ops n h

theorem knows_takeIn {n : Digest} (c : ChainCommand) (h : k.ledger.knows n = true) :
    (k.takeIn c).ledger.knows n = true := by
  obtain ⟨ops, hops⟩ := k.exists_run_takeIn c
  rw [hops]
  exact remembers_run k.ledger ops n h

/-- A transaction that is passed on was not known, and is known from then on. -/
theorem knows_of_mem_learns {u : Transaction} {c : ChainCommand} (hu : u ∈ k.learns c) :
    k.ledger.knows u.name = false ∧ (k.takeIn c).ledger.knows u.name = true := by
  have hlearn : u.WellFormed → k.ledger.knows u.name = false →
      (k.learn u).ledger.knows u.name = true := by
    intro hwf hnew
    rw [learn_ledger, if_pos hwf, addTransaction, if_neg (by simp [hnew])]
    exact knows_iff.2 (Or.inl (Catalog.contains_add.2 (Or.inr rfl)))
  cases c with
  | submit v =>
    obtain ⟨⟨hwf, hnew⟩, rfl⟩ : (v.WellFormed ∧ k.ledger.knows v.name = false) ∧ u = v := by
      simpa [learns] using hu
    exact ⟨hnew, hlearn hwf hnew⟩
  | transaction v hopLimit origin =>
    obtain ⟨⟨hwf, hnew⟩, rfl⟩ : (v.WellFormed ∧ k.ledger.knows v.name = false) ∧ u = v := by
      simpa [learns] using hu
    exact ⟨hnew, hlearn hwf hnew⟩
  | block b hopLimit origin => exact absurd hu List.not_mem_nil
  | mined number b elapsed => exact absurd hu List.not_mem_nil

theorem nodup_learns (c : ChainCommand) : ((k.learns c).map Transaction.name).Nodup := by
  cases c with
  | submit u => simp only [learns]; split <;> simp
  | transaction u hopLimit origin => simp only [learns]; split <;> simp
  | block b hopLimit origin => exact List.nodup_nil
  | mined number b elapsed => exact List.nodup_nil

/-- **Each transaction is passed on once.** -/
theorem nodup_names_relayed (k : Keeper) (turns : List Turn) :
    (((k.relayed turns).filterMap Publication.transaction?).map Transaction.name).Nodup := by
  have hmem : ∀ (k : Keeper) (t : Turn) (n : Digest),
      n ∈ ((k.relays t).filterMap Publication.transaction?).map Transaction.name →
        ∃ u ∈ k.learns t.command, u.name = n := by
    intro k t n hn
    obtain ⟨u, hu, rfl⟩ := List.mem_map.1 hn
    exact ⟨u, (transaction?_relays t).mem hu, rfl⟩
  have hrun := nodup_heard (k := k) (I := fun _ _ => True)
    (f := fun k t => ((k.relays t).filterMap Publication.transaction?).map Transaction.name)
    (P := fun k n => k.ledger.knows n = true) (fun _ _ _ _ _ => trivial) ?_ ?_ turns
    trivial
  · rw [relayed, List.filterMap_flatMap, List.map_flatMap]
    exact hrun.1
  · intro k t ts _
    refine ⟨(nodup_learns t.command).sublist ((transaction?_relays t).map _), fun n hn => ?_⟩
    obtain ⟨u, hu, rfl⟩ := hmem k t n hn
    rw [(knows_of_mem_learns hu).1]
    simp
  · rintro k t ts - n (hn | hn)
    · obtain ⟨u, hu, rfl⟩ := hmem k t n hn
      exact knows_told (knows_of_mem_learns hu).2
    · exact knows_told (knows_takeIn t.command hn)

/-! ### Blocks are published once -/

/-- **At rest no block is accepted that is known**: on the chain it is old, and pooled it
could be taken for new only on top of the chain. -/
theorem not_isAccepted_of_holds {l m : Ledger} {b : Block} {mining : Option Block}
    {o : BlockOutcome} (harrival : Arrival l b mining m o) (hrest : l.extensions = [])
    (hb : l.Holds b) : o.isAccepted = false := by
  cases harrival with
  | invalid => rfl
  | ignored => rfl
  | extended _ hnew hprev =>
    have hpooled : b ∈ l.pooled.toList := hb.resolve_left fun hc => hnew b hc rfl
    have hext : b ∈ l.extensions := mem_extensions.2 ⟨hpooled, hprev, hnew⟩
    rw [hrest] at hext
    exact absurd hext List.not_mem_nil
  | reorganized _ hkind _ =>
    obtain ⟨hnew, -, hfree⟩ := kindOf_eq_unknownParent.1 hkind
    have hpooled : b ∈ l.pooled.toList := hb.resolve_left fun hc => hnew b hc rfl
    exact absurd rfl (Catalog.contains_eq_false_iff.1 hfree b hpooled)
  | stored _ hkind _ =>
    obtain ⟨hnew, -, hfree⟩ := kindOf_eq_unknownParent.1 hkind
    have hpooled : b ∈ l.pooled.toList := hb.resolve_left fun hc => hnew b hc rfl
    exact absurd rfl (Catalog.contains_eq_false_iff.1 hfree b hpooled)

/-- A command brings the block that is accepted because of it. -/
theorem accepts_sublist (c : ChainCommand) : (k.accepts c).Sublist c.blocks := by
  cases c with
  | submit u => exact List.Sublist.refl _
  | transaction u hopLimit origin => exact List.Sublist.refl _
  | block b hopLimit origin =>
    rw [accepts]
    split
    next => exact List.Sublist.refl _
    next => exact List.nil_sublist _
  | mined number b elapsed =>
    rw [accepts]
    split
    next => exact List.Sublist.refl _
    next => exact List.nil_sublist _

theorem nodup_accepts (c : ChainCommand) : ((k.accepts c).map Block.nonce).Nodup := by
  refine List.Nodup.sublist ((accepts_sublist c).map _) ?_
  cases c with
  | submit u => exact List.nodup_nil
  | transaction u hopLimit origin => exact List.nodup_nil
  | block b hopLimit origin => exact List.nodup_singleton _
  | mined number b elapsed => exact List.nodup_singleton _

/-- An accepted block was not known to a keeper at rest, and is known once it was taken in. -/
theorem holds_of_mem_accepts {c : ChainCommand} {b : Block} (hrest : k.ledger.extensions = [])
    (hb : b ∈ k.accepts c) : ¬k.ledger.Holds b ∧ (k.takeIn c).ledger.Holds b := by
  rcases k.takeIn_cases c with ⟨-, hnone⟩ | ⟨-, -, hnone⟩ | ⟨d, mining, o, harrival, hmem⟩
  · rw [hnone] at hb
    exact absurd hb List.not_mem_nil
  · rw [hnone] at hb
    exact absurd hb List.not_mem_nil
  · obtain ⟨haccepted, rfl⟩ := (hmem b).1 hb
    refine ⟨fun hknown => ?_, harrival.holds_of_isAccepted haccepted⟩
    rw [not_isAccepted_of_holds harrival hrest hknown] at haccepted
    exact absurd haccepted (by simp)

/-- The blocks that are known after a command were known before, or the command brought
them. -/
theorem holds_or_mem_blocks {t : Turn} {b : Block} (hb : (k.told t).keeper.ledger.Holds b) :
    k.ledger.Holds b ∨ b ∈ t.command.blocks := by
  have htaken : (k.takeIn t.command).ledger.Holds b := by
    refine told_keeps (P := fun k' => k'.ledger.Holds b → (k.takeIn t.command).ledger.Holds b) t
      id ?_ ?_ hb
    · intro k' c hk' hc hheld
      rcases (k'.applyBlock_arrival c).holds hheld with hold | rfl
      · exact hk' hold
      · exact hk' (Or.inr (mem_extensions.1 hc).1)
    · intro k' hk' hheld
      rw [startMining_ledger] at hheld
      exact hk' hheld
  rcases k.takeIn_cases t.command with ⟨hsame, -⟩ | ⟨u, hadd, -⟩ | ⟨d, mining, o, harrival, hmem⟩
  · rw [hsame] at htaken
    exact Or.inl htaken
  · rw [hadd] at htaken
    exact Or.inl ((holds_addTransaction u b).1 htaken)
  · refine (harrival.holds_or_accepted htaken).imp_right fun h => ?_
    exact (accepts_sublist t.command).mem ((hmem b).2 h)

/-- A nonce that is known stays known, also that of a block which was just taken in. -/
theorem exists_holds_told (hk : Sound difficulty k.ledger) {t : Turn} {b : Block}
    (hb : k.ledger.Holds b ∨ (k.takeIn t.command).ledger.Holds b) :
    ∃ c, (k.told t).keeper.ledger.Holds c ∧ c.nonce = b.nonce := by
  rcases hb with hb | hb
  · obtain ⟨ops, hops⟩ := k.exists_run_told t
    rw [hops]
    exact exists_holds_run hk hb ops
  · obtain ⟨ops, hops⟩ := k.exists_run_of_takeIn t
    rw [hops]
    exact exists_holds_run (sound_takeIn hk t.command) hb ops

/-- A keeper between two commands, which knows no other blocks than those of a kind and is
told no others. -/
structure Offered (S : Block → Prop) (difficulty : Nat) (k : Keeper) (turns : List Turn) :
    Prop where
  sound : Sound difficulty k.ledger
  atRest : AtRest k
  known : ∀ b, k.ledger.Holds b → S b
  told : ∀ t ∈ turns, ∀ b ∈ t.command.blocks, S b

theorem Offered.next {S : Block → Prop} {t : Turn} {ts : List Turn}
    (h : Offered S difficulty k (t :: ts)) (halive : (k.told t).alive = true) :
    Offered S difficulty (k.told t).keeper ts where
  sound := sound_told h.sound t
  atRest := h.atRest.told h.sound halive
  known b hb := (holds_or_mem_blocks hb).elim (h.known b) (h.told t List.mem_cons_self b)
  told u hu := h.told u (List.mem_cons_of_mem t hu)

/-- **Each block is published once**, where blocks are known by their nonces. -/
theorem nodup_nonces_announced {S : Block → Prop}
    (hS : ∀ b c, S b → S c → b.nonce = c.nonce → b = c) {turns : List Turn}
    (h : Offered S difficulty k turns) :
    (((k.announced turns).filterMap Publication.block?).map Block.nonce).Nodup := by
  have hmem : ∀ (k : Keeper) (t : Turn) (ts : List Turn) (n : Digest),
      Offered S difficulty k (t :: ts) →
      n ∈ ((k.told t).published.filterMap Publication.block?).map Block.nonce →
        ∃ b ∈ k.accepts t.command, b.nonce = n := by
    intro k t ts n h hn
    obtain ⟨b, hb, rfl⟩ := List.mem_map.1 hn
    exact ⟨b, (block?_published h.sound t).mem hb, rfl⟩
  have hrest : ∀ (k : Keeper) (ts : List Turn), Offered S difficulty k ts →
      k.ledger.extensions = [] := fun k ts h =>
    extensions_eq_nil_of_nextPooledBlock (h.atRest.connected .first)
  have hrun := nodup_heard (I := Offered S difficulty)
    (f := fun k t => ((k.told t).published.filterMap Publication.block?).map Block.nonce)
    (P := fun k n => ∃ c, k.ledger.Holds c ∧ c.nonce = n)
    (fun _ _ _ h halive => h.next halive) ?_ ?_ turns h
  · rw [announced, List.filterMap_flatMap, List.map_flatMap]
    exact hrun.1
  · intro k t ts h
    have hsub := (block?_published h.sound t).map Block.nonce
    refine ⟨(nodup_accepts t.command).sublist hsub, fun n hn => ?_⟩
    rintro ⟨c, hc, rfl⟩
    obtain ⟨b, hb, hnonce⟩ := hmem k t ts _ h hn
    -- the block that is known under this nonce is the accepted one
    have hoffered : S b := h.told t List.mem_cons_self b ((accepts_sublist t.command).mem hb)
    obtain rfl : b = c := hS b c hoffered (h.known c hc) hnonce
    exact (holds_of_mem_accepts (hrest k _ h) hb).1 hc
  · rintro k t ts h n (hn | ⟨c, hc, rfl⟩)
    · obtain ⟨b, hb, rfl⟩ := hmem k t ts n h hn
      exact exists_holds_told h.sound (Or.inr (holds_of_mem_accepts (hrest k _ h) hb).2)
    · exact exists_holds_told h.sound (Or.inl hc)

/-! ### Each block and each transaction is passed on once -/

theorem settings_of_mem_heard {turns : List Turn} : ∀ x ∈ k.heard turns,
    x.1.settings = k.settings := by
  intro x hx
  obtain ⟨-, h⟩ := forall_heard (I := fun k' _ => k'.settings = k.settings)
    (fun k' t _ hk' _ => (k'.told_settings t).trans hk') rfl x hx
  exact h

theorem sound_of_mem_heard (hk : Sound difficulty k.ledger) {turns : List Turn} :
    ∀ x ∈ k.heard turns, Sound difficulty x.1.ledger := by
  intro x hx
  obtain ⟨-, h⟩ := forall_heard (I := fun k' _ => Sound difficulty k'.ledger)
    (fun k' t _ hk' _ => sound_told hk' t) hk x hx
  exact h

/-- **Each block and each transaction is passed on once**, whatever a keeper is told, how
often, and in which order.  Because of a command it publishes the transactions that wait
again because the end of the chain was replaced, and then what it passes on of the command
by the rules.  No two transactions of one name are passed on; and where no two blocks
with one nonce are offered, no two blocks with one nonce are published at all. -/
theorem relayed_once (settings : ChainSettings) (identity : Digest) (turns : List Turn) :
    (∀ x ∈ (new settings identity).heard turns,
      (x.1.told x.2).published =
        (x.1.restored x.2.command).map (republish settings) ++ x.1.relays x.2 ∧
      ∀ p ∈ x.1.relays x.2, Relays settings x.2.command p) ∧
    ((((new settings identity).relayed turns).filterMap Publication.transaction?).map
      Transaction.name).Nodup ∧
    ((∀ b ∈ turns.flatMap fun t => t.command.blocks,
        ∀ c ∈ turns.flatMap fun t => t.command.blocks, b.nonce = c.nonce → b = c) →
      ((((new settings identity).announced turns).filterMap Publication.block?).map
        Block.nonce).Nodup) := by
  have hsound : Sound settings.difficulty (new settings identity).ledger := sound_new _
  refine ⟨fun x hx => ?_, nodup_names_relayed _ turns, fun hoffered => ?_⟩
  · have hsettings : x.1.settings = settings := settings_of_mem_heard x hx
    rw [← hsettings]
    exact ⟨told_published (sound_of_mem_heard hsound x hx) x.2, fun p hp => relays_of_mem hp⟩
  · refine nodup_nonces_announced (S := fun b => b ∈ turns.flatMap fun t => t.command.blocks)
      (fun b c hb hc => hoffered b hb c hc) ⟨hsound, atRest_new settings identity, ?_, ?_⟩
    · rintro b (hb | hb)
      · exact absurd hb List.not_mem_nil
      · exact absurd hb List.not_mem_nil
    · exact fun t ht b hb => List.mem_flatMap.2 ⟨t, ht, hb⟩

/-- A payment in the first block of two that compete. -/
def contested : Transaction := ⟨ending 5, ending 6, 1, ending 7⟩

/-- A peer sends a block, a sibling of it and a block on top of the sibling, and all but the
sibling again. -/
def echoes : List Turn :=
  [⟨ending 0, ending 1, default, [contested]⟩, ⟨ending 0, ending 1, default, [contested]⟩,
    bare 0 2, bare 2 3, bare 2 3, ⟨ending 0, ending 1, default, [contested]⟩].map
    fun b => ⟨.first, default, .block b 2 (.v4 ⟨127, 0, 0, 1⟩ 5000)⟩

/-- The block that is cut off and comes again is not published again. -/
theorem nodup_announced_echoes :
    (∀ b ∈ echoes.flatMap fun t => t.command.blocks,
      ∀ c ∈ echoes.flatMap fun t => t.command.blocks, b.nonce = c.nonce → b = c) ∧
    (((new { difficulty := 0 } .zero).heard echoes).map fun x =>
      x.1.restored x.2.command) = [[], [], [], [contested], [], []] ∧
    ((((new { difficulty := 0 } .zero).announced echoes).filterMap Publication.block?).map
      Block.nonce) = [ending 1, ending 2, ending 3] ∧
    ((((new { difficulty := 0 } .zero).announced echoes).filterMap Publication.block?).map
      Block.nonce).Nodup :=
  ⟨by decide +kernel, by decide +kernel, by decide +kernel,
    (relayed_once { difficulty := 0 } .zero echoes).2.2 (by decide +kernel)⟩

end Keeper
end GossipLedger
