import GossipLedger.Proofs.Keeper.LongestChain

/-!
# Keepers at rest

Between two commands a keeper is at rest.  It mines exactly if transactions wait; what
it mines goes on top of its chain and has nothing in it but the reward and transactions
that wait; and no pooled block is left that could be connected.

The commands keep this in different ways.  One that does not move the head leaves the
attempt alone, and the attempt stays good: the chain is the same, and what waits only
becomes more.  One that moves the head ends the attempt, and then pooled blocks are
connected until none is left, which makes room for a new attempt.

## Main definitions

* `Keeper.UpToDate` — an attempt that is still worth making.
* `Keeper.AtRest` — a keeper between two commands.
* `Keeper.Connects` — one more pooled block is connected, whichever is picked.
* `Keeper.started` — the attempt that is started while a command is handled.

## Main results

* `Keeper.acc_connects`, `Keeper.connect_eq_of_le` — connecting comes to an end, and
  within the steps that are allowed for it.
* `Keeper.number_le_of_handled` — the numbers of attempts stay below the number of commands.
* `Keeper.AtRest.told` — a command leaves a keeper at rest.
* `Keeper.atRest_of_handled` — **a keeper is at rest after every command, and the numbers
  of its attempts increase.**
-/

namespace GossipLedger

namespace Keeper

open Ledger

variable {k : Keeper} {difficulty : Nat}

/-- An attempt is worth making: its block goes on top of the chain, it has the reward and
otherwise only transactions that wait, and no attempt was started after it. -/
structure UpToDate (k : Keeper) (a : Attempt) : Prop where
  previous : a.candidate.previous = k.ledger.headHash
  transactions : ∃ ts, a.candidate.transactions =
    .coinbase k.miner k.settings.coinbaseReward :: ts ∧ ∀ t ∈ ts, t ∈ k.ledger.pending.toList
  latest : a.number = k.issued

/-- An attempt is made only where transactions wait, and it is up to date. -/
structure Steady (k : Keeper) : Prop where
  waits : k.attempt.isSome = true → k.ledger.pending.isEmpty = false
  upToDate : ∀ a, k.attempt = some a → k.UpToDate a

/-- **A keeper between two commands.** -/
structure AtRest (k : Keeper) : Prop where
  /-- It mines exactly if transactions wait. -/
  mines_iff : k.attempt.isSome = true ↔ k.ledger.pending.isEmpty = false
  /-- What it mines is worth mining. -/
  upToDate : ∀ a, k.attempt = some a → k.UpToDate a
  /-- Nothing is left to connect. -/
  connected : ∀ picker, k.ledger.nextPooledBlock picker = none

/-- One more pooled block is connected. -/
def Connects (k k' : Keeper) : Prop :=
  ∃ b ∈ k.ledger.extensions, (k.applyBlock b).2.1.movedHead = true ∧ k' = (k.applyBlock b).1

/-- The attempt that is started while a command is handled. -/
def started (k : Keeper) (t : Turn) : Option Attempt :=
  if (k.told t).keeper.attempt = k.attempt then none else (k.told t).keeper.attempt

/-! ### What a stage leaves alone -/

@[simp] theorem startMining_settings (time : Timestamp) :
    (k.startMining time).settings = k.settings := by
  unfold startMining
  split
  next => rfl
  next => split <;> rfl

/-- Nothing but the ledger and the attempt changes as a command is taken in, and the time
that the last own block took. -/
theorem takeIn_frame (k : Keeper) (c : ChainCommand) :
    (k.takeIn c).settings = k.settings ∧ (k.takeIn c).issued = k.issued := by
  have hlearn : ∀ t, (k.learn t).settings = k.settings ∧ (k.learn t).issued = k.issued := by
    intro t
    unfold learn
    split
    next => exact ⟨rfl, rfl⟩
    next => exact ⟨rfl, rfl⟩
  cases c with
  | submit t => exact hlearn t
  | transaction t hopLimit origin => exact hlearn t
  | block b hopLimit origin => exact ⟨applyBlock_settings b, applyBlock_issued b⟩
  | mined number b elapsed =>
    rw [takeIn]
    split
    next => exact ⟨applyBlock_settings b, applyBlock_issued b⟩
    next => exact ⟨rfl, rfl⟩

/-! ### Connecting comes to an end -/

/-- **Pooled blocks cannot be connected for ever**, whichever are picked. -/
theorem acc_connects (hk : Sound difficulty k.ledger) :
    Acc (fun k' k => Connects k k') k := by
  -- each connected block is an orphan less
  induction hn : (orphans k.ledger.chain k.ledger.pooled).length using Nat.strong_induction_on
    generalizing k with
  | _ n ih =>
    refine Acc.intro k ?_
    rintro k' ⟨b, hb, -, rfl⟩
    obtain ⟨-, hsound, hless⟩ := applyBlock_extension hk hb
    exact ih _ (hn ▸ hless) hsound rfl

/-- With as many steps as there are orphans nothing is left to connect, and one step more
changes nothing. -/
theorem connect_succ {picker : Picker Block} {fuel : Nat} (hk : Sound difficulty k.ledger)
    (hfuel : (orphans k.ledger.chain k.ledger.pooled).length ≤ fuel) :
    (k.connect picker fuel).1.ledger.extensions = [] ∧
      k.connect picker (fuel + 1) = k.connect picker fuel := by
  induction fuel generalizing k with
  | zero =>
    have hnone := extensions_eq_nil_of_orphans (List.length_eq_zero_iff.1 (Nat.le_zero.1 hfuel))
    have hnext : k.ledger.nextPooledBlock picker = none := picker.pick_eq_none_iff.2 hnone
    refine ⟨hnone, ?_⟩
    simp only [connect, hnext]
  | succ fuel ih =>
    cases hnext : k.ledger.nextPooledBlock picker with
    | none =>
      have hstop : ∀ n, k.connect picker (n + 1) = (k, []) := by
        intro n
        rw [connect, hnext]
      rw [hstop, hstop]
      exact ⟨extensions_eq_nil_of_nextPooledBlock hnext, rfl⟩
    | some b =>
      obtain ⟨hmoved, hsound, hless⟩ :=
        applyBlock_extension hk (mem_extensions_of_nextPooledBlock hnext)
      have hgo : ∀ n, k.connect picker (n + 1) =
          (((k.applyBlock b).1.connect picker n).1,
            (k.applyBlock b).2.2 ++ ((k.applyBlock b).1.connect picker n).2) := by
        intro n
        rw [connect, hnext]
        simp only [hmoved, if_true]
      obtain ⟨hnone, hsame⟩ := ih hsound (by omega)
      rw [hgo, hgo, hsame]
      exact ⟨hnone, rfl⟩

/-- **More steps than there are pooled blocks change nothing.** -/
theorem connect_eq_of_le {picker : Picker Block} {fuel : Nat} (hk : Sound difficulty k.ledger)
    (hfuel : k.ledger.pooled.size ≤ fuel) :
    k.connect picker fuel = k.connect picker k.ledger.pooled.size := by
  have hsize : (orphans k.ledger.chain k.ledger.pooled).length ≤ k.ledger.pooled.size :=
    List.length_filter_le _ _
  induction fuel, hfuel using Nat.le_induction with
  | base => rfl
  | succ fuel hle ih => rw [(connect_succ hk (hsize.trans hle)).2, ih]

/-! ### Stages -/

/-- A keeper that makes no attempt is steady. -/
theorem steady_of_attempt_eq_none (h : k.attempt = none) : Steady k where
  waits hsome := absurd hsome (by simp [h])
  upToDate a ha := absurd ha (by simp [h])

/-- An attempt stays good while the chain stays and what waits only becomes more. -/
theorem Steady.learn (h : Steady k) (t : Transaction) : Steady (k.learn t) := by
  unfold Keeper.learn
  split
  next =>
    refine ⟨fun hsome => ?_, fun a ha => ?_⟩
    · -- what waited before still waits
      obtain ⟨u, hu⟩ : ∃ u, u ∈ k.ledger.pending.toList := by
        have hwaits := h.waits hsome
        rw [Catalog.isEmpty, List.isEmpty_eq_false_iff_exists_mem] at hwaits
        exact hwaits
      rw [Catalog.isEmpty, List.isEmpty_eq_false_iff_exists_mem]
      exact ⟨u, mem_addTransaction_of_mem hu⟩
    · obtain ⟨hprevious, ⟨ts, hts, hwait⟩, hlatest⟩ := h.upToDate a ha
      refine ⟨?_, ⟨ts, hts, fun u hu => mem_addTransaction_of_mem (hwait u hu)⟩, hlatest⟩
      rw [hprevious, headHash_eq, headHash_eq, addTransaction_chain]
  next => exact h

/-- After a command that goes on, the attempt is up to date or has ended. -/
theorem Steady.takeIn (h : Steady k) {c : ChainCommand} (hgoes : k.goesOn c) :
    Steady (k.takeIn c) := by
  cases c with
  | submit t => exact h.learn t
  | transaction t hopLimit origin => exact h.learn t
  | block b hopLimit origin => exact steady_of_attempt_eq_none (applyBlock_attempt_eq_none hgoes)
  | mined number b elapsed =>
    have hawaits : k.awaits number := hgoes
    rw [Keeper.takeIn, if_pos hawaits]
    refine steady_of_attempt_eq_none ?_
    rcases (k.finish elapsed).applyBlock_attempt b with hnone | hsame
    · exact hnone
    · exact hsame

/-- Connecting ends the attempt or does nothing. -/
theorem Steady.connect (h : Steady k) (hk : Sound difficulty k.ledger) (picker : Picker Block)
    (fuel : Nat) : Steady (k.connect picker fuel).1 := by
  have hkeeps := connect_keeps (P := fun k => Sound difficulty k.ledger ∧ Steady k)
    (fun k' b hk' hb => by
      obtain ⟨hmoved, hsound, -⟩ := applyBlock_extension hk'.1 hb
      exact ⟨hsound, steady_of_attempt_eq_none (applyBlock_attempt_eq_none hmoved)⟩)
    picker fuel ⟨hk, h⟩
  exact hkeeps.2

/-- An attempt is started exactly if none is being made and transactions wait.  Its block
has the reward and all that waits. -/
theorem startMining_cases (k : Keeper) (time : Timestamp) :
    (k.attempt.isSome = true ∧ k.startMining time = k) ∨
      (k.attempt = none ∧ k.ledger.pending.isEmpty = true ∧ k.startMining time = k) ∨
      (k.attempt = none ∧ k.ledger.pending.isEmpty = false ∧ k.startMining time =
        { k with
          attempt := some ⟨k.issued + 1, .candidate k.ledger.headHash time
            (.coinbase k.miner k.settings.coinbaseReward :: k.ledger.pending.toList.filter fun t =>
              t.name ≠ (Transaction.coinbase k.miner k.settings.coinbaseReward).name)⟩
          issued := k.issued + 1 }) := by
  unfold startMining buildCandidate
  cases hattempt : k.attempt with
  | some a => exact Or.inl ⟨rfl, rfl⟩
  | none =>
    cases hempty : k.ledger.pending.isEmpty with
    | true => exact Or.inr (Or.inl ⟨rfl, rfl, by simp⟩)
    | false => exact Or.inr (Or.inr ⟨rfl, rfl, by simp⟩)

/-- **Where nothing is left to connect, the start of an attempt brings a keeper to rest.** -/
theorem Steady.startMining (h : Steady k) (hnone : k.ledger.extensions = []) (time : Timestamp) :
    AtRest (k.startMining time) := by
  have hconnected : ∀ picker, k.ledger.nextPooledBlock picker = none :=
    fun picker => picker.pick_eq_none_iff.2 hnone
  rcases k.startMining_cases time with ⟨hsome, hsame⟩ | ⟨hidle, hempty, hsame⟩ |
    ⟨hidle, hwaits, hstarts⟩
  · rw [hsame]
    exact ⟨iff_of_true hsome (h.waits hsome), h.upToDate, hconnected⟩
  · rw [hsame]
    refine ⟨?_, h.upToDate, hconnected⟩
    simp [hidle, hempty]
  · rw [hstarts]
    refine ⟨iff_of_true rfl hwaits, ?_, hconnected⟩
    rintro a ⟨⟩
    exact ⟨rfl, ⟨_, rfl, fun t ht => List.mem_of_mem_filter ht⟩, rfl⟩

/-- **A command that does not go on leaves a keeper at rest**: the attempt, the chain and
what waits stay as they are. -/
theorem AtRest.takeIn (h : AtRest k) {c : ChainCommand} (hstays : ¬k.goesOn c) :
    AtRest (k.takeIn c) := by
  have hnone : (k.takeIn c).ledger.extensions = [] :=
    extensions_takeIn hstays (extensions_eq_nil_of_nextPooledBlock (h.connected .first))
  cases c with
  | submit t =>
    rw [Keeper.takeIn, learn_eq_self hstays]
    exact h
  | transaction t hopLimit origin =>
    rw [Keeper.takeIn, learn_eq_self hstays]
    exact h
  | block b hopLimit origin =>
    have hmoved : (k.applyBlock b).2.1.movedHead = false := by simpa [goesOn] using hstays
    obtain ⟨hchain, hpending⟩ := (k.applyBlock_arrival b).eq_of_stays hmoved
    have hconnected : ∀ picker, (k.applyBlock b).1.ledger.nextPooledBlock picker = none :=
      fun picker => picker.pick_eq_none_iff.2 hnone
    rw [Keeper.takeIn]
    rw [applyBlock_keeper, hmoved] at hconnected ⊢
    refine ⟨?_, fun a ha => ?_, hconnected⟩
    · simp only [hpending]
      exact h.mines_iff
    · obtain ⟨hprevious, htransactions, hlatest⟩ := h.upToDate a ha
      refine ⟨?_, ?_, hlatest⟩
      · rw [hprevious, headHash_eq, headHash_eq, ← hchain]
      · simp only [hpending]
        exact htransactions
  | mined number b elapsed =>
    have hawaits : ¬k.awaits number := hstays
    rw [Keeper.takeIn, if_neg hawaits]
    exact h

theorem AtRest.steady (h : AtRest k) : Steady k := ⟨h.mines_iff.1, h.upToDate⟩

/-! ### Commands -/

/-- **A command that is handled to the end leaves a keeper at rest.** -/
theorem AtRest.told (h : AtRest k) (hk : Sound difficulty k.ledger) {t : Turn}
    (halive : (k.told t).alive = true) : AtRest (k.told t).keeper := by
  rw [told_keeper]
  by_cases hgoes : k.goesOn t.command
  · rw [if_pos ⟨hgoes, halive⟩]
    have hsound := sound_takeIn hk t.command
    refine ((h.steady.takeIn hgoes).connect hsound t.picker _).startMining ?_ t.time
    exact (connect_succ hsound (List.length_filter_le _ _)).1
  · rw [if_neg fun hboth => hgoes hboth.1]
    exact h.takeIn hgoes

/-- A command starts at most one attempt, and its number is the next one. -/
theorem told_attempt (k : Keeper) (t : Turn) :
    ((k.told t).keeper.issued = k.issued ∧
        ((k.told t).keeper.attempt = none ∨ (k.told t).keeper.attempt = k.attempt)) ∨
      ((k.told t).keeper.issued = k.issued + 1 ∧
        ∃ candidate, (k.told t).keeper.attempt = some ⟨k.issued + 1, candidate⟩) := by
  -- until the last stage no attempt is started
  have htake : (k.takeIn t.command).issued = k.issued ∧
      ((k.takeIn t.command).attempt = none ∨ (k.takeIn t.command).attempt = k.attempt) := by
    refine ⟨(k.takeIn_frame t.command).2, ?_⟩
    have hlearn : ∀ u, (k.learn u).attempt = k.attempt := by
      intro u
      unfold learn
      split <;> rfl
    cases t.command with
    | submit u => exact Or.inr (hlearn u)
    | transaction u hopLimit origin => exact Or.inr (hlearn u)
    | block b hopLimit origin => exact k.applyBlock_attempt b
    | mined number b elapsed =>
      rw [takeIn]
      split
      next =>
        rcases (k.finish elapsed).applyBlock_attempt b with hnone | hsame
        · exact Or.inl hnone
        · exact Or.inl hsame
      next => exact Or.inr rfl
  rw [told_keeper]
  split
  next =>
    obtain ⟨hissued, hattempt⟩ := connect_keeps
      (P := fun k' => k'.issued = k.issued ∧ (k'.attempt = none ∨ k'.attempt = k.attempt))
      (fun k' b hk' _ => by
        refine ⟨(applyBlock_issued b).trans hk'.1, ?_⟩
        rcases k'.applyBlock_attempt b with hnone | hsame
        · exact Or.inl hnone
        · rw [hsame]
          exact hk'.2)
      t.picker (k.takeIn t.command).ledger.pooled.size htake
    rcases startMining_cases _ t.time with ⟨-, hsame⟩ | ⟨-, -, hsame⟩ | ⟨-, -, hstarts⟩
    · rw [hsame]
      exact Or.inl ⟨hissued, hattempt⟩
    · rw [hsame]
      exact Or.inl ⟨hissued, hattempt⟩
    · rw [hstarts, hissued]
      exact Or.inr ⟨rfl, _, rfl⟩
  next => exact Or.inl htake

/-- A started attempt has the number that was issued last. -/
theorem number_of_started {t : Turn} {a : Attempt} (h : a ∈ k.started t) :
    a.number = (k.told t).keeper.issued ∧ k.issued < a.number := by
  unfold started at h
  split at h
  next => exact absurd h (by simp)
  next hnew =>
    rcases k.told_attempt t with ⟨-, hnone | hsame⟩ | ⟨hissued, candidate, hattempt⟩
    · rw [hnone] at h
      exact absurd h (by simp)
    · exact absurd hsame hnew
    · rw [hattempt, Option.mem_some_iff] at h
      rw [hissued, ← h]
      exact ⟨rfl, Nat.lt_succ_self _⟩

theorem issued_le_told (k : Keeper) (t : Turn) : k.issued ≤ (k.told t).keeper.issued := by
  rcases k.told_attempt t with ⟨h, -⟩ | ⟨h, -⟩ <;> omega

theorem issued_told_le (k : Keeper) (t : Turn) : (k.told t).keeper.issued ≤ k.issued + 1 := by
  rcases k.told_attempt t with ⟨h, -⟩ | ⟨h, -⟩ <;> omega

/-- A keeper ends only on the result of its own attempt, if the delay is beyond measure. -/
theorem alive_told {t : Turn} (h : ∀ number b elapsed, t.command = .mined number b elapsed →
    elapsed * k.settings.publishDelayFactor.toNat / 1000 ≤ maxDelaySeconds) :
    (k.told t).alive = true := by
  obtain ⟨picker, time, c⟩ := t
  cases c with
  | submit t => rfl
  | transaction t hopLimit origin => rfl
  | block b hopLimit origin => rfl
  | mined number b elapsed =>
    have hdelay := h number b elapsed rfl
    show (k.onMined picker time number b elapsed).alive = true
    unfold onMined
    split
    next => rfl
    next =>
      have hsettings : ({ k with attempt := none, lastBlockTime := elapsed }.applyBlock
          b).1.settings = k.settings := applyBlock_settings b
      rw [← hsettings] at hdelay
      rcases { k with attempt := none, lastBlockTime := elapsed }.applyBlock b
        with ⟨k', outcome, published⟩
      simp only at hdelay ⊢
      rw [if_neg fun hover => absurd hdelay (Nat.not_le.2 hover.2)]

theorem told_settings (k : Keeper) (t : Turn) : (k.told t).keeper.settings = k.settings :=
  told_keeps (P := fun k' => k'.settings = k.settings) t (k.takeIn_frame t.command).1
    (fun _ b hk _ => (applyBlock_settings b).trans hk)
    fun _ hk => (startMining_settings t.time).trans hk

/-! ### Sequences of commands -/

/-- All commands are handled to the end if no result of an attempt comes with a delay
beyond measure. -/
theorem length_handled {turns : List Turn} (h : ∀ t ∈ turns, ∀ number b elapsed,
    t.command = .mined number b elapsed →
      elapsed * k.settings.publishDelayFactor.toNat / 1000 ≤ maxDelaySeconds) :
    (k.handled turns).length = turns.length := by
  induction turns generalizing k with
  | nil => rfl
  | cons t ts ih =>
    have halive := alive_told (h t List.mem_cons_self)
    have hrest := ih (k := (k.told t).keeper) fun u hu => by
      rw [told_settings]
      exact h u (List.mem_cons_of_mem _ hu)
    rw [handled_cons_of_alive ts halive, List.length_cons, List.length_cons, hrest]

/-- **What holds of every keeper at rest, holds of one that was told every command.** -/
theorem AtRest.handled (h : AtRest k) (hk : Sound difficulty k.ledger) {turns : List Turn} :
    ∀ x ∈ k.handled turns, Sound difficulty x.1.ledger ∧ AtRest (x.1.told x.2).keeper := by
  induction turns generalizing k with
  | nil =>
    intro x hx
    exact absurd hx List.not_mem_nil
  | cons t ts ih =>
    intro x hx
    by_cases halive : (k.told t).alive = true
    · rw [handled_cons_of_alive ts halive] at hx
      rcases List.mem_cons.1 hx with rfl | hx
      · exact ⟨hk, h.told hk halive⟩
      · exact ih (h.told hk halive) (sound_told hk t) x hx
    · rw [handled_cons_of_not_alive ts halive] at hx
      exact absurd hx List.not_mem_nil

/-- All attempts of a sequence of commands have later numbers than the ones before it,
and each a later one than those before. -/
theorem pairwise_started (k : Keeper) (turns : List Turn) :
    (∀ a ∈ (k.handled turns).filterMap fun x => x.1.started x.2, k.issued < a.number) ∧
      ((k.handled turns).filterMap fun x => x.1.started x.2).Pairwise
        fun a a' => a.number < a'.number := by
  induction turns generalizing k with
  | nil => exact ⟨fun a ha => absurd ha List.not_mem_nil, List.Pairwise.nil⟩
  | cons t ts ih =>
    by_cases halive : (k.told t).alive = true
    · obtain ⟨hlater, hordered⟩ := ih (k.told t).keeper
      have hmono := k.issued_le_told t
      rw [handled_cons_of_alive ts halive, List.filterMap_cons]
      split
      next => exact ⟨fun a ha => hmono.trans_lt (hlater a ha), hordered⟩
      next a hstarted =>
        obtain ⟨hnumber, hnew⟩ := number_of_started (Option.mem_def.2 hstarted)
        refine ⟨fun a' ha' => ?_, List.pairwise_cons.2 ⟨fun a' ha' => ?_, hordered⟩⟩
        · rcases List.mem_cons.1 ha' with rfl | ha'
          · exact hnew
          · exact hmono.trans_lt (hlater a' ha')
        · rw [hnumber]
          exact hlater a' ha'
    · rw [handled_cons_of_not_alive ts halive]
      exact ⟨fun a ha => absurd ha List.not_mem_nil, List.Pairwise.nil⟩

/-- **No attempt has a larger number than there were commands**, so that its number fits in 64 bits
as long as the number of commands does. -/
theorem number_le_of_handled (k : Keeper) (turns : List Turn) :
    ∀ a ∈ (k.handled turns).filterMap fun x => x.1.started x.2,
      a.number ≤ k.issued + turns.length := by
  induction turns generalizing k with
  | nil => exact fun a ha => absurd ha List.not_mem_nil
  | cons t ts ih =>
    intro a ha
    by_cases halive : (k.told t).alive = true
    · have hone := k.issued_told_le t
      rw [handled_cons_of_alive ts halive, List.mem_filterMap] at ha
      rw [List.length_cons]
      obtain ⟨x, hx, hstarted⟩ := ha
      rcases List.mem_cons.1 hx with rfl | hx
      · have hnumber : a.number = (k.told t).keeper.issued :=
          (number_of_started (Option.mem_def.2 hstarted)).1
        omega
      · have hrest := ih (k.told t).keeper a (List.mem_filterMap.2 ⟨x, hx, hstarted⟩)
        omega
    · rw [handled_cons_of_not_alive ts halive] at ha
      exact absurd ha List.not_mem_nil

/-- A new keeper is at rest. -/
theorem atRest_new (settings : ChainSettings) (identity : Digest) :
    AtRest (new settings identity) where
  mines_iff := by simp [new, Ledger.new, Catalog.empty, Catalog.isEmpty]
  upToDate a ha := absurd ha (by simp [new])
  connected picker := picker.pick_eq_none_iff.2 rfl

/-- **After every command that is handled to the end, a keeper is at rest.**  On the way
there, connecting comes to an end by itself, whichever blocks are picked: the bound on its
steps is never what stops it.  The numbers of the attempts that are started strictly
increase.  All commands are handled to the end, unless the delay after which an own block
is published is beyond measure. -/
theorem atRest_of_handled (settings : ChainSettings) (identity : Digest) (turns : List Turn) :
    (∀ x ∈ (new settings identity).handled turns,
      AtRest (x.1.told x.2).keeper ∧
      Acc (fun k' k => Connects k k') (x.1.takeIn x.2.command) ∧
      ∀ picker fuel, (x.1.takeIn x.2.command).ledger.pooled.size ≤ fuel →
        (x.1.takeIn x.2.command).connect picker fuel =
          (x.1.takeIn x.2.command).connect picker
            (x.1.takeIn x.2.command).ledger.pooled.size) ∧
    (((new settings identity).handled turns).filterMap fun x => x.1.started x.2).Pairwise
      (fun a a' => a.number < a'.number) ∧
    ((∀ t ∈ turns, ∀ number b elapsed, t.command = .mined number b elapsed →
        elapsed * settings.publishDelayFactor.toNat / 1000 ≤ maxDelaySeconds) →
      ((new settings identity).handled turns).length = turns.length) := by
  have hk : Sound settings.difficulty (new settings identity).ledger := sound_new _
  refine ⟨fun x hx => ?_, (pairwise_started _ turns).2, fun h => length_handled h⟩
  obtain ⟨hsound, hrest⟩ := (atRest_new settings identity).handled hk x hx
  have htaken := sound_takeIn hsound x.2.command
  exact ⟨hrest, acc_connects htaken, fun picker fuel hfuel => connect_eq_of_le htaken hfuel⟩

end Keeper
end GossipLedger
