import GossipLedger.Proofs.Keeper.Publishing

/-!
# Transactions with wrong names

A transaction whose name is not the hash of its contents was tampered with, and a keeper
that is given one drops it.  A block is accepted for its nonce alone, whatever its
transactions are.  They do not wait as long as the block is on the chain; but when a side
chain takes its place, they wait again, and nobody looks at their names.  So a wrong name
gets into the pool, into what is mined and to the peers, exactly where one waits again.

## Main definitions

* `Keeper.Untampered` — what waits and what is mined has the right names.

## Main results

* `Keeper.Untampered.told` — a command that makes no wrong name wait again leaves a keeper
  untampered.
* `Keeper.untampered_iff_restored` — **all names are right, in the pool, in what is mined and
  in what is published, exactly if all that waits again has the right names.**
* `Keeper.tampered_after_forgery` — this is not always so.
-/

namespace GossipLedger
namespace Keeper

open Ledger

variable {k : Keeper} {difficulty : Nat}

/-- What waits and what is mined has the right names. -/
structure Untampered (k : Keeper) : Prop where
  pending : ∀ u ∈ k.ledger.pending.toList, u.WellFormed
  mined : ∀ a, k.attempt = some a → ∀ u ∈ a.candidate.transactions, u.WellFormed

theorem untampered_new (settings : ChainSettings) (identity : Digest) :
    Untampered (new settings identity) where
  pending u hu := absurd hu List.not_mem_nil
  mined a ha := absurd ha (by simp [new])

/-! ### Stages -/

theorem Untampered.finish (h : Untampered k) (elapsed : Nat) : Untampered (k.finish elapsed) where
  pending := h.pending
  mined a ha := absurd ha (by simp [Keeper.finish])

/-- A transaction is only learnt if its name is right. -/
theorem Untampered.learn (h : Untampered k) (u : Transaction) : Untampered (k.learn u) := by
  unfold Keeper.learn
  split
  next hwf =>
    refine ⟨fun v hv => ?_, h.mined⟩
    rcases mem_of_mem_addTransaction hv with hv | rfl
    · exact h.pending v hv
    · exact hwf
  next => exact h

/-- A block can only bring wrong names into the pool by making them wait again. -/
theorem Untampered.applyBlock (h : Untampered k) {b : Block}
    (hrestored : ∀ u ∈ (k.applyBlock b).2.1.requeued, u.WellFormed) :
    Untampered (k.applyBlock b).1 := by
  refine ⟨fun u hu => ?_, fun a ha => ?_⟩
  · rcases (k.applyBlock_arrival b).mem_pending_or_requeued hu with hu | hu | ⟨c, hc, hu⟩
    · exact h.pending u hu
    · exact hrestored u hu
    · obtain ⟨a, ha, rfl⟩ := Option.map_eq_some_iff.1 hc
      exact h.mined a ha u hu
  · rcases k.applyBlock_attempt b with hattempt | hattempt
    · rw [hattempt] at ha
      exact absurd ha (by simp)
    · rw [hattempt] at ha
      exact h.mined a ha

theorem Untampered.takeIn (h : Untampered k) {c : ChainCommand}
    (hrestored : ∀ u ∈ k.restored c, u.WellFormed) : Untampered (k.takeIn c) := by
  cases c with
  | submit u => exact h.learn u
  | transaction u hopLimit origin => exact h.learn u
  | block b hopLimit origin => exact h.applyBlock hrestored
  | mined number b elapsed =>
    by_cases hawaits : k.awaits number
    · rw [restored, if_pos hawaits] at hrestored
      rw [Keeper.takeIn, if_pos hawaits]
      exact (h.finish elapsed).applyBlock hrestored
    · rw [Keeper.takeIn, if_neg hawaits]
      exact h

/-- A pooled block that is connected makes nothing wait again. -/
theorem Untampered.extension (h : Untampered k) (hk : Sound difficulty k.ledger) {b : Block}
    (hb : b ∈ k.ledger.extensions) : Untampered (k.applyBlock b).1 := by
  refine h.applyBlock fun u hu => ?_
  rw [applyBlock_outcome, requeued_addBlock_extension hk hb] at hu
  exact absurd hu List.not_mem_nil

/-- What is mined is the reward and what waits. -/
theorem Untampered.startMining (h : Untampered k) (time : Timestamp) :
    Untampered (k.startMining time) := by
  refine ⟨?_, fun a ha => ?_⟩
  · rw [startMining_ledger]
    exact h.pending
  · unfold Keeper.startMining at ha
    split at ha
    next hattempt => exact h.mined a ha
    next =>
      split at ha
      next hnone => exact h.mined a ha
      next candidate hcandidate =>
        obtain rfl : (⟨k.issued + 1, candidate⟩ : Attempt) = a := Option.some.inj ha
        unfold buildCandidate at hcandidate
        split at hcandidate
        next => exact absurd hcandidate (by simp)
        next =>
          obtain rfl := Option.some.inj hcandidate
          intro u hu
          rcases List.mem_cons.1 hu with rfl | hu
          · exact Transaction.wellFormed_make _ _ _
          · exact h.pending u (List.mem_of_mem_filter hu)

/-! ### Commands -/

/-- A keeper whose pool is sound stays so, and untampered, as blocks are connected. -/
theorem untampered_extension {b : Block} (h : Sound difficulty k.ledger ∧ Untampered k)
    (hb : b ∈ k.ledger.extensions) :
    Sound difficulty (k.applyBlock b).1.ledger ∧ Untampered (k.applyBlock b).1 :=
  ⟨(k.applyBlock_arrival b).sound h.1, h.2.extension h.1 hb⟩

/-- **A command that makes no wrong name wait again leaves a keeper untampered.** -/
theorem Untampered.told (h : Untampered k) (hk : Sound difficulty k.ledger) {t : Turn}
    (hrestored : ∀ u ∈ k.restored t.command, u.WellFormed) : Untampered (k.told t).keeper := by
  refine (told_keeps (P := fun k' => Sound difficulty k'.ledger ∧ Untampered k') t
    ⟨sound_takeIn hk t.command, h.takeIn hrestored⟩ (fun _ _ hk' hb => untampered_extension hk' hb)
    fun k' hk' => ⟨?_, hk'.2.startMining t.time⟩).2
  rw [startMining_ledger]
  exact hk'.1

/-- All that waits while a command is handled that makes no wrong name wait again has the
right names. -/
theorem Untampered.wellFormed_of_passes (h : Untampered k) (hk : Sound difficulty k.ledger)
    {t : Turn} (hrestored : ∀ u ∈ k.restored t.command, u.WellFormed) :
    ∀ l ∈ k.passes t, ∀ u ∈ l.pending.toList, u.WellFormed := by
  intro l hl
  obtain ⟨k', ⟨-, hk'⟩, rfl⟩ :=
    passes_keeps (P := fun k' => Sound difficulty k'.ledger ∧ Untampered k') t
      ⟨sound_takeIn hk t.command, h.takeIn hrestored⟩
      (fun _ _ hk' hb => untampered_extension hk' hb) l hl
  exact hk'.pending

theorem wellFormed_of_mem_learns {c : ChainCommand} {u : Transaction} (hu : u ∈ k.learns c) :
    u.WellFormed := by
  cases c with
  | submit v =>
    obtain ⟨⟨hwf, -⟩, rfl⟩ : (v.WellFormed ∧ k.ledger.knows v.name = false) ∧ u = v := by
      simpa [learns] using hu
    exact hwf
  | transaction v hopLimit origin =>
    obtain ⟨⟨hwf, -⟩, rfl⟩ : (v.WellFormed ∧ k.ledger.knows v.name = false) ∧ u = v := by
      simpa [learns] using hu
    exact hwf
  | block b hopLimit origin => exact absurd hu List.not_mem_nil
  | mined number b elapsed => exact absurd hu List.not_mem_nil

/-- The transactions that are published because of a command have the right names exactly if
those do that wait again. -/
theorem wellFormed_published_iff (hk : Sound difficulty k.ledger) (t : Turn) :
    (∀ p ∈ (k.told t).published, ∀ u ∈ p.transaction?, u.WellFormed) ↔
      ∀ u ∈ k.restored t.command, u.WellFormed := by
  rw [told_published hk]
  constructor
  · intro h u hu
    exact h _ (List.mem_append_left _ (List.mem_map_of_mem hu)) u rfl
  · intro h p hp u hu
    rcases List.mem_append.1 hp with hp | hp
    · obtain ⟨v, hv, rfl⟩ := List.mem_map.1 hp
      obtain rfl : v = u := Option.some.inj hu
      exact h v hv
    · have hrelayed : u ∈ (k.relays t).filterMap Publication.transaction? :=
        List.mem_filterMap.2 ⟨p, hp, hu⟩
      exact wellFormed_of_mem_learns ((transaction?_relays t).mem hrelayed)

/-- What waits again because of a command was on the chain. -/
theorem exists_of_mem_restored {c : ChainCommand} {u : Transaction} (hu : u ∈ k.restored c) :
    ∃ b ∈ k.ledger.chain, u ∈ b.transactions := by
  cases c with
  | submit v => exact absurd hu List.not_mem_nil
  | transaction v hopLimit origin => exact absurd hu List.not_mem_nil
  | block b hopLimit origin => exact (k.applyBlock_arrival b).exists_of_mem_requeued hu
  | mined number b elapsed =>
    rw [restored] at hu
    split at hu
    next => exact ((k.finish elapsed).applyBlock_arrival b).exists_of_mem_requeued hu
    next => exact absurd hu List.not_mem_nil

/-! ### Sequences of commands -/

/-- A keeper is untampered at every command before which nothing with a wrong name came to
wait again. -/
theorem untampered_of_mem_heard (h : Untampered k) (hk : Sound difficulty k.ledger)
    {turns : List Turn}
    (hrestored : ∀ x ∈ k.heard turns, ∀ u ∈ x.1.restored x.2.command, u.WellFormed) :
    ∀ x ∈ k.heard turns, Untampered x.1 := by
  induction turns generalizing k with
  | nil => exact fun x hx => absurd hx List.not_mem_nil
  | cons t ts ih =>
    intro x hx
    rcases List.mem_cons.1 hx with rfl | hx
    · exact h
    · split at hx
      next halive =>
        rw [heard_cons_of_alive ts halive, List.forall_mem_cons] at hrestored
        exact ih (h.told hk hrestored.1) (sound_told hk t) hrestored.2 x hx
      next => exact absurd hx List.not_mem_nil

/-- **All names are right exactly if those are that wait again.**  Then no transaction with a
wrong name waits at any moment, and none is mined or published.  So it is if no block with
such a transaction is offered. -/
theorem untampered_iff_restored (settings : ChainSettings) (identity : Digest)
    (turns : List Turn) :
    ((∀ x ∈ (new settings identity).heard turns,
        (∀ l ∈ x.1.passes x.2, ∀ u ∈ l.pending.toList, u.WellFormed) ∧
        Untampered (x.1.told x.2).keeper ∧
        ∀ p ∈ (x.1.told x.2).published, ∀ u ∈ p.transaction?, u.WellFormed) ↔
      ∀ x ∈ (new settings identity).heard turns, ∀ u ∈ x.1.restored x.2.command, u.WellFormed) ∧
    ((∀ t ∈ turns, ∀ b ∈ t.command.blocks, ∀ u ∈ b.transactions, u.WellFormed) →
      ∀ x ∈ (new settings identity).heard turns,
        ∀ u ∈ x.1.restored x.2.command, u.WellFormed) := by
  have hsound : Sound settings.difficulty (new settings identity).ledger := sound_new _
  refine ⟨⟨fun h x hx => ?_, fun h x hx => ?_⟩, fun hblocks x hx u hu => ?_⟩
  · exact (wellFormed_published_iff (sound_of_mem_heard hsound x hx) x.2).1 (h x hx).2.2
  · have hk := sound_of_mem_heard hsound x hx
    have huntampered := untampered_of_mem_heard (untampered_new settings identity) hsound h x hx
    exact ⟨huntampered.wellFormed_of_passes hk (h x hx), huntampered.told hk (h x hx),
      (wellFormed_published_iff hk x.2).2 (h x hx)⟩
  · have hoffered : Offered (fun b => ∀ u ∈ b.transactions, u.WellFormed) settings.difficulty
        (new settings identity) turns := by
      refine ⟨hsound, atRest_new settings identity, ?_, hblocks⟩
      rintro b (hb | hb)
      · exact absurd hb List.not_mem_nil
      · exact absurd hb List.not_mem_nil
    obtain ⟨ts, hthen⟩ := forall_heard (fun _ _ _ h halive => h.next halive) hoffered x hx
    obtain ⟨b, hb, hub⟩ := exists_of_mem_restored hu
    exact hthen.known b (Or.inl hb) u hub

/-! ### Where a wrong name waits -/

/-- A block with a transaction whose name is wrong, and two blocks that take its place. -/
def forgery : List Block :=
  [⟨ending 0, ending 1, default, [contested]⟩, bare 0 2, bare 2 3]

/-- **A wrong name does come into the pool**: a peer that sends three blocks makes a keeper
mine and publish a transaction that it would drop if it were sent by itself. -/
theorem tampered_after_forgery :
    ¬contested.WellFormed ∧ contested ∈ (afterBlocks forgery).ledger.pending.toList ∧
    (∃ a ∈ (afterBlocks forgery).attempt, contested ∈ a.candidate.transactions) ∧
    ∃ x ∈ (new { difficulty := 0 } .zero).heard (blocksFrom (.v4 ⟨127, 0, 0, 1⟩ 5000) forgery),
      republish { difficulty := 0 } contested ∈ (x.1.told x.2).published :=
  ⟨by decide +kernel, by decide +kernel, by decide +kernel, by decide +kernel⟩

end Keeper
end GossipLedger
