import GossipLedger.Proofs.Keeper.Handling
import GossipLedger.Proofs.Ledger.Arrivals
import Mathlib.Order.Bounds.Basic

/-!
# When a keeper has the longest chain

A keeper at rest should have a longest branch of the blocks it knows as its chain.  It
has, after every command, exactly if what every command brings leaves the chain leading
and every pooled block that is connected is a tallest.  Where blocks are known by their
nonces the first is always so.  The second is not: any pooled block on top of the chain
is connected, also one on which less stands than on its sibling, and the side chains
are not looked at again.

## Main definitions

* `Keeper.afterBlocks` — a keeper after blocks of a peer, for
  `Keeper.siblingsFirst`, `Keeper.parentFirst`, `Keeper.zeroNonce` and
  `Keeper.sameNonce`.

## Main results

* `Keeper.longest_connect_iff` — what connecting pooled blocks leads to.
* `Keeper.longest_told_iff` — what one command leads to.
* `Keeper.longest_iff_tallest` — **the chain is a longest branch after every command
  exactly if every block that is connected is a tallest.**
* `Keeper.not_longest_afterBlocks` — it is not always.
-/

namespace GossipLedger
namespace Keeper

open Ledger

variable {k : Keeper} {difficulty : Nat}

/-! ### Connecting pooled blocks -/

/-- A pooled block on top of the chain is connected, and is one orphan less. -/
theorem applyBlock_extension (hk : Sound difficulty k.ledger) {b : Block}
    (hb : b ∈ k.ledger.extensions) :
    (k.applyBlock b).2.1.movedHead = true ∧ Sound difficulty (k.applyBlock b).1.ledger ∧
      (orphans (k.applyBlock b).1.ledger.chain (k.applyBlock b).1.ledger.pooled).length <
        (orphans k.ledger.chain k.ledger.pooled).length := by
  have hless := length_orphans_addBlock_extension hk hb (k.attempt.map Attempt.candidate)
  rw [← applyBlock_ledger] at hless
  refine ⟨?_, (k.applyBlock_arrival b).sound hk, hless⟩
  rw [applyBlock_outcome]
  exact (addBlock_extension hk hb _).1

/-- **What connecting pooled blocks leads to**: the chain becomes a longest branch
exactly if it led to one and every block that was connected was a tallest.  As many
steps as there are orphans are enough. -/
theorem longest_connect_iff {picker : Picker Block} {fuel : Nat}
    (hk : Sound difficulty k.ledger)
    (hfuel : (orphans k.ledger.chain k.ledger.pooled).length ≤ fuel) :
    (k.connect picker fuel).1.ledger.Longest ↔
      k.ledger.Leads ∧ ∀ p ∈ connections picker fuel k, p.1.Tallest p.2 := by
  -- each connected block is an orphan less, so the fuel lasts until none is left
  induction fuel generalizing k with
  | zero =>
    have hnone := extensions_eq_nil_of_orphans (List.length_eq_zero_iff.1 (Nat.le_zero.1 hfuel))
    rw [connect, connections, ← leads_iff_longest hk hnone]
    simp
  | succ fuel ih =>
    rw [connect, connections]
    cases hnext : k.ledger.nextPooledBlock picker with
    | none =>
      have hnone := extensions_eq_nil_of_nextPooledBlock hnext
      simp only
      rw [← leads_iff_longest hk hnone]
      simp
    | some b =>
      have hb := mem_extensions_of_nextPooledBlock hnext
      obtain ⟨hmoved, hsound, hless⟩ := applyBlock_extension hk hb
      have hrest := ih hsound (by omega)
      rw [applyBlock_ledger, leads_addBlock_iff hk hb] at hrest
      simp only [hmoved, if_true]
      rw [hrest, List.forall_mem_cons, and_assoc]

/-! ### What a command brings -/

private theorem mem_ite_singleton {p : Prop} [Decidable p] {b x : Block} :
    x ∈ (if p then [b] else []) ↔ p ∧ x = b := by
  split
  next h => simp [h]
  next h => simp [h]

/-- What a command brings comes to the ledger as a transaction or as a block, or is
passed over. -/
theorem takeIn_cases (k : Keeper) (c : ChainCommand) :
    ((k.takeIn c).ledger = k.ledger ∧ k.accepts c = []) ∨
      (∃ t, (k.takeIn c).ledger = k.ledger.addTransaction t ∧ k.accepts c = []) ∨
      ∃ b mining o, Arrival k.ledger b mining (k.takeIn c).ledger o ∧
        ∀ x, x ∈ k.accepts c ↔ o.isAccepted = true ∧ x = b := by
  cases c with
  | submit t =>
    rcases k.learn_ledger_eq t with h | h
    · exact Or.inl ⟨h, rfl⟩
    · exact Or.inr (Or.inl ⟨t, h, rfl⟩)
  | transaction t hopLimit origin =>
    rcases k.learn_ledger_eq t with h | h
    · exact Or.inl ⟨h, rfl⟩
    · exact Or.inr (Or.inl ⟨t, h, rfl⟩)
  | block b hopLimit origin =>
    exact Or.inr (Or.inr ⟨b, _, _, k.applyBlock_arrival b, fun x => mem_ite_singleton⟩)
  | mined number b elapsed =>
    by_cases hawaits : k.awaits number
    · refine Or.inr (Or.inr ⟨b, none, ((k.finish elapsed).applyBlock b).2.1, ?_, fun x => ?_⟩)
      · rw [takeIn, if_pos hawaits]
        exact (k.finish elapsed).applyBlock_arrival b
      · rw [accepts, mem_ite_singleton]
        simp [hawaits]
    · refine Or.inl ⟨?_, ?_⟩
      · rw [takeIn, if_neg hawaits]
      · rw [accepts, if_neg fun h => hawaits h.1]

theorem sound_takeIn (hk : Sound difficulty k.ledger) (c : ChainCommand) :
    Sound difficulty (k.takeIn c).ledger := by
  obtain ⟨ops, hops⟩ := k.exists_run_takeIn c
  rw [hops]
  exact hk.run ops

theorem sound_told (hk : Sound difficulty k.ledger) (t : Turn) :
    Sound difficulty (k.told t).keeper.ledger := by
  obtain ⟨ops, hops⟩ := k.exists_run_told t
  rw [hops]
  exact hk.run ops

/-- What a command brings leaves a longest chain leading, if blocks are known by their
nonces. -/
theorem leads_takeIn (hk : Sound difficulty k.ledger) (hlongest : k.ledger.Longest)
    (c : ChainCommand) (hS : Identified fun x => k.ledger.Holds x ∨ x ∈ k.accepts c) :
    (k.takeIn c).ledger.Leads := by
  have hsound := sound_takeIn hk c
  rcases k.takeIn_cases c with ⟨hsame, -⟩ | ⟨t, hadd, -⟩ | ⟨b, mining, o, harrival, hmem⟩
  · rw [hsame]
    exact hlongest.leads hk
  · rw [hadd] at hsound ⊢
    refine Longest.leads (fun bs hbs => ?_) hsound
    rw [addTransaction_chain]
    exact hlongest bs (hbs.congr (holds_addTransaction t))
  · refine harrival.leads hk hlongest (hS.mono fun x hx => ?_)
    rw [hmem]
    exact hx

/-- The blocks that are known once a command was taken in. -/
theorem holds_takeIn (c : ChainCommand)
    (hS : Identified fun x => k.ledger.Holds x ∨ x ∈ k.accepts c) (x : Block) :
    (k.takeIn c).ledger.Holds x ↔ k.ledger.Holds x ∨ x ∈ k.accepts c := by
  rcases k.takeIn_cases c with ⟨hsame, hnone⟩ | ⟨t, hadd, hnone⟩ | ⟨b, mining, o, harrival, hmem⟩
  · rw [hsame, hnone]
    simp
  · rw [hadd, hnone, holds_addTransaction]
    simp
  · rw [hmem]
    refine harrival.holds_iff (hS.mono fun y hy => ?_)
    rw [hmem]
    exact hy

/-- If nothing is left to connect and a command does not move the head, nothing is left
to connect afterwards. -/
theorem extensions_takeIn {c : ChainCommand} (hstays : ¬k.goesOn c)
    (hrest : k.ledger.extensions = []) : (k.takeIn c).ledger.extensions = [] := by
  cases c with
  | submit t =>
    rw [takeIn, learn_eq_self hstays]
    exact hrest
  | transaction t hopLimit origin =>
    rw [takeIn, learn_eq_self hstays]
    exact hrest
  | block b hopLimit origin =>
    have hmoved : (k.applyBlock b).2.1.movedHead = false := by simpa [goesOn] using hstays
    exact (k.applyBlock_arrival b).extensions_eq_nil hmoved hrest
  | mined number b elapsed =>
    have hawaits : ¬k.awaits number := hstays
    rw [takeIn, if_neg hawaits]
    exact hrest

/-! ### One command -/

/-- **What one command leads to**: a longest chain stays one exactly if what the
command brings leaves it leading and every block that is connected is a tallest. -/
theorem longest_told_iff (hk : Sound difficulty k.ledger) (hlongest : k.ledger.Longest) {t : Turn}
    (halive : (k.told t).alive = true) :
    (k.told t).keeper.ledger.Longest ↔
      (k.takeIn t.command).ledger.Leads ∧ ∀ p ∈ k.picks t, p.1.Tallest p.2 := by
  have hsound := sound_takeIn hk t.command
  rw [told_keeper, picks]
  by_cases hgoes : k.goesOn t.command
  · rw [if_pos ⟨hgoes, halive⟩, if_pos hgoes, startMining_ledger]
    -- the fuel is the number of pooled blocks, some of which may be on the chain
    refine longest_connect_iff hsound ?_
    exact List.length_filter_le _ _
  · rw [if_neg (fun h => hgoes h.1), if_neg hgoes,
      ← leads_iff_longest hsound (extensions_takeIn hgoes (hlongest.extensions_eq_nil hk))]
    simp

/-- The blocks that are known after a command. -/
theorem holds_told (hk : Sound difficulty k.ledger) (t : Turn)
    (hS : Identified fun x => k.ledger.Holds x ∨ x ∈ k.accepts t.command) (x : Block) :
    (k.told t).keeper.ledger.Holds x ↔ k.ledger.Holds x ∨ x ∈ k.accepts t.command := by
  have hkeeps : Sound difficulty (k.told t).keeper.ledger ∧
      ((k.told t).keeper.ledger.Holds x ↔ k.ledger.Holds x ∨ x ∈ k.accepts t.command) := by
    refine told_keeps (P := fun k' => Sound difficulty k'.ledger ∧
      (k'.ledger.Holds x ↔ k.ledger.Holds x ∨ x ∈ k.accepts t.command)) t ?_ ?_ ?_
    · exact ⟨sound_takeIn hk t.command, holds_takeIn t.command hS x⟩
    · rintro k' b ⟨hk', hx⟩ hb
      refine ⟨(k'.applyBlock_arrival b).sound hk', ?_⟩
      rw [applyBlock_ledger, holds_addBlock_extension hk' hb]
      exact hx
    · rintro k' h
      rw [startMining_ledger]
      exact h
  exact hkeeps.2

/-! ### Sequences of commands -/

theorem handled_cons_of_alive {t : Turn} (ts : List Turn) (h : (k.told t).alive = true) :
    k.handled (t :: ts) = (k, t) :: (k.told t).keeper.handled ts := if_pos h

theorem handled_cons_of_not_alive {t : Turn} (ts : List Turn) (h : ¬(k.told t).alive = true) :
    k.handled (t :: ts) = [] := if_neg h

theorem accepted_cons_of_alive {t : Turn} (ts : List Turn) (h : (k.told t).alive = true) :
    k.accepted (t :: ts) = k.accepts t.command ++ (k.told t).keeper.accepted ts := by
  rw [accepted, handled_cons_of_alive ts h, List.flatMap_cons]
  rfl

/-- If all blocks are known by their nonces, so are those of the first command, and those
from then on. -/
theorem identified_cons (hk : Sound difficulty k.ledger) {t : Turn} {ts : List Turn}
    (halive : (k.told t).alive = true)
    (hS : Identified fun x => k.ledger.Holds x ∨ x ∈ k.accepted (t :: ts)) :
    (Identified fun x => k.ledger.Holds x ∨ x ∈ k.accepts t.command) ∧
      Identified fun x =>
        (k.told t).keeper.ledger.Holds x ∨ x ∈ (k.told t).keeper.accepted ts := by
  rw [accepted_cons_of_alive ts halive] at hS
  have hfirst : Identified fun x => k.ledger.Holds x ∨ x ∈ k.accepts t.command :=
    hS.mono fun x hx => hx.imp_right fun h => List.mem_append_left _ h
  refine ⟨hfirst, hS.mono fun x hx => ?_⟩
  rw [holds_told hk t hfirst, or_assoc] at hx
  exact hx.imp_right List.mem_append.2

/-- If what is asked after each command comes down to something else as long as it held
after the commands before, so it does after all of them. -/
theorem forall_handled_iff {P Q : Keeper → Turn → Prop} {I : Keeper → List Turn → Prop}
    (hstep : ∀ k t ts, I k (t :: ts) → (k.told t).alive = true →
      (P k t ↔ Q k t) ∧ (P k t → I (k.told t).keeper ts)) {turns : List Turn} (h : I k turns) :
    (∀ h ∈ k.handled turns, P h.1 h.2) ↔ ∀ h ∈ k.handled turns, Q h.1 h.2 := by
  induction turns generalizing k with
  | nil => simp [handled]
  | cons t ts ih =>
    by_cases halive : (k.told t).alive = true
    · obtain ⟨hfirst, hnext⟩ := hstep k t ts h halive
      rw [handled_cons_of_alive ts halive, List.forall_mem_cons, List.forall_mem_cons]
      -- once the first command is settled, the rest starts anew
      constructor
      · rintro ⟨htold, hrest⟩
        exact ⟨hfirst.1 htold, (ih (hnext htold)).1 hrest⟩
      · rintro ⟨htold, hrest⟩
        exact ⟨hfirst.2 htold, (ih (hnext (hfirst.2 htold))).2 hrest⟩
    · rw [handled_cons_of_not_alive ts halive]
      simp

/-- After every command of a sequence the chain is a longest branch exactly if every
command leaves it leading and every block that is connected is a tallest. -/
theorem longest_handled_iff (hk : Sound difficulty k.ledger) (hlongest : k.ledger.Longest)
    (turns : List Turn) :
    (∀ h ∈ k.handled turns, (h.1.told h.2).keeper.ledger.Longest) ↔
      ∀ h ∈ k.handled turns, (h.1.takeIn h.2.command).ledger.Leads ∧
        ∀ p ∈ h.1.picks h.2, p.1.Tallest p.2 := by
  refine forall_handled_iff (P := fun k t => (k.told t).keeper.ledger.Longest)
    (Q := fun k t => (k.takeIn t.command).ledger.Leads ∧ ∀ p ∈ k.picks t, p.1.Tallest p.2)
    (I := fun k _ => Sound difficulty k.ledger ∧ k.ledger.Longest) ?_ ⟨hk, hlongest⟩
  rintro k t ts ⟨hk, hlongest⟩ halive
  exact ⟨longest_told_iff hk hlongest halive, fun htold => ⟨sound_told hk t, htold⟩⟩

/-- Where blocks are known by their nonces, only the blocks that are connected count. -/
theorem longest_handled_iff_of_identified (hk : Sound difficulty k.ledger)
    (hlongest : k.ledger.Longest) (turns : List Turn)
    (hS : Identified fun x => k.ledger.Holds x ∨ x ∈ k.accepted turns) :
    (∀ h ∈ k.handled turns, (h.1.told h.2).keeper.ledger.Longest) ↔
      ∀ h ∈ k.handled turns, ∀ p ∈ h.1.picks h.2, p.1.Tallest p.2 := by
  refine forall_handled_iff (P := fun k t => (k.told t).keeper.ledger.Longest)
    (Q := fun k t => ∀ p ∈ k.picks t, p.1.Tallest p.2)
    (I := fun k ts => Sound difficulty k.ledger ∧ k.ledger.Longest ∧
      Identified fun x => k.ledger.Holds x ∨ x ∈ k.accepted ts) ?_ ⟨hk, hlongest, hS⟩
  rintro k t ts ⟨hk, hlongest, hS⟩ halive
  obtain ⟨hfirst, hrest⟩ := identified_cons hk halive hS
  have hleads := leads_takeIn hk hlongest t.command hfirst
  refine ⟨(longest_told_iff hk hlongest halive).trans (and_iff_right hleads), fun htold => ?_⟩
  exact ⟨sound_told hk t, htold, hrest⟩

theorem sound_after (hk : Sound difficulty k.ledger) (turns : List Turn) :
    Sound difficulty (k.after turns).ledger := by
  induction turns generalizing k with
  | nil => exact hk
  | cons t ts ih =>
    rw [after]
    split
    next => exact ih (sound_told hk t)
    next => exact hk

/-- The keeper after the last command has a longest chain if it has after every one. -/
theorem longest_after (hlongest : k.ledger.Longest) {turns : List Turn}
    (h : ∀ h ∈ k.handled turns, (h.1.told h.2).keeper.ledger.Longest) :
    (k.after turns).ledger.Longest := by
  induction turns generalizing k with
  | nil => exact hlongest
  | cons t ts ih =>
    rw [after]
    split
    next halive =>
      rw [handled_cons_of_alive ts halive, List.forall_mem_cons] at h
      exact ih h.1 h.2
    next => exact hlongest

/-- The known blocks after a sequence of commands are those of the start and those
that were accepted. -/
theorem holds_after (hk : Sound difficulty k.ledger) (turns : List Turn)
    (hS : Identified fun x => k.ledger.Holds x ∨ x ∈ k.accepted turns) (x : Block) :
    (k.after turns).ledger.Holds x ↔ k.ledger.Holds x ∨ x ∈ k.accepted turns := by
  induction turns generalizing k with
  | nil => simp [after, accepted, handled]
  | cons t ts ih =>
    rw [after]
    by_cases halive : (k.told t).alive = true
    · obtain ⟨hfirst, hrest⟩ := identified_cons hk halive hS
      rw [if_pos halive, ih (sound_told hk t) hrest, holds_told hk t hfirst, or_assoc,
        accepted_cons_of_alive ts halive, List.mem_append]
    · rw [if_neg halive, accepted, handled_cons_of_not_alive ts halive]
      simp

/-- **When a keeper has the longest chain**: after every command exactly if what every
command brings leaves the chain leading and every pooled block that is connected is a
tallest.  Where the accepted blocks are known by their nonces, exactly if every pooled
block that is connected is a tallest; and then the height is the greatest of all
branches of accepted blocks, in whatever order they came. -/
theorem longest_iff_tallest (settings : ChainSettings) (identity : Digest) (turns : List Turn) :
    ((∀ h ∈ (new settings identity).handled turns, (h.1.told h.2).keeper.ledger.Longest) ↔
      ∀ h ∈ (new settings identity).handled turns, (h.1.takeIn h.2.command).ledger.Leads ∧
        ∀ p ∈ h.1.picks h.2, p.1.Tallest p.2) ∧
    (Identified (fun b => b ∈ (new settings identity).accepted turns) →
      ((∀ h ∈ (new settings identity).handled turns, (h.1.told h.2).keeper.ledger.Longest) ↔
        ∀ h ∈ (new settings identity).handled turns, ∀ p ∈ h.1.picks h.2, p.1.Tallest p.2) ∧
      ((∀ h ∈ (new settings identity).handled turns, ∀ p ∈ h.1.picks h.2, p.1.Tallest p.2) →
        IsGreatest {n | ∃ bs, BranchOf (fun b => b ∈ (new settings identity).accepted turns) bs ∧
          bs.length = n} ((new settings identity).after turns).ledger.chain.length)) := by
  have hsound : Sound settings.difficulty (new settings identity).ledger := sound_new _
  have hlongest : (new settings identity).ledger.Longest := longest_new _
  have hnone : ∀ x, ¬(new settings identity).ledger.Holds x := by
    rintro x (hx | hx)
    · exact absurd hx List.not_mem_nil
    · exact absurd hx List.not_mem_nil
  refine ⟨longest_handled_iff hsound hlongest turns, fun hS => ?_⟩
  have hS' : Identified fun x => (new settings identity).ledger.Holds x ∨
      x ∈ (new settings identity).accepted turns := hS.mono fun x hx => hx.resolve_left (hnone x)
  have hiff := longest_handled_iff_of_identified hsound hlongest turns hS'
  refine ⟨hiff, fun htallest => ?_⟩
  -- at the end the chain is one of the branches of accepted blocks, and a longest
  have hend := longest_after hlongest (hiff.2 htallest)
  have hknown : ∀ x, ((new settings identity).after turns).ledger.Holds x ↔
      x ∈ (new settings identity).accepted turns := by
    intro x
    rw [holds_after hsound turns hS', or_iff_right (hnone x)]
  constructor
  · refine ⟨_, ?_, rfl⟩
    exact (sound_after hsound turns).branch.mono fun x => (hknown x).1
  · rintro n ⟨bs, hbs, rfl⟩
    exact hend bs (hbs.mono fun x => (hknown x).2)

/-! ### Where the chain is not a longest branch -/

/-- The digest of zero bytes but for the last. -/
def ending (n : UInt8) : Digest := ⟨List.replicate 31 0 ++ [n], rfl⟩

/-- A block without transactions, named by the last bytes of the nonces. -/
def bare (previous nonce : UInt8) : Block := ⟨ending previous, ending nonce, default, []⟩

/-- Blocks come in from a peer, one after the other.  Of several pooled blocks the one
with the smallest nonce is connected. -/
def blocksFrom (peer : PeerAddress) (bs : List Block) : List Turn :=
  bs.map fun b => ⟨.first, default, .block b 0 peer⟩

/-- A keeper that takes any nonce, after the blocks of a peer. -/
def afterBlocks (bs : List Block) : Keeper :=
  (new { difficulty := 0 } .zero).after (blocksFrom (.v4 ⟨127, 0, 0, 1⟩ 5000) bs)

/-- Two siblings and a block on the second of them come before their parent.  The
first is connected, and nothing else. -/
def siblingsFirst : List Block := [bare 1 2, bare 1 3, bare 3 4, bare 0 1]

/-- The same blocks, the parent first. -/
def parentFirst : List Block := [bare 0 1, bare 1 2, bare 1 3, bare 3 4]

/-- A pooled block with the nonce zero, on which all first blocks seem to stand. -/
def zeroNonce : List Block := [bare 0 1, bare 9 0, bare 0 2, bare 2 3]

/-- A pooled block and one of the chain that have the same nonce. -/
def sameNonce : List Block := [bare 1 5, bare 0 5, bare 5 6, bare 0 1]

theorem not_longest_of_branch {l : Ledger} (bs : List Block) (hbs : l.Branch bs)
    (hlonger : l.chain.length < bs.length) : ¬l.Longest := by
  intro h
  have hle := h bs hbs
  omega

/-- **The chain is not always a longest branch.**  Blocks that are known by their
nonces leave a chain of two blocks in one order and of three in another, and in the
first three of them form a branch.  A pooled block with the nonce zero or with a nonce
of the chain hides a longer branch as well. -/
theorem not_longest_afterBlocks :
    ((∀ b ∈ siblingsFirst, b.nonce ≠ .zero) ∧
      (∀ a ∈ siblingsFirst, ∀ b ∈ siblingsFirst, a.nonce = b.nonce → a = b) ∧
      siblingsFirst.Perm parentFirst ∧
      (∀ b ∈ siblingsFirst, (afterBlocks siblingsFirst).ledger.Holds b) ∧
      (∀ b ∈ parentFirst, (afterBlocks parentFirst).ledger.Holds b) ∧
      (afterBlocks siblingsFirst).ledger.chain.length = 2 ∧
      (afterBlocks parentFirst).ledger.chain.length = 3 ∧
      ¬(afterBlocks siblingsFirst).ledger.Longest) ∧
    ¬(afterBlocks zeroNonce).ledger.Longest ∧ ¬(afterBlocks sameNonce).ledger.Longest := by
  refine ⟨⟨by decide +kernel, by decide +kernel, by decide +kernel, by decide +kernel,
    by decide +kernel, by decide +kernel, by decide +kernel, ?_⟩, ?_, ?_⟩
  · exact not_longest_of_branch [bare 0 1, bare 1 3, bare 3 4] (by decide +kernel)
      (by decide +kernel)
  · exact not_longest_of_branch [bare 0 2, bare 2 3] (by decide +kernel)
      (by decide +kernel)
  · exact not_longest_of_branch [bare 0 1, bare 1 5, bare 5 6] (by decide +kernel)
      (by decide +kernel)

end Keeper
end GossipLedger
