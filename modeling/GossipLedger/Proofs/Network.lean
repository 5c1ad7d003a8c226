import GossipLedger.Proofs.Keeper.Provenance
import GossipLedger.Proofs.Ledger.Attempts
import Mathlib.Logic.Function.Basic

/-!
# Keepers that mine for each other

Any number of keepers exchange transactions and blocks.  What one of them sends may be
lost, come twice or come late: a keeper can be told any transaction and any block that
was found so far, at any time.  A block is found for a candidate that some keeper
started to mine, then or long ago.

## Main definitions

* `Network` — the keepers, the candidates that were started and the blocks found.
* `Network.Event`, `Network.step` — a keeper is told something, or a block is found.
* `Network.Reachable` — the networks that come about from keepers at the start.

## Main results

* `Block.eq_of_mine` — what mining finds is the candidate with some nonce.
* `Network.honest_of_reachable` — every keeper stays within the blocks that were found,
  all of which were proposed.
* `Network.confirmsOnce_of_reachable` — **on no chain, at no time, is a transaction
  confirmed twice**, rewards aside.
-/

namespace GossipLedger

open Ledger

/-! ### What mining finds -/

/-- What mining finds is the candidate with some nonce. -/
theorem Block.eq_of_mine {difficulty : Nat} {b found : Block}
    (h : b.mine difficulty = some found) : ∃ n, found = { b with nonce := n } := by
  unfold Block.mine at h
  split at h
  next hfound =>
    obtain rfl := Option.some.inj h
    obtain ⟨k, -, -, -, rfl⟩ := search_eq_found_iff.1 hfound
    exact ⟨_, rfl⟩
  next => exact absurd h (by simp)

/-! ### Networks -/

/-- Keepers with what was started to be mined and what was found. -/
structure Network (ι : Type) where
  keepers : ι → Keeper
  /-- The candidates that were started so far. -/
  candidates : List Block
  /-- The blocks that were found so far. -/
  blocks : List Block

namespace Network

variable {ι : Type}

/-- Keepers at the start. -/
def new (settings : ι → ChainSettings) (identity : ι → Digest) : Network ι :=
  ⟨fun i => .new (settings i) (identity i), [], []⟩

/-- The keepers know no blocks but those that were found, and what was started and what
was found was proposed on such blocks. -/
structure Honest (w : Network ι) : Prop where
  within : ∀ i, (w.keepers i).Within fun b => b ∈ w.blocks
  candidates : ∀ c ∈ w.candidates, Proposed (fun b => b ∈ w.blocks) c
  blocks : ∀ b ∈ w.blocks, Proposed (fun b => b ∈ w.blocks) b

theorem honest_new (settings : ι → ChainSettings) (identity : ι → Digest) :
    (new settings identity).Honest where
  within i := Keeper.within_new (settings i) (identity i)
  candidates _ hc := absurd hc List.not_mem_nil
  blocks _ hb := absurd hb List.not_mem_nil

/-- Something happens. -/
inductive Event (ι : Type)
  /-- A keeper is told something. -/
  | told (node : ι) (turn : Keeper.Turn)
  /-- A nonce is found for a candidate. -/
  | found (candidate : Block) (nonce : Digest)

/-- A keeper is told no blocks but those that were found, and blocks are found for no
candidates but those that were started. -/
def Allows (w : Network ι) : Event ι → Prop
  | .told _ t => ∀ b ∈ t.command.blocks, b ∈ w.blocks
  | .found c _ => c ∈ w.candidates

instance decidableAllows (w : Network ι) : (e : Event ι) → Decidable (w.Allows e)
  | .told _ t => inferInstanceAs (Decidable (∀ b ∈ t.command.blocks, b ∈ w.blocks))
  | .found c _ => inferInstanceAs (Decidable (c ∈ w.candidates))

variable [DecidableEq ι]

/-- The network after an event.  A keeper that mines after it was told something has
started a candidate. -/
def step (w : Network ι) : Event ι → Network ι
  | .told i t =>
      let k := ((w.keepers i).told t).keeper
      { w with
        keepers := Function.update w.keepers i k
        candidates := (k.attempt.map Attempt.candidate).toList ++ w.candidates }
  | .found c n => { w with blocks := { c with nonce := n } :: w.blocks }

/-- The networks that come about from keepers at the start. -/
inductive Reachable (settings : ι → ChainSettings) (identity : ι → Digest) : Network ι → Prop
  | start : Reachable settings identity (new settings identity)
  | step {w : Network ι} {e : Event ι} : Reachable settings identity w → w.Allows e →
      Reachable settings identity (w.step e)

/-! ### What always holds -/

theorem Honest.told {w : Network ι} (h : w.Honest) (i : ι) {t : Keeper.Turn}
    (ht : ∀ b ∈ t.command.blocks, b ∈ w.blocks) : (w.step (.told i t)).Honest := by
  have htold := (h.within i).told h.blocks ht
  refine ⟨fun j => ?_, fun c hc => ?_, h.blocks⟩
  · by_cases hji : j = i
    · subst hji
      show ((Function.update w.keepers j _) j).Within _
      rw [Function.update_self]
      exact htold
    · show ((Function.update w.keepers i _) j).Within _
      rw [Function.update_of_ne hji]
      exact h.within j
  · -- a candidate is new only if the keeper has just started it
    rcases List.mem_append.1 hc with hc | hc
    · obtain ⟨a, ha, rfl⟩ := Option.map_eq_some_iff.1 (Option.mem_toList.1 hc)
      exact htold.proposed a ha
    · exact h.candidates c hc

theorem Honest.found {w : Network ι} (h : w.Honest) {c : Block} (hc : c ∈ w.candidates)
    (n : Digest) : (w.step (.found c n)).Honest := by
  have hmore : ∀ b, b ∈ w.blocks → b ∈ (w.step (.found c n)).blocks :=
    fun b hb => List.mem_cons_of_mem _ hb
  refine ⟨fun i => (h.within i).mono hmore, fun d hd => (h.candidates d hd).mono hmore, ?_⟩
  intro b hb
  -- the block that was found is a candidate but for its nonce
  rcases List.mem_cons.1 hb with rfl | hb
  · exact ((h.candidates c hc).with_nonce n).mono hmore
  · exact (h.blocks b hb).mono hmore

theorem honest_of_reachable {settings : ι → ChainSettings} {identity : ι → Digest}
    {w : Network ι} (h : Reachable settings identity w) : w.Honest := by
  induction h with
  | start => exact honest_new settings identity
  | @step w e _ hallows ih =>
    cases e with
    | told i t => exact ih.told i hallows
    | found c n => exact ih.found hallows n

/-- **On no chain, at no time, is a transaction confirmed twice**, rewards aside: not
once a keeper has handled what it was told, and not while it handles it.  It is enough
that the blocks found are known by their nonces and their transactions by their names. -/
theorem confirmsOnce_of_reachable {settings : ι → ChainSettings} {identity : ι → Digest}
    {w : Network ι} (hw : Reachable settings identity w)
    (hblocks : Identified fun b => b ∈ w.blocks) (hnames : Distinct fun b => b ∈ w.blocks)
    (i : ι) :
    ConfirmsOnce (w.keepers i).ledger.chain ∧
      ∀ t : Keeper.Turn, (∀ b ∈ t.command.blocks, b ∈ w.blocks) →
        ∀ l ∈ (w.keepers i).passes t, ConfirmsOnce l.chain := by
  have h := honest_of_reachable hw
  constructor
  · exact (h.within i).confirmsOnce h.blocks hblocks hnames
  · intro t ht l hl
    obtain ⟨k, hk, rfl⟩ := (h.within i).passes h.blocks ht l hl
    exact hk.confirmsOnce h.blocks hblocks hnames

/-! ### Two keepers that find blocks at the same time -/

/-- The network after a sequence of events. -/
def run (w : Network ι) (es : List (Event ι)) : Network ι := es.foldl step w

/-- Each event of a sequence is allowed when its turn comes. -/
def AllowsAll (w : Network ι) : List (Event ι) → Prop
  | [] => True
  | e :: es => w.Allows e ∧ (w.step e).AllowsAll es

instance decidableAllowsAll : (w : Network ι) → (es : List (Event ι)) → Decidable (w.AllowsAll es)
  | _, [] => .isTrue trivial
  | w, e :: es =>
      have := decidableAllowsAll (w.step e) es
      inferInstanceAs (Decidable (w.Allows e ∧ (w.step e).AllowsAll es))

theorem Reachable.run {settings : ι → ChainSettings} {identity : ι → Digest} {w : Network ι}
    (h : Reachable settings identity w) {es : List (Event ι)} (hall : w.AllowsAll es) :
    Reachable settings identity (w.run es) := by
  induction es generalizing w with
  | nil => exact h
  | cons e es ih => exact ih (h.step hall.1) hall.2

namespace Pair

/-- The digest of zero bytes but for the first. -/
def digest (n : UInt8) : Digest := ⟨n :: List.replicate 31 0, rfl⟩

/-- Two keepers that take any nonce. -/
def start : Network Bool :=
  new (fun _ => { difficulty := 0 }) fun i => digest (if i then 1 else 2)

/-- A payment. -/
def payment (n : UInt8) : Transaction := .make (digest n) (digest 9) 5

/-- A block that confirms a payment, found by one of the keepers. -/
def block (finder : Bool) (previous nonce paid : UInt8) : Block :=
  ⟨digest previous, digest nonce, default,
    [.coinbase (digest (if finder then 1 else 2)) 1, payment paid]⟩

/-- A keeper is told something. -/
def told (i : Bool) (c : ChainCommand) : Event Bool := .told i ⟨.first, default, c⟩

/-- A keeper finds a block that it is mining. -/
def mined (i : Bool) (attempt : Nat) (b : Block) : List (Event Bool) :=
  [.found { b with nonce := .zero } b.nonce, told i (.mined attempt b 0)]

/-- Both keepers confirm the same payment.  Then one of them finds a second block, and
the other hears of it and of the first. -/
def events : List (Event Bool) :=
  let peer := .v4 ⟨127, 0, 0, 1⟩ 5000
  [told false (.submit (payment 3)), told true (.transaction (payment 3) 1 peer)]
    ++ mined false 1 (block false 0 11 3) ++ mined true 1 (block true 0 12 3)
    ++ [told false (.submit (payment 4))] ++ mined false 2 (block false 11 13 4)
    ++ [told true (.block (block false 11 13 4) 1 peer),
      told true (.block (block false 0 11 3) 1 peer)]

/-- The blocks that are found, the last one first. -/
def foundBlocks : List Block := [block false 11 13 4, block true 0 12 3, block false 0 11 3]

/-- After the reorganization the payment that both confirmed is confirmed once. -/
theorem count_payment_eq_one :
    ((start.run events).keepers true).ledger.chain = [block false 0 11 3, block false 11 13 4] ∧
      ((((start.run events).keepers true).ledger.chain.flatMap Block.transactions).map
        Transaction.name).count (payment 3).name = 1 := by
  have hrun : start.AllowsAll events ∧
      (start.run events).blocks = foundBlocks ∧
      ((start.run events).keepers true).ledger.chain =
        [block false 0 11 3, block false 11 13 4] := by decide +kernel
  obtain ⟨hallowed, hfound, hchain⟩ := hrun
  have hreachable : Reachable _ _ (start.run events) := Reachable.run .start hallowed
  have hblocks : Identified fun b => b ∈ (start.run events).blocks := by
    rw [hfound]
    have hall : ∀ a ∈ foundBlocks, ∀ b ∈ foundBlocks, a.nonce = b.nonce → a = b := by
      decide +kernel
    exact ⟨by decide +kernel, fun a b ha hb => hall a ha b hb⟩
  have hnames : Distinct fun b => b ∈ (start.run events).blocks := by
    rw [hfound]
    have hall : ∀ b ∈ foundBlocks, ∀ c ∈ foundBlocks, ∀ t ∈ b.transactions,
        ∀ u ∈ c.transactions, t.name = u.name → t = u := by decide +kernel
    intro b c hb hc t ht u hu _ _ heq
    exact hall b hb c hc t ht u hu heq
  refine ⟨hchain, ?_⟩
  refine (confirmsOnce_of_reachable hreachable hblocks hnames true).1 (payment 3) ?_ (by decide)
  rw [hchain]
  decide +kernel

end Pair

end Network
end GossipLedger
