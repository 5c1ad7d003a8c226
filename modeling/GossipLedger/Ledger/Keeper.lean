import GossipLedger.Config
import GossipLedger.Ledger.Basic
import GossipLedger.Ledger.Command
import GossipLedger.Ledger.Mining

/-!
# Keepers

The keeper of a ledger takes transactions and blocks from its node and from peers,
passes on what is new, and mines as long as transactions wait.  An attempt to mine
has a number, by which a result that comes too late is told from one that counts.

Every command is handled by a function from the keeper to the keeper and the
packets to be published.  Where several pooled blocks extend the chain, the pick is
an argument.

## Main definitions

* `Keeper` — the ledger with the attempt being made, and `Keeper.new`.
* `Publication` — a packet for the peers, now or after a delay.
* `Keeper.buildAndMine` — pooled blocks are connected, then mining starts.
* `Keeper.handle` — the effect of a command.
* `Keeper.finishAttempt?` — the result of the attempt being made.
-/

namespace GossipLedger

/-- An attempt to mine a block. -/
structure Attempt where
  /-- How many attempts were started up to this one.  At work it is a word of 64 bits, which is more
  than there are commands, and no command starts two attempts. -/
  number : Nat
  candidate : Block
  deriving DecidableEq

/-- The keeper of a ledger. -/
structure Keeper where
  settings : ChainSettings
  /-- Who gets the rewards. -/
  miner : Digest
  ledger : Ledger
  /-- The attempt being made. -/
  attempt : Option Attempt
  /-- The number of attempts started so far, not more than there were commands. -/
  issued : Nat
  /-- The time that the last own block took, in milliseconds. -/
  lastBlockTime : Nat

/-- A packet for the peers. -/
inductive Publication
  /-- At once, to all peers but one. -/
  | now (packet : Packet) (exclude : Option PeerAddress)
  /-- To all peers after some milliseconds. -/
  | later (delay : Nat) (packet : Packet)
  deriving DecidableEq

namespace Keeper

/-- A keeper at the start.  Without a configured identity it gets the given one. -/
def new (settings : ChainSettings) (identity : Digest) : Keeper where
  settings := settings
  miner := settings.minerHash.getD identity
  ledger := .new settings.difficulty
  attempt := none
  issued := 0
  lastBlockTime := 0

/-- A transaction for the peers, unless no hops are left. -/
def relayTransaction (t : Transaction) (hopLimit : UInt32) (exclude : Option PeerAddress) :
    List Publication :=
  if hopLimit = 0 then [] else [.now (.transaction ⟨t, hopLimit⟩) exclude]

/-- A block for the peers, unless no hops are left. -/
def relayBlock (b : Block) (hopLimit : UInt32) (exclude : Option PeerAddress) : List Publication :=
  if hopLimit = 0 then [] else [.now (.block ⟨b, hopLimit⟩) exclude]

/-- The hops left after one. -/
def lessOne (hopLimit : UInt32) : UInt32 := if hopLimit = 0 then 0 else hopLimit - 1

/-- A block comes to the ledger.  When the chain changes, the attempt being made
ends, and the transactions that wait again are published. -/
def applyBlock (k : Keeper) (b : Block) : Keeper × BlockOutcome × List Publication :=
  let (ledger, outcome) := k.ledger.addBlock b (k.attempt.map Attempt.candidate)
  let k := { k with ledger := ledger }
  match outcome with
  | .extended _ => ({ k with attempt := none }, outcome, [])
  | .reorganized _ requeued =>
      ({ k with attempt := none }, outcome,
        requeued.map fun t => .now (.transaction ⟨t, k.settings.txHopLimit⟩) none)
  | _ => (k, outcome, [])

/-- Pooled blocks that extend the chain are connected, at most `fuel` of them. -/
def connect (picker : Picker Block) : Nat → Keeper → Keeper × List Publication
  | 0, k => (k, [])
  | fuel + 1, k =>
      match k.ledger.nextPooledBlock picker with
      | none => (k, [])
      | some b =>
          let (k, outcome, published) := k.applyBlock b
          if outcome.movedHead then
            let (k, later) := connect picker fuel k
            (k, published ++ later)
          else (k, published)

/-- A new attempt is started, unless one is being made or nothing waits. -/
def startMining (time : Timestamp) (k : Keeper) : Keeper :=
  match k.attempt with
  | some _ => k
  | none =>
      match k.ledger.buildCandidate (.coinbase k.miner k.settings.coinbaseReward) time with
      | none => k
      | some candidate =>
          { k with attempt := some ⟨k.issued + 1, candidate⟩, issued := k.issued + 1 }

/-- Pooled blocks are connected, then mining starts.  No more blocks than there are
in the pool can be connected. -/
def buildAndMine (picker : Picker Block) (time : Timestamp) (k : Keeper) :
    Keeper × List Publication :=
  let (k, published) := k.connect picker k.ledger.pooled.size
  (k.startMining time, published)

/-- What a command leads to. -/
structure Result where
  keeper : Keeper
  /-- What is published, in order. -/
  published : List Publication
  /-- Whether the keeper goes on. -/
  alive : Bool

/-- A transaction of this node or of a peer.  It is dropped if its name is wrong or
known; otherwise it is passed on and mined. -/
def onTransaction (picker : Picker Block) (time : Timestamp) (k : Keeper) (t : Transaction)
    (hopLimit : UInt32) (exclude : Option PeerAddress) : Keeper × List Publication :=
  if ¬t.WellFormed then (k, [])
  else if k.ledger.knows t.name then (k, [])
  else
    let (k, published) := { k with ledger := k.ledger.addTransaction t }.buildAndMine picker time
    (k, relayTransaction t hopLimit exclude ++ published)

/-- A block of a peer.  It is passed on if it is accepted. -/
def onBlock (picker : Picker Block) (time : Timestamp) (k : Keeper) (b : Block)
    (hopLimit : UInt32) (sender : PeerAddress) : Keeper × List Publication :=
  let (k, outcome, published) := k.applyBlock b
  if !outcome.isAccepted then (k, published)
  else
    let published := published ++ relayBlock b (lessOne hopLimit) (some sender)
    if outcome.movedHead then
      let (k, later) := k.buildAndMine picker time
      (k, published ++ later)
    else (k, published)

/-- The whole seconds that a delay can have at most. -/
def maxDelaySeconds : Nat := UInt64.size - 1

/-- The result of an attempt.  An own block is published after a multiple of the
time it took, so that blocks of others come to be known first; a keeper whose delay
is beyond measure ends. -/
def onMined (picker : Picker Block) (time : Timestamp) (k : Keeper) (number : Nat) (b : Block)
    (elapsed : Nat) : Result :=
  if (k.attempt.map Attempt.number) ≠ some number then ⟨k, [], true⟩
  else
    let (k, outcome, published) := { k with attempt := none, lastBlockTime := elapsed }.applyBlock b
    let delay := elapsed * k.settings.publishDelayFactor.toNat
    if outcome.isAccepted ∧ maxDelaySeconds < delay / 1000 then ⟨k, published, false⟩
    else
      let own := if outcome.isAccepted then
          [.later delay (.block ⟨b, k.settings.blockHopLimit⟩)]
        else []
      let (k, later) := k.buildAndMine picker time
      ⟨k, published ++ own ++ later, true⟩

/-- The effect of a command. -/
def handle (picker : Picker Block) (time : Timestamp) (k : Keeper) : ChainCommand → Result
  | .submit t =>
      let (k, published) := k.onTransaction picker time t k.settings.txHopLimit none
      ⟨k, published, true⟩
  | .transaction t hopLimit sender =>
      let (k, published) := k.onTransaction picker time t (lessOne hopLimit) (some sender)
      ⟨k, published, true⟩
  | .block b hopLimit sender =>
      let (k, published) := k.onBlock picker time b hopLimit sender
      ⟨k, published, true⟩
  | .mined number b elapsed => k.onMined picker time number b elapsed

/-- The keeper after it was told to stop. -/
def stop (k : Keeper) : Keeper := { k with attempt := none }

/-- The result of the attempt being made, found after some milliseconds. -/
def finishAttempt? (k : Keeper) (elapsed : Nat) : Option ChainCommand :=
  match k.attempt with
  | none => none
  | some a => (a.candidate.mine k.settings.difficulty).map fun b => .mined a.number b elapsed

end Keeper

end GossipLedger
