import GossipLedger.Ledger.Block
import GossipLedger.Net.Address

/-!
# Commands to the keeper of a ledger

## Main definitions

* `ChainCommand` — what the keeper of a ledger is told.
-/

namespace GossipLedger

/-- What the keeper of a ledger is told. -/
inductive ChainCommand
  /-- A transaction was made on this node. -/
  | submit (transaction : Transaction)
  /-- A transaction came from a peer. -/
  | transaction (transaction : Transaction) (hopLimit : UInt32) (origin : PeerAddress)
  /-- A block came from a peer. -/
  | block (block : Block) (hopLimit : UInt32) (origin : PeerAddress)
  /-- A mining attempt found a block after some milliseconds. -/
  | mined (attempt : Nat) (block : Block) (elapsed : Nat)
  deriving DecidableEq

end GossipLedger
