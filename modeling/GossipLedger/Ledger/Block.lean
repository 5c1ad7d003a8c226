import GossipLedger.Ledger.Transaction
import GossipLedger.Time.Timestamp

/-!
# Blocks

A block confirms transactions on top of another block.  It is known by its nonce,
which is also its proof of work: the more zero bytes a nonce begins with, the
longer it took to find.

## Main definitions

* `Block` — the nonce of its predecessor, its own nonce, a time and transactions.
* `Block.contents`, `Block.contentHash` — the bytes that are hashed for the next
  nonce to try, and their hash.
* `Block.candidate` — a block that is still to be mined.
-/

namespace GossipLedger

/-- Transactions confirmed together. -/
structure Block where
  /-- The nonce of the block before, or zero for the first block. -/
  previous : Digest
  /-- The nonce, by which the block is known. -/
  nonce : Digest
  time : Timestamp
  transactions : List Transaction
  deriving DecidableEq, Inhabited

namespace Block

/-- A block to be mined on top of another. -/
def candidate (previous : Digest) (time : Timestamp) (transactions : List Transaction) : Block :=
  ⟨previous, .zero, time, transactions⟩

/-- The bytes of a block that are hashed: both nonces, the time in whole
milliseconds, the number of transactions and their names. -/
def contents (b : Block) : Bytes :=
  b.previous.bytes ++ b.nonce.bytes ++ littleEndian 8 (b.time.millis % UInt64.size).toNat
    ++ littleEndian 4 b.transactions.length ++ b.transactions.flatMap fun t => t.name.bytes

/-- The hash of the contents. -/
def contentHash (b : Block) : Digest := .ofMessage b.contents

/-- The nonce shows enough work. -/
def Meets (b : Block) (difficulty : Nat) : Prop := b.nonce.Meets difficulty

instance (b : Block) (difficulty : Nat) : Decidable (b.Meets difficulty) :=
  inferInstanceAs (Decidable (b.nonce.Meets difficulty))

/-- The other block stands directly on top of this one. -/
def IsParentOf (b child : Block) : Prop := child.previous = b.nonce

instance (b child : Block) : Decidable (b.IsParentOf child) :=
  inferInstanceAs (Decidable (_ = _))

/-- Whether a transaction of a given name is among those of the block. -/
def confirms (b : Block) (name : Digest) : Bool := b.transactions.any fun t => t.name = name

/-- Whether two blocks have the name of a transaction in common. -/
def sharesTransactions (b other : Block) : Bool := other.transactions.any fun t => b.confirms t.name

end Block

end GossipLedger
