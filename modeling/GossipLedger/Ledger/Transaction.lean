import GossipLedger.Digest

/-!
# Transactions

A transaction moves an amount from one digest to another.  Its name is the hash
of its contents; a transaction that carries another name was tampered with.

## Main definitions

* `Transaction` — an input, an output, an amount and a name.
* `Transaction.contents` — the bytes whose hash is the right name.
* `Transaction.make`, `Transaction.coinbase` — transactions with the right name.
* `Transaction.WellFormed` — the name is the right one.
-/

namespace GossipLedger

/-- A transfer of an amount from the input to the output. -/
structure Transaction where
  input : Digest
  output : Digest
  amount : UInt32
  name : Digest
  deriving DecidableEq, Inhabited

namespace Transaction

/-- The bytes that name a transfer: the amount as a little-endian word, the input
and the output. -/
def contents (input output : Digest) (amount : UInt32) : Bytes :=
  littleEndian 4 amount.toNat ++ input.bytes ++ output.bytes

/-- The right name of a transfer. -/
def nameOf (input output : Digest) (amount : UInt32) : Digest :=
  .ofMessage (contents input output amount)

/-- A transaction with the right name. -/
def make (input output : Digest) (amount : UInt32) : Transaction :=
  ⟨input, output, amount, nameOf input output amount⟩

/-- The reward for the miner of a block.  It has no real input. -/
def coinbase (miner : Digest) (reward : UInt32) : Transaction := make .zero miner reward

/-- Whether a transaction has no real input. -/
def isCoinbase (t : Transaction) : Bool := t.input.isZero

/-- The name is the hash of the contents. -/
def WellFormed (t : Transaction) : Prop := t.name = nameOf t.input t.output t.amount

instance (t : Transaction) : Decidable t.WellFormed := inferInstanceAs (Decidable (_ = _))

/-- A transaction for a reader: who pays whom how much under which name. -/
def text (t : Transaction) : String :=
  t.input.short ++ " -> " ++ t.output.short ++ " (" ++ toString t.amount.toNat ++ ") ["
    ++ t.name.short ++ "]"

theorem wellFormed_make (input output : Digest) (amount : UInt32) :
    (make input output amount).WellFormed := rfl

end Transaction

end GossipLedger
