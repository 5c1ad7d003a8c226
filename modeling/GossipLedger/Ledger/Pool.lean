import GossipLedger.Catalog
import GossipLedger.Ledger.Block

/-!
# Pools

Transactions that wait to be confirmed, and blocks that did not stand on top of
the chain when they came.  Both are entered under their own key, and the first
one under a key stays.

## Main definitions

* `TransactionPool` — transactions under their names.
* `TransactionPool.removeConfirmed` — the pool after a block confirmed some.
* `BlockPool` — blocks under their nonces.
-/

namespace GossipLedger

/-- Transactions that wait to be confirmed, in the order of their names. -/
abbrev TransactionPool := Catalog Transaction.name

/-- The pool without the transactions that a block confirms. -/
def TransactionPool.removeConfirmed (pool : TransactionPool) (b : Block) : TransactionPool :=
  pool.filter fun t => !b.confirms t.name

/-- Blocks under their nonces. -/
abbrev BlockPool := Catalog Block.nonce

end GossipLedger
