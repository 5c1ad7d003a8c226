import GossipLedger.Json.Document
import GossipLedger.Ledger.Basic

/-!
# Summaries of a ledger

## Main definitions

* `LedgerSummary` — the head and the counts that clients are shown.
-/

namespace GossipLedger

/-- What clients are shown of a ledger. -/
structure LedgerSummary where
  /-- The number of confirmed blocks. -/
  length : Nat
  head : Digest
  pooledTransactions : Nat
  pooledBlocks : Nat
  /-- The number of side chains when they were last computed. -/
  sideChains : Nat
  deriving DecidableEq

/-- The summary of a ledger. -/
def Ledger.summary (l : Ledger) : LedgerSummary :=
  ⟨l.chain.length, l.headHash, l.pending.size, l.pooled.size, l.sideChains.length⟩

/-- The summary in JSON. -/
def LedgerSummary.document (s : LedgerSummary) : Json.Document :=
  .record [("length", .whole s.length), ("head", .text s.head.text),
    ("pooled_transactions", .whole s.pooledTransactions),
    ("pooled_blocks", .whole s.pooledBlocks), ("side_chains", .whole s.sideChains)]

end GossipLedger
