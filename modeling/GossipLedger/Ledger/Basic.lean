import GossipLedger.Ledger.SideChain
import GossipLedger.Picker

/-!
# The ledger

The chain of confirmed blocks, the transactions and blocks that wait, and the
side chains as they were when they were last computed.  A block on top of the
chain extends it.  Any other new block is pooled, and if a side chain is then
longer than the end of the chain above its root, it replaces that end.

## Main definitions

* `Ledger` — the state, and `Ledger.new` the state at the start.
* `Ledger.addTransaction` — a transaction goes into the pool.
* `Ledger.addBlock` — a block comes in, with a `BlockOutcome`.
* `Ledger.extensions` — pooled blocks on top of the chain.
* `Ledger.buildCandidate` — the block to be mined next.
* `Ledger.balance` — the money of a digest.
-/

namespace GossipLedger

/-- The chain with its pools. -/
structure Ledger where
  /-- The number of zero bytes a nonce must begin with. -/
  difficulty : Nat
  /-- The confirmed blocks, oldest first. -/
  chain : List Block
  /-- The side chains when they were last computed. -/
  sideChains : List SideChain
  /-- The transactions that wait to be confirmed. -/
  pending : TransactionPool
  /-- The blocks that did not extend the chain when they came. -/
  pooled : BlockPool
  deriving DecidableEq

/-- What became of a block. -/
inductive BlockOutcome
  /-- Its nonce does not show enough work. -/
  | invalid
  /-- It is known already. -/
  | ignored
  /-- It extends the chain; `preempted` if it confirmed part of what is mined. -/
  | extended (preempted : Bool)
  /-- It is pooled. -/
  | stored
  /-- A side chain replaced the last `dropped` blocks, and of their transactions
  `requeued` wait again. -/
  | reorganized (dropped : Nat) (requeued : List Transaction)
  deriving DecidableEq

namespace BlockOutcome

/-- Whether the block is new and shows enough work. -/
def isAccepted : BlockOutcome → Bool
  | invalid | ignored => false
  | _ => true

/-- Whether the chain changed. -/
def movedHead : BlockOutcome → Bool
  | extended _ | reorganized _ _ => true
  | _ => false

end BlockOutcome

/-- Where a block fits. -/
inductive BlockKind
  /-- On top of the chain. -/
  | current
  /-- Known already. -/
  | old
  /-- Not on top of the chain. -/
  | unknownParent
  deriving DecidableEq, Repr

namespace Ledger

/-- The ledger at the start. -/
def new (difficulty : Nat) : Ledger := ⟨difficulty, [], [], .empty, .empty⟩

/-- The block that was confirmed last. -/
def head? (l : Ledger) : Option Block := l.chain.getLast?

/-- The nonce that a block on top of the chain points at. -/
def headHash (l : Ledger) : Digest := match l.head? with
  | some b => b.nonce
  | none => .zero

/-- Whether a transaction of a given name is confirmed. -/
def confirms (l : Ledger) (name : Digest) : Bool := l.chain.any fun b => b.confirms name

/-- Whether a transaction of a given name waits or is confirmed. -/
def knows (l : Ledger) (name : Digest) : Bool := l.pending.contains name || l.confirms name

/-- Each block of a chain stands on top of the one before, the first on `tip`. -/
def LinkedFrom (tip : Digest) : List Block → Prop
  | [] => True
  | b :: bs => b.previous = tip ∧ LinkedFrom b.nonce bs

instance decidableLinkedFrom : (tip : Digest) → (bs : List Block) → Decidable (LinkedFrom tip bs)
  | _, [] => .isTrue trivial
  | tip, b :: bs =>
      have := decidableLinkedFrom b.nonce bs
      inferInstanceAs (Decidable (b.previous = tip ∧ LinkedFrom b.nonce bs))

/-- Each block stands on top of the one before, the first on none. -/
def Linked (l : Ledger) : Prop := LinkedFrom .zero l.chain

instance (l : Ledger) : Decidable l.Linked := inferInstanceAs (Decidable (LinkedFrom _ _))

/-! ### Transactions -/

/-- A transaction goes into the pool, unless it waits or is confirmed already. -/
def addTransaction (l : Ledger) (t : Transaction) : Ledger :=
  if l.knows t.name then l else { l with pending := l.pending.add t }

/-- Transactions go back into the pool, unless they are confirmed. -/
def requeue (l : Ledger) (ts : List Transaction) : Ledger :=
  ts.foldl (fun l t => if l.confirms t.name then l else { l with pending := l.pending.add t }) l

/-! ### Blocks -/

/-- Where a block fits.  A pooled block whose predecessor has become the last of
the chain counts as new. -/
def kindOf (l : Ledger) (b : Block) : BlockKind :=
  if onChain l.chain b.nonce then .old
  else if b.previous = l.headHash then .current
  else if l.pooled.contains b.nonce then .old
  else .unknownParent

/-- The chain with one more block on top, whose transactions wait no longer. -/
def extend (l : Ledger) (b : Block) : Ledger :=
  { l with chain := l.chain ++ [b], pending := l.pending.removeConfirmed b }

/-- The side chains computed anew. -/
def rebuildSideChains (l : Ledger) : Ledger :=
  { l with sideChains := GossipLedger.sideChains l.chain l.pooled }

/-- A block is pooled, and the side chains are computed anew. -/
def park (l : Ledger) (b : Block) : Ledger :=
  { l with pooled := l.pooled.add b }.rebuildSideChains

/-- The longer of two side chains, of equals the later. -/
def longerOf (best : Option SideChain) (s : SideChain) : Option SideChain :=
  match best with
  | none => some s
  | some b => if b.blocks.length ≤ s.blocks.length then some s else some b

/-- The last of the longest side chains that overtake. -/
def overtaking? (l : Ledger) : Option SideChain :=
  (l.sideChains.filter fun s => s.Overtakes l.chain.length).foldl longerOf none

/-- The first transaction of each name. -/
def firstOfEachName (ts : List Transaction) : List Transaction :=
  (ts.foldl (fun (r : List Transaction) t =>
    if r.any fun u => u.name = t.name then r else t :: r) []).reverse

/-- The blocks of the chain that a side chain would replace. -/
def dropped (l : Ledger) (s : SideChain) : List Block := l.chain.drop s.kept

/-- The chain is cut back to the block that a side chain stands on.  The blocks of
its end are pooled, and their transactions wait again. -/
def cutBack (l : Ledger) (s : SideChain) : Ledger :=
  { l with
    chain := l.chain.take s.kept
    pooled := (l.dropped s).foldl Catalog.add l.pooled }.requeue
      ((l.dropped s).flatMap Block.transactions)

/-- A side chain replaces the end of the chain, block by block.  What waited before
or waits again does so no longer if the side chain confirms it. -/
def reorganize (l : Ledger) (s : SideChain) : Ledger × BlockOutcome :=
  let spliced := s.blocks.foldl extend (l.cutBack s)
  let requeued := firstOfEachName
    (((l.dropped s).flatMap Block.transactions).filter fun t => spliced.pending.contains t.name)
  (spliced.rebuildSideChains, .reorganized (l.dropped s).length requeued)

/-- A block that shares transactions with the one being mined ends that attempt;
the attempt's transactions go back into the pool. -/
def preempt (l : Ledger) (b : Block) : Option Block → Ledger × Bool
  | some mining =>
      if mining.sharesTransactions b then
        (l.requeue (mining.transactions.filter fun t => !t.isCoinbase), true)
      else (l, false)
  | none => (l, false)

/-- A block comes in while another may be being mined. -/
def addBlock (l : Ledger) (b : Block) (mining : Option Block) : Ledger × BlockOutcome :=
  if ¬b.Meets l.difficulty then (l, .invalid)
  else match l.kindOf b with
    | .old => (l, .ignored)
    | .current =>
        let (l, preempted) := l.preempt b mining
        (l.extend b, .extended preempted)
    | .unknownParent =>
        match (l.park b).overtaking? with
        | some s => (l.park b).reorganize s
        | none => (l.park b, .stored)

/-! ### What follows from the state -/

/-- The pooled blocks on top of the chain. -/
def extensions (l : Ledger) : List Block :=
  l.pooled.toList.filter fun b => b.previous = l.headHash && !onChain l.chain b.nonce

/-- One of the pooled blocks on top of the chain. -/
def nextPooledBlock (l : Ledger) (picker : Picker Block) : Option Block :=
  picker.pick l.extensions

/-- The block to be mined next: the reward and every transaction that waits. -/
def buildCandidate (l : Ledger) (coinbase : Transaction) (time : Timestamp) : Option Block :=
  if l.pending.isEmpty then none
  else some (.candidate l.headHash time
    (coinbase :: l.pending.toList.filter fun t => t.name ≠ coinbase.name))

/-- What a transaction adds to the money of a digest. -/
def gain (d : Digest) (t : Transaction) : Int :=
  (if t.output = d then (t.amount.toNat : Int) else 0)
    - (if t.input = d then (t.amount.toNat : Int) else 0)

/-- The money of a digest on the chain. -/
def balance (l : Ledger) (d : Digest) : Int :=
  ((l.chain.flatMap Block.transactions).map (gain d)).foldr (· + ·) 0

end Ledger

end GossipLedger
