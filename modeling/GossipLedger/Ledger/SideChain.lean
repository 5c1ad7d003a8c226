import GossipLedger.Ledger.Pool

/-!
# Side chains

The blocks that are pooled but not on the chain form trees: each stands on top
of at most one other.  From a block on, the longest path upwards is a branch that
could replace the end of the chain.

## Main definitions

* `longestPath` — the longest path from a block upwards.
* `SideChain` — a branch with the place where it leaves the chain.
* `sideChains` — the branches of all pooled blocks with a known predecessor.
-/

namespace GossipLedger

/-- The first of the longest of several lists. -/
def firstLongest {α : Type} (ls : List (List α)) : List α :=
  ls.foldl (fun best l => if best.length < l.length then l else best) []

/-- A longest path from a block upwards through the orphans, at most `fuel` steps
long.  Of several the one with the smallest nonce at the first difference is
taken, as orphans are listed by their nonces. -/
def longestPath (orphans : List Block) : Nat → Block → List Block
  | 0, b => [b]
  | fuel + 1, b =>
      b :: firstLongest ((orphans.filter fun c => c.previous = b.nonce).map
        (longestPath orphans fuel))

/-- A branch of pooled blocks. -/
structure SideChain where
  /-- The index of the block of the chain that it stands on, none if it starts
  anew. -/
  parent : Option Nat
  blocks : List Block
  deriving DecidableEq

namespace SideChain

/-- The number of blocks of the chain below the branch. -/
def kept (s : SideChain) : Nat := match s.parent with
  | none => 0
  | some i => i + 1

/-- The branch is longer than the end of the chain that it would replace. -/
def Overtakes (s : SideChain) (chainLength : Nat) : Prop := chainLength - s.kept < s.blocks.length

instance (s : SideChain) (n : Nat) : Decidable (s.Overtakes n) :=
  inferInstanceAs (Decidable (_ < _))

end SideChain

/-- The place of a block on a chain. -/
def position (chain : List Block) (nonce : Digest) : Option Nat :=
  chain.findIdx? fun b => b.nonce = nonce

/-- Whether a nonce is on a chain. -/
def onChain (chain : List Block) (nonce : Digest) : Bool := chain.any fun b => b.nonce = nonce

/-- The pooled blocks that are not on the chain. -/
def orphans (chain : List Block) (pool : BlockPool) : List Block :=
  pool.toList.filter fun b => !onChain chain b.nonce

/-- The branch from a root upwards, if its predecessor is on the chain or is none
at all. -/
def branchFrom (chain orphans : List Block) (root : Block) : Option SideChain :=
  let path := longestPath orphans orphans.length root
  match position chain root.previous with
  | some i => some ⟨some i, path⟩
  | none => if root.previous.isZero then some ⟨none, path⟩ else none

/-- The branches of the orphans, in the order of the nonces of their first
blocks.  A branch starts at an orphan whose predecessor is none. -/
def sideChains (chain : List Block) (pool : BlockPool) : List SideChain :=
  let os := orphans chain pool
  (os.filter fun b => !os.any fun o => o.nonce = b.previous).filterMap (branchFrom chain os)

end GossipLedger
