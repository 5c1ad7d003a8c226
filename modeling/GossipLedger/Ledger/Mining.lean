import GossipLedger.Ledger.Block

/-!
# Mining

A nonce is found by a chain of hashes: each attempt hashes the block with the
nonce of the attempt before, and the hash is the next nonce, until one meets the
difficulty or the search is told to stop.

## Main definitions

* `Block.rehash` — the block with the next nonce.
* `SearchResult`, `search` — the search, for any hash function and any behaviour
  of the stop signal.
* `Block.mine` — the search with SHA-256 and nobody to stop it.
-/

namespace GossipLedger

/-- The block with the hash of its contents for a nonce. -/
def Block.rehash (hash : Bytes → Digest) (b : Block) : Block :=
  { b with nonce := hash b.contents }

/-- How a search ended. -/
inductive SearchResult
  /-- A nonce meets the difficulty. -/
  | found (block : Block)
  /-- The stop signal was raised. -/
  | stopped
  /-- Neither within the given number of attempts. -/
  | unfinished
  deriving DecidableEq

/-- At most `fuel` attempts from the `attempt`-th on.  Before each of them the stop
signal is looked at. -/
def searchFrom (hash : Bytes → Digest) (stop : Nat → Bool) (difficulty : Nat) :
    Nat → Nat → Block → SearchResult
  | 0, attempt, _ => if stop attempt then .stopped else .unfinished
  | fuel + 1, attempt, b =>
      if stop attempt then .stopped
      else
        let b := b.rehash hash
        if b.Meets difficulty then .found b
        else searchFrom hash stop difficulty fuel (attempt + 1) b

/-- At most `fuel` attempts to find a nonce. -/
def search (hash : Bytes → Digest) (stop : Nat → Bool) (difficulty fuel : Nat) (b : Block) :
    SearchResult :=
  searchFrom hash stop difficulty fuel 0 b

/-- The attempts after which a search is given up: more than the time that anyone
has. -/
def searchLimit : Nat := 1 <<< 62

/-- The block with a nonce that meets the difficulty. -/
def Block.mine (difficulty : Nat) (b : Block) : Option Block :=
  match search .ofMessage (fun _ => false) difficulty searchLimit b with
  | .found b => some b
  | _ => none

end GossipLedger
