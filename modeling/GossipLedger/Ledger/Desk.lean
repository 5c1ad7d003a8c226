import GossipLedger.Ledger.Keeper
import GossipLedger.Wire.Outbound

/-!
# Keepers at work

A keeper works at a desk, where packets lie that are published later.  What it
publishes at once comes first, then whatever has waited long enough.

## Main definitions

* `Desk` — a keeper with the packets that wait.
* `Desk.tell` — a command and what goes out because of it.
* `Desk.release` — what has waited long enough goes out.
* `Desk.mine` — attempts to mine come to an end.
-/

namespace GossipLedger

/-- A keeper with the packets that wait to be published. -/
structure Desk where
  keeper : Keeper
  /-- Whether the keeper still takes commands. -/
  alive : Bool
  /-- The packets that wait, with the times at which they go out. -/
  waiting : List (Nat × Packet)

/-- What is published at once. -/
def Publication.immediate? : Publication → Option Outbound
  | .now packet exclude => some (.broadcast packet exclude)
  | .later _ _ => none

/-- What is published later, with the time when it is handed over at `now`. -/
def Publication.delayed? (now : Nat) : Publication → Option (Nat × Packet)
  | .now _ _ => none
  | .later delay packet => some (now + delay, packet)

namespace Desk

/-- A keeper begins to work. -/
def new (k : Keeper) : Desk := ⟨k, true, []⟩

/-- What has waited long enough goes out, in the order of the times. -/
def release (now : Nat) (d : Desk) : Desk × List Outbound :=
  let (due, waiting) := d.waiting.partition fun e => e.1 ≤ now
  ({ d with waiting := waiting },
    (due.mergeSort fun a b => a.1 ≤ b.1).map fun e => .broadcast e.2 none)

/-- The keeper is told something; a keeper that has ended takes no notice. -/
def tell (picker : Picker Block) (time : Timestamp) (now : Nat) (d : Desk) (c : ChainCommand) :
    Desk × List Outbound :=
  if d.alive then
    let result := d.keeper.handle picker time c
    let (d, late) := release now {
      keeper := result.keeper
      alive := result.alive
      waiting := d.waiting ++ result.published.filterMap (Publication.delayed? now) }
    (d, result.published.filterMap Publication.immediate? ++ late)
  else (d, [])

/-- Attempts to mine come to an end at once, at most `fuel` of them, until the chain
has a given height if there is one. -/
def mine (picker : Picker Block) (time : Timestamp) (now : Nat) (height : Option Nat) :
    Nat → Desk → Desk × List Outbound
  | 0, d => (d, [])
  | fuel + 1, d =>
      if height.any (· ≤ d.keeper.ledger.chain.length) then (d, [])
      else match d.keeper.finishAttempt? 0 with
        | none => (d, [])
        | some c =>
            let (d, sent) := d.tell picker time now c
            let (d, later) := mine picker time now height fuel d
            (d, sent ++ later)

/-- The keeper stops. -/
def stop (d : Desk) : Desk := { d with keeper := d.keeper.stop, alive := false }

end Desk

end GossipLedger
