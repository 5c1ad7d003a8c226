import GossipLedger.Ledger.Desk
import GossipLedger.Node.Ticker
import GossipLedger.Rumor.Hub

/-!
# Nodes

A node joins a hub, which deals with rumors and messages, to a keeper of the
ledger, and has two tickers.  What the hub delegates is handed to the keeper in
order; what the keeper publishes goes to the same transport as the packets of the
hub.

A node that has stopped keeps what it knows but takes nothing more.

## Main definitions

* `Occasion` — the time, the picks and the coin that a node meets.
* `Node` — the state, and `Node.start` a node that begins to work.
* `Node.tell?` — a command and the packets that go out because of it.
* `Node.elapse` — what the time brings about.
* `Node.mine`, `Node.stop` — attempts to mine come to an end; the node stops.
-/

namespace GossipLedger

/-- What a node meets when it acts. -/
structure Occasion extends Moment where
  /-- The pick of a pooled block. -/
  blocks : Picker Block
  /-- The time that a new block bears. -/
  time : Timestamp

/-- The state of a node. -/
structure Node where
  hub : Hub
  desk : Desk
  running : Bool
  /-- Rumors are compared with a peer at each tick. -/
  sweeping : Ticker
  /-- The way to a peer is probed at each tick. -/
  probing : Ticker

namespace Node

/-- The name. -/
def name (n : Node) : String := n.hub.name

/-- The address at which packets are taken. -/
def address (n : Node) : PeerAddress := n.hub.address

/-- Who gets the rewards for the blocks of the node. -/
def miner (n : Node) : Digest := n.desk.keeper.miner

/-- The ledger. -/
def ledger (n : Node) : Ledger := n.desk.keeper.ledger

/-- A node that begins to work.  It is no peer of itself. -/
def start (settings : Settings) (identity : Digest) (now : Nat) (name : String)
    (address : PeerAddress) (peers : List PeerAddress) : Node where
  hub := .new name address settings.gossip (.ofList (peers.filter (· ≠ address)))
  desk := .new (.new settings.chain identity)
  running := true
  sweeping := .new now settings.gossip.antiEntropyPeriod
  probing := .new now settings.gossip.routePeriod

/-- The effects of the hub are carried out in order. -/
def carryOut (o : Occasion) (n : Node) : List Effect → Node × List Outbound
  | [] => (n, [])
  | .send packet :: rest =>
      let (n, sent) := n.carryOut o rest
      (n, packet :: sent)
  | .delegate command :: rest =>
      let (desk, sent) := n.desk.tell o.blocks o.time o.now command
      let (n, later) := { n with desk := desk }.carryOut o rest
      (n, sent ++ later)

/-- The hub handles a command. -/
def handle (o : Occasion) (n : Node) (c : HubCommand) : Node × List Outbound :=
  let (hub, effects) := n.hub.handle o.toMoment c
  { n with hub := hub }.carryOut o effects

/-- A command and the packets that go out because of it; nothing once the node has
stopped. -/
def tell? (o : Occasion) (n : Node) (c : HubCommand) : Option (Node × List Outbound) :=
  if n.running then some (n.handle o c) else none

/-- Several commands, one after the other. -/
def tellAll? (o : Occasion) (n : Node) : List HubCommand → Option (Node × List Outbound)
  | [] => some (n, [])
  | c :: cs => do
      let (n, sent) ← n.tell? o c
      let (n, later) ← n.tellAll? o cs
      return (n, sent ++ later)

/-- Rumors are compared with a peer if it is time for it. -/
def sweep (o : Occasion) (n : Node) : Node × List Outbound :=
  if n.sweeping.isDue o.now then
    { n with sweeping := n.sweeping.tick o.now }.handle o .antiEntropy
  else (n, [])

/-- The way to a peer is probed if it is time for it. -/
def probe (o : Occasion) (n : Node) : Node × List Outbound :=
  if n.probing.isDue o.now then
    { n with probing := n.probing.tick o.now }.handle o .routeTick
  else (n, [])

/-- What the time brings about: mongers give up waiting, packets have waited long
enough, and the tickers tick. -/
def elapse (o : Occasion) (n : Node) : Node × List Outbound :=
  if n.running then
    let (hub, effects) := n.hub.settle o.toMoment
    let (n, spread) := { n with hub := hub }.carryOut o effects
    let (desk, published) := n.desk.release o.now
    let (n, swept) := { n with desk := desk }.sweep o
    let (n, probed) := n.probe o
    (n, spread ++ published ++ swept ++ probed)
  else (n, [])

/-- Attempts to mine come to an end, at most `fuel` of them, until the chain has a
given height if there is one. -/
def mine (o : Occasion) (fuel : Nat) (height : Option Nat) (n : Node) : Node × List Outbound :=
  let (desk, sent) := n.desk.mine o.blocks o.time o.now height fuel
  ({ n with desk := desk }, sent)

/-- The node stops: its mongers leave and its keeper ends. -/
def stop (n : Node) : Node :=
  if n.running then { n with hub := n.hub.dismiss, desk := n.desk.stop, running := false } else n

end Node

end GossipLedger
