import GossipLedger.Ledger.Summary
import GossipLedger.Node.Basic

/-!
# What clients are shown of a node

## Main definitions

* `NodeState` — the messages, routes, peers and the ledger of a node at one time.
* `Node.state` — the state to be shown, and `NodeState.document` the same in JSON.
-/

namespace GossipLedger

open Json

/-- What clients are shown of a node. -/
structure NodeState where
  name : String
  address : PeerAddress
  miner : Digest
  /-- The rumors, by origin and number. -/
  messages : List Rumor
  /-- The private messages to the node by origin, then those from it by
  destination. -/
  privateMessages : List PrivateMessage
  routes : RoutingTable
  peers : List PeerAddress
  ledger : LedgerSummary

/-- The state to be shown. -/
def Node.state (n : Node) : NodeState where
  name := n.name
  address := n.address
  miner := n.miner
  messages := n.hub.rumors.toList.flatMap Prod.snd
  privateMessages :=
    n.hub.privates.toList.flatMap Prod.snd ++ n.hub.sentPrivates.toList.flatMap Prod.snd
  routes := n.hub.routes
  peers := n.hub.peers.toList
  ledger := n.ledger.summary

/-- The state in JSON. -/
def NodeState.document (s : NodeState) : Document :=
  .record [("name", .text s.name), ("address", .text s.address.text), ("miner", .text s.miner.text),
    ("messages", .list (s.messages.map Rumor.document)),
    ("private_messages", .list (s.privateMessages.map PrivateMessage.document)),
    ("routes", .record (s.routes.toList.map fun e => (e.1, .text e.2.text))),
    ("peers", .list (s.peers.map fun p => .text p.text)),
    ("chain", s.ledger.document)]

end GossipLedger
