import GossipLedger.Ledger.Block

/-!
# Packets

What nodes send each other, one packet to a datagram.

## Main definitions

* `Simple`, `Rumor`, `PrivateMessage` — texts for everyone, for everyone with
  guaranteed delivery, and for one node.
* `PeerStatus`, `Status` — what a node has, and the answer to a route rumor.
* `TxPublish`, `BlockPublish` — transactions and blocks that are passed on.
* `Packet` — any of these, and `Packet.kind` its name.
-/

namespace GossipLedger

/-- A text that is flooded.  The last relay is named so that nothing is sent
straight back. -/
structure Simple where
  originName : String
  relayAddress : String
  contents : String
  deriving DecidableEq, Inhabited

/-- A text for everyone, numbered by its origin. -/
structure Rumor where
  origin : String
  sequence : UInt32
  text : String
  deriving DecidableEq, Inhabited

/-- The rumor by which a node makes the way to it known: number zero, no text. -/
def Rumor.route (origin : String) : Rumor := ⟨origin, 0, ""⟩

/-- Whether a rumor only makes a way known. -/
def Rumor.isRoute (r : Rumor) : Bool := r.sequence = 0 && r.text.isEmpty

/-- A text for one node, numbered by its origin for each destination. -/
structure PrivateMessage where
  origin : String
  sequence : UInt32
  destination : String
  text : String
  /-- How many more times it may be passed on. -/
  hopLimit : UInt32
  deriving DecidableEq, Inhabited

/-- The number of the next rumor of an origin that a node lacks. -/
structure PeerStatus where
  identifier : String
  nextSequence : UInt32
  deriving DecidableEq, Inhabited

/-- What a node has, or the answer to a route rumor with the name of the node
that answers. -/
inductive Status
  | want (entries : List PeerStatus)
  | route (name : String)
  deriving DecidableEq, Inhabited

/-- A transaction that is passed on. -/
structure TxPublish where
  transaction : Transaction
  hopLimit : UInt32
  deriving DecidableEq, Inhabited

/-- A block that is passed on. -/
structure BlockPublish where
  block : Block
  hopLimit : UInt32
  deriving DecidableEq, Inhabited

/-- The contents of a datagram. -/
inductive Packet
  | simple (message : Simple)
  | rumor (message : Rumor)
  | status (status : Status)
  | secret (message : PrivateMessage)
  | transaction (message : TxPublish)
  | block (message : BlockPublish)
  deriving DecidableEq

/-- The kinds of packets. -/
inductive PacketKind
  | simple
  | rumor
  | status
  | secret
  | transaction
  | block
  deriving DecidableEq, Repr

/-- The kind of a packet. -/
def Packet.kind : Packet → PacketKind
  | .simple _ => .simple
  | .rumor _ => .rumor
  | .status _ => .status
  | .secret _ => .secret
  | .transaction _ => .transaction
  | .block _ => .block

/-- The name of a kind for a reader. -/
def PacketKind.text : PacketKind → String
  | .simple => "SIMPLE"
  | .rumor => "RUMOR"
  | .status => "STATUS"
  | .secret => "PRIVATE"
  | .transaction => "TX"
  | .block => "BLOCK"

/-- The name of a kind in a datagram. -/
def PacketKind.tag : PacketKind → String
  | .simple => "Simple"
  | .rumor => "Rumor"
  | .status => "Status"
  | .secret => "Private"
  | .transaction => "TxPublish"
  | .block => "BlockPublish"

end GossipLedger
