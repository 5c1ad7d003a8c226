import GossipLedger.Net.PeerSet
import GossipLedger.Wire.Codec

/-!
# Packets on their way out

What a node hands to its transport: a packet for one peer, or for all peers but
one.

## Main definitions

* `Outbound` — a packet with its addressees.
* `Outbound.datagrams` — the datagrams that the transport makes of it.
-/

namespace GossipLedger

/-- A packet with its addressees. -/
inductive Outbound
  /-- For one peer. -/
  | unicast (target : PeerAddress) (packet : Packet)
  /-- For all peers, apart from one. -/
  | broadcast (packet : Packet) (exclude : Option PeerAddress)
  deriving DecidableEq

namespace Outbound

/-- The packet. -/
def packet : Outbound → Packet
  | unicast _ packet => packet
  | broadcast packet _ => packet

/-- The peers that a packet goes to.  A node sends nothing to all peers that would
come back to itself. -/
def targets (self : PeerAddress) (peers : PeerSet) : Outbound → List PeerAddress
  | unicast target _ => [target]
  | broadcast _ exclude => peers.toList.filter fun p => some p ≠ exclude && p ≠ self

/-- The datagrams that the transport makes.  A packet that is too large is
dropped. -/
def datagrams (self : PeerAddress) (peers : PeerSet) (o : Outbound) : List (PeerAddress × Bytes) :=
  match o.packet.encode with
  | .ok bytes => (o.targets self peers).map fun p => (p, bytes)
  | .error _ => []

end Outbound

end GossipLedger
