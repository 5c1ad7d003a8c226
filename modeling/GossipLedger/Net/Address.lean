/-!
# Peer addresses

A peer is reached by UDP at an IP address and a port.

## Main definitions

* `HostV4`, `HostV6` — IP addresses of either kind.
* `PeerAddress` — an IP address with a port and, for the long kind, a scope.
-/

namespace GossipLedger

/-- An IP address of four bytes. -/
structure HostV4 where
  a : UInt8
  b : UInt8
  c : UInt8
  d : UInt8
  deriving DecidableEq, Repr

/-- An IP address of eight groups of 16 bits. -/
structure HostV6 where
  groups : List UInt16
  length_groups : groups.length = 8
  deriving DecidableEq

/-- The address of a peer. -/
inductive PeerAddress
  | v4 (host : HostV4) (port : UInt16)
  | v6 (host : HostV6) (scope : UInt32) (port : UInt16)
  deriving DecidableEq

namespace PeerAddress

/-- The port. -/
def port : PeerAddress → UInt16
  | v4 _ port => port
  | v6 _ _ port => port

/-- The same host with another port. -/
def withPort (port : UInt16) : PeerAddress → PeerAddress
  | v4 host _ => v4 host port
  | v6 host scope _ => v6 host scope port

/-- Whether the address is of the short kind. -/
def isV4 : PeerAddress → Bool
  | v4 _ _ => true
  | v6 _ _ _ => false

end PeerAddress

end GossipLedger
