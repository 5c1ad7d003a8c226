import GossipLedger.Catalog
import GossipLedger.Net.Address

/-!
# Routing tables

The way to a node is the peer that last brought word of it.

## Main definitions

* `RoutingTable` — the next hop for each name.
* `RoutingTable.learn` — the table after word of a node came from a peer.
-/

namespace GossipLedger

/-- The next hop for each name. -/
abbrev RoutingTable := NameMap PeerAddress

/-- The table after word of a node came from a peer. -/
def RoutingTable.learn (t : RoutingTable) (name : String) (hop : PeerAddress) : RoutingTable :=
  t.set name hop

end GossipLedger
