import GossipLedger.Node.Basic

/-!
# Registries

The nodes of one process, each under the name for which it was started.  To start
a node of which the name or the address is in use is to get one that uses it; the
others come in no particular order, so which one is up to a `Picker`.

Whether an address can be had, and which one where any will do, is an argument:
a `Binder` answers for the transport.

What is done with a registry has an outcome and leaves a registry behind, also
where the outcome is a fault.

## Main definitions

* `Binder` — the address that the transport gets for the one asked for, if any.
* `NodeFault` — why a node cannot be had.
* `Registry` — the nodes, with `start`, `stop`, `stopAll`, `tell`.
* `Registry.Outcome` — what comes of an operation, with the registry left behind.
-/

namespace GossipLedger

/-- The address that the transport gets for the one that is asked for, if any.  A
port of zero asks for any port. -/
abbrev Binder := PeerAddress → Option PeerAddress

/-- Why a node cannot be had. -/
inductive NodeFault
  /-- The address is taken. -/
  | cannotBind (address : PeerAddress)
  /-- The node has stopped. -/
  | stopped (name : String)
  /-- No node has the name. -/
  | unknown (name : String)
  deriving DecidableEq

/-- The diagnostic. -/
def NodeFault.message : NodeFault → String
  | .cannotBind address => "cannot bind " ++ address.text
  | .stopped name => "node " ++ name ++ " is not running"
  | .unknown name => "unknown node " ++ name

/-- The nodes of one process. -/
structure Registry where
  /-- The settings of every node. -/
  settings : Settings
  /-- The nodes, each under the name for which it was started. -/
  nodes : NameMap Node

namespace Registry

/-- What comes of an operation on the nodes, and the registry that it leaves behind. -/
abbrev Outcome (α : Type) := Except NodeFault α × Registry

/-- No nodes yet. -/
def new (settings : Settings) : Registry := ⟨settings, .empty⟩

/-- The number of nodes. -/
def size (r : Registry) : Nat := r.nodes.size

/-- The names in their order. -/
def names (r : Registry) : List String := r.nodes.names

/-- The registered nodes. -/
def values (r : Registry) : List Node := r.nodes.toList.map Prod.snd

/-- The node under a name. -/
def node? (r : Registry) (name : String) : Option Node := r.nodes.get? name

/-- The node under a name, or else the complaint that there is none. -/
def node (r : Registry) (name : String) : Except NodeFault Node :=
  match r.node? name with
  | some n => .ok n
  | none => .error (.unknown name)

/-- The nodes with the name or the address. -/
def similar (r : Registry) (name : String) (address : PeerAddress) : List Node :=
  r.values.filter fun n => n.name = name || n.address = address

/-- The registry with a node under a name, in place of any other. -/
def put (r : Registry) (name : String) (n : Node) : Registry :=
  { r with nodes := r.nodes.set name n }

/-- A node is started, or one that has the name or the address is found. -/
def start (bind : Binder) (among : Picker Node) (identity : Digest) (now : Nat) (r : Registry)
    (name : String) (address : PeerAddress) (peers : List PeerAddress) : Outcome Node :=
  match among.pick (r.similar name address) with
  | some n => (.ok n, r)
  | none => match bind address with
    | none => (.error (.cannotBind address), r)
    | some bound =>
        let n := Node.start r.settings identity now name bound peers
        (.ok n, r.put name n)

/-- A node is taken out and stopped. -/
def stop (r : Registry) (name : String) : Outcome Node :=
  match r.node name with
  | .error f => (.error f, r)
  | .ok n => (.ok n.stop, { r with nodes := r.nodes.erase name })

/-- All nodes are taken out and stopped. -/
def stopAll (r : Registry) : Registry × List Node :=
  (.new r.settings, r.values.map Node.stop)

/-- The node under a name is told something: the packets that go out because of it. -/
def tell (o : Occasion) (r : Registry) (name : String) (c : HubCommand) :
    Outcome (List Outbound) :=
  match r.node name with
  | .error f => (.error f, r)
  | .ok n => match n.tell? o c with
    | none => (.error (.stopped n.name), r)
    | some (n, sent) => (.ok sent, r.put name n)

end Registry

end GossipLedger
