import GossipLedger.Http.Message
import GossipLedger.Http.Percent
import GossipLedger.Text.Fields

/-!
# Demands

What a client can demand of the nodes of a process, and the paths and methods that
say it.  A name within a path is percent-encoded; at the end of a path it is not
empty.

## Main definitions

* `Resource` — what a path stands for, and `Resource.ofPath?`.
* `Demand` — a resource with what is to be done, and `Resource.demand?`.
* `Demand.decode?` — the demand with its names decoded.
-/

namespace GossipLedger

/-- What a path stands for; names are of type `α`. -/
inductive Resource (α : Type)
  | health
  | nodes
  | node (name : α)
  | messages (name : α)
  | transactions (name : α)
  | peers (name : α)
  | balance (name account : α)
  deriving DecidableEq, Repr

/-- The resource below a node. -/
def Resource.below? (name : List Char) : List (List Char) → Option (Resource (List Char))
  | [] => if name = [] then none else some (.node name)
  | [part] =>
      if part = "messages".toList then some (.messages name)
      else if part = "transactions".toList then some (.transactions name)
      else if part = "peers".toList then some (.peers name)
      else none
  | [part, account] =>
      if part = "balance".toList ∧ account ≠ [] then some (.balance name account) else none
  | _ => none

/-- What a path stands for, if for anything. -/
def Resource.ofPath? (path : List Char) : Option (Resource (List Char)) :=
  match fields '/' path with
  | [[], first] => if first = "health".toList then some .health else none
  | [] :: first :: second :: third :: rest =>
      if first = "api".toList ∧ second = "v1".toList ∧ third = "nodes".toList then
        match rest with
        | [] => some .nodes
        | name :: below => below? name below
      else none
  | _ => none

/-- What a client demands; names are of type `α`. -/
inductive Demand (α : Type)
  /-- To know whether the process works. -/
  | checkHealth
  /-- The names of the nodes. -/
  | listNodes
  | startNode
  /-- The state of a node. -/
  | showNode (name : α)
  | stopNode (name : α)
  | sendMessage (name : α)
  | sendTransaction (name : α)
  | addPeers (name : α)
  /-- The balance of an account as a node sees it. -/
  | showBalance (name account : α)
  deriving DecidableEq, Repr

/-- What a method demands of a resource, if it may be used there. -/
def Resource.demand? {α : Type} : Resource α → Method → Option (Demand α)
  | .health, .get | .health, .head => some .checkHealth
  | .nodes, .get | .nodes, .head => some .listNodes
  | .nodes, .post => some .startNode
  | .node name, .get | .node name, .head => some (.showNode name)
  | .node name, .delete => some (.stopNode name)
  | .messages name, .post => some (.sendMessage name)
  | .transactions name, .post => some (.sendTransaction name)
  | .peers name, .post => some (.addPeers name)
  | .balance name account, .get | .balance name account, .head => some (.showBalance name account)
  | _, _ => none

/-- The demand with its names decoded, if they are texts. -/
def Demand.decode? : Demand (List Char) → Option (Demand String)
  | .checkHealth => some .checkHealth
  | .listNodes => some .listNodes
  | .startNode => some .startNode
  | .showNode name => (percentText? name).map .showNode
  | .stopNode name => (percentText? name).map .stopNode
  | .sendMessage name => (percentText? name).map .sendMessage
  | .sendTransaction name => (percentText? name).map .sendTransaction
  | .addPeers name => (percentText? name).map .addPeers
  | .showBalance name account => do
    return .showBalance (← percentText? name) (← percentText? account)

end GossipLedger
