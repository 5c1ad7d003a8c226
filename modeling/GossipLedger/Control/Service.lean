import GossipLedger.Control.Demand
import GossipLedger.Control.Form
import GossipLedger.Http.MediaType
import GossipLedger.Node.Registry
import GossipLedger.Node.State

/-!
# The control service

Clients control the nodes of a process by requests.  A `Handler` does one thing
after the other with the nodes, until all is done or something is at fault; what
was done until then stays done.  So it matters that a handler reads a request to
the end before it touches a node.

## Main definitions

* `Surroundings` — what the service meets besides the nodes.
* `ControlFault` — why a request fails, and `ControlFault.response`.
* `Session` — the nodes and what was done with them, and `Handler`.
* `readBody` — the form in the body of a request.
* `fulfil` — what is done for a demand.
* `respond` — the answer to a request.
-/

namespace GossipLedger

open Json

/-- What the service meets besides the nodes. -/
structure Surroundings where
  occasion : Occasion
  bind : Binder
  /-- The pick of a node where several have the name or the address of a new one. -/
  among : Picker Node
  /-- The miner of a new node for which none is configured. -/
  identity : Digest
  /-- The seconds since the start of 1970. -/
  seconds : Nat

/-! ### Faults -/

/-- Why a request fails. -/
inductive ControlFault
  /-- It is turned away before anyone looked at what it asks. -/
  | refused (status : ResponseStatus) (failed : status ≠ .ok := by decide)
  | missingField (name : String)
  | badAddress (fault : AddressFault)
  | node (fault : NodeFault)
  deriving DecidableEq

namespace ControlFault

/-- The status that goes with a fault. -/
def status : ControlFault → ResponseStatus
  | refused status _ => status
  | missingField _ | badAddress _ => .badRequest
  | node (.unknown _) => .notFound
  | node (.stopped _) => .unavailable
  | node (.cannotBind _) => .internalError

/-- The diagnostic; there is none for a request that is turned away. -/
def message? : ControlFault → Option String
  | refused _ _ => none
  | missingField name => some ("missing field: " ++ name)
  | badAddress fault => some ("bad request: " ++ fault.message)
  | node fault => some fault.message

end ControlFault

/-- The body of a response. -/
def envelope (success : Bool) (data : Document) (message : String) : Document :=
  .record [("success", .boolean success), ("data", data), ("message", .text message)]

/-- The response to a request that fails. -/
def ControlFault.response (f : ControlFault) : Response :=
  ⟨f.status, f.message?.map (envelope false .null)⟩

/-! ### Sessions -/

/-- A command in the queues of a node. -/
inductive NodeCommand
  | client (request : ClientRequest)
  | shutdown
  deriving DecidableEq

/-- The nodes in the course of a request. -/
structure Session where
  registry : Registry
  /-- The commands that were queued, with the names of the nodes, oldest first. -/
  told : List (String × NodeCommand)
  /-- The packets that go out. -/
  sent : List Outbound

/-- The nodes before a request. -/
def Session.new (r : Registry) : Session := ⟨r, [], []⟩

/-- What is done for a request.  Where it fails, the session is as it has become by
then. -/
abbrev Handler := ExceptT ControlFault (StateM Session)

/-- What is done with the nodes, with the faults of a node as faults of the
request. -/
def withNodes {α : Type} (f : Registry → Registry.Outcome α) : Handler α := do
  let t ← get
  let (a, r) := f t.registry
  set { t with registry := r }
  match a with
  | .ok a => return a
  | .error f => throw (.node f)

/-- What a look at the nodes shows. -/
def look {α : Type} (f : Registry → α) : Handler α := return f (← get).registry

/-- The node under a name. -/
def lookUp (name : String) : Handler Node := withNodes fun r => (r.node name, r)

/-- A command was queued, and packets go out. -/
def note (name : String) (c : NodeCommand) (sent : List Outbound) : Handler Unit :=
  modify fun t => { t with told := t.told ++ [(name, c)], sent := t.sent ++ sent }

/-- The node under a name is told something on behalf of a client. -/
def inject (s : Surroundings) (name : String) (c : ClientRequest) : Handler Unit := do
  let sent ← withNodes fun r => r.tell s.occasion name (.client c)
  note name (.client c) sent

/-- The node under a name learns of peers, one after the other. -/
def addPeers (s : Surroundings) (name : String) : List PeerAddress → Handler Unit
  | [] => return
  | p :: ps => do
      inject s name (.addPeer p)
      addPeers s name ps

/-- The node under a name is taken out and stopped. -/
def remove (name : String) : Handler Unit := do
  let running ← look fun r => (r.node? name).any Node.running
  let _ ← withNodes fun r => r.stop name
  -- the queues of a node that has stopped before are closed
  if running then note name .shutdown []

/-! ### Bodies -/

/-- The most bytes that a body may have. -/
def maxBody : Nat := 2 * 1024 * 1024

/-- The form in the body of a request.  The body must be said to be JSON; what
follows the value in it is ignored. -/
def readBody {α : Type} (form : Form α) (q : Request) : Except ControlFault α :=
  match q.contentType.bind MediaType.parse? with
  | none => .error (.refused .unsupportedMediaType)
  | some type =>
      if ¬type.IsJson then .error (.refused .unsupportedMediaType)
      else if maxBody < q.body.length then .error (.refused .payloadTooLarge)
      else match readLeading form.read q.body with
        | .ok a => .ok a
        | .error (.flaw _) => .error (.refused .badRequest)
        | .error (.mismatch _) => .error (.refused .unprocessable)

/-- What a demand cannot do without. -/
def require {α : Type} (name : String) : Option α → Except ControlFault α
  | some a => .ok a
  | none => .error (.missingField name)

/-- The addresses in a text, with its fault as a fault of the request. -/
def withAddress {α : Type} : Except AddressFault α → Except ControlFault α
  | .ok a => .ok a
  | .error f => .error (.badAddress f)

/-- The account of a label: the digest that it spells, or else its own digest. -/
def account (label : String) : Digest :=
  match Digest.parse label with
  | .ok d => d
  | .error _ => .ofMessage (utf8 label)

/-- What the sender of a message asks for. -/
def MessageForm.request (f : MessageForm) (text : String) : ClientRequest :=
  match f.destination with
  | some destination => .secret destination text
  | none => if f.broadcast then .broadcast text else .rumor text

/-! ### Demands -/

/-- What is done for a demand, with the body of the response. -/
def fulfil (s : Surroundings) (q : Request) : Demand String → Handler Document
  | .checkHealth => do
      let count ← look Registry.size
      return .record [("status", .text "healthy"), ("nodes", .whole count),
        ("timestamp", .whole s.seconds)]
  | .listNodes => do
      let names ← look Registry.names
      return envelope true (.list (names.map .text)) (toString names.length ++ " nodes running")
  | .startNode => do
      let f ← readBody StartForm.form q
      let name ← require "name" f.name
      let address ← withAddress (PeerAddress.parse (← require "address" f.address))
      let peers ← withAddress (PeerAddress.parseList (f.peers.getD ""))
      let n ← withNodes fun r =>
        r.start s.bind s.among s.identity s.occasion.now name address peers
      return envelope true (.record [("name", .text n.name),
        ("address", .text n.address.text), ("miner", .text n.miner.text)]) "node running"
  | .showNode name => do
      let n ← lookUp name
      return envelope true n.state.document "ok"
  | .stopNode name => do
      remove name
      return envelope true (.text name) "node stopped"
  | .sendMessage name => do
      let f ← readBody MessageForm.form q
      let n ← lookUp name
      let text ← require "text" f.text
      inject s name (f.request text)
      return envelope true (.text n.name) "message queued"
  | .sendTransaction name => do
      let f ← readBody TransactionForm.form q
      let n ← lookUp name
      let input ← require "input" f.input
      let output ← require "output" f.output
      let amount ← require "amount" f.amount
      inject s name (.transaction (account input) (account output) amount)
      return envelope true (.text n.name) "transaction queued"
  | .addPeers name => do
      let f ← readBody PeersForm.form q
      let _ ← lookUp name
      let peers ← withAddress (PeerAddress.parseList (← require "peers" f.peers))
      addPeers s name peers
      return envelope true (.list (peers.map fun p => .text p.text)) "peers added"
  | .showBalance name label => do
      let n ← lookUp name
      return envelope true (.record [("hash", .text (account label).text),
        ("balance", .whole (n.ledger.balance (account label)))]) "ok"

/-- The demand that a request makes. -/
def Request.demand (q : Request) : Except ControlFault (Demand String) :=
  match Resource.ofPath? q.path with
  | none => .error (.refused .notFound)
  | some resource => match resource.demand? q.method with
    | none => .error (.refused .methodNotAllowed)
    | some demand => match demand.decode? with
      | none => .error (.refused .badRequest)
      | some demand => .ok demand

/-- What is done for a request, with the body of the response. -/
def handle (s : Surroundings) (q : Request) : Handler Document := do
  fulfil s q (← q.demand)

/-- The response to a request of which a given thing has come. -/
def Request.response (q : Request) : Except ControlFault Document → Response
  | .ok body => { status := .ok, body := some body : Response }.forMethod q.method
  | .error f => f.response.forMethod q.method

/-- The answer to a request, and the session afterwards. -/
def respond (s : Surroundings) (r : Registry) (q : Request) : Response × Session :=
  let (result, t) := (handle s q).run.run (.new r)
  (q.response result, t)

end GossipLedger
