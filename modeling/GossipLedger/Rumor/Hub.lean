import GossipLedger.Ledger.Command
import GossipLedger.Rumor.Crew
import GossipLedger.Rumor.Routes
import GossipLedger.Rumor.Store

/-!
# Hubs

The hub of a node handles what clients ask for, what peers send and the ticks of
two timers.  It keeps the rumors and private messages, the ways to other nodes and
a crew of mongers, and hands transactions and blocks on to the ledger.

Every handler is a function from the hub to the hub and its `Effect`s.  What the
mongers do on their own is in `Hub.settle`.

## Main definitions

* `Hub` — the state, and `Hub.new` the state at the start.
* `ClientRequest`, `HubCommand`, `Effect` — what a client can ask for, what a hub is
  told, and what leaves it.
* `Hub.onClient`, `Hub.onPacket` — requests of clients and packets of peers.
* `Hub.reconcile` — comparing the status of a peer with the own rumors.
* `Hub.antiEntropy`, `Hub.routeTick` — the two timers.
* `Hub.settle` — the mongers do all that they can do now.
* `Hub.handle` — a command together with what the mongers do afterwards.
-/

namespace GossipLedger

/-- What a client can ask a node for. -/
inductive ClientRequest
  /-- A text for everyone. -/
  | rumor (text : String)
  /-- A text for one node. -/
  | secret (destination text : String)
  /-- A text that is flooded. -/
  | broadcast (text : String)
  | transaction (input output : Digest) (amount : UInt32)
  | addPeer (peer : PeerAddress)
  deriving DecidableEq

/-- What a hub is told. -/
inductive HubCommand
  /-- A packet came from a peer. -/
  | packet (sender : PeerAddress) (packet : Packet)
  /-- A client asks for something. -/
  | client (request : ClientRequest)
  /-- It is time to compare rumors with a peer. -/
  | antiEntropy
  /-- It is time to probe the way to a peer. -/
  | routeTick
  deriving DecidableEq

/-- What leaves a hub. -/
inductive Effect
  /-- A packet for the transport. -/
  | send (outbound : Outbound)
  /-- A command for the ledger. -/
  | delegate (command : ChainCommand)
  deriving DecidableEq

/-- The probing of the ways to the peers, one at a time. -/
structure RouteProbe where
  /-- The peer being probed. -/
  peer : Option PeerAddress
  /-- Whether it has answered. -/
  acked : Bool
  /-- The route ticks since then without an answer. -/
  retries : Nat
  /-- The peers probed before. -/
  tried : List PeerAddress
  deriving DecidableEq

/-- The state of a hub. -/
structure Hub where
  name : String
  address : PeerAddress
  settings : GossipSettings
  /-- The peers and the mongers. -/
  crew : Crew
  /-- The number of mongers started so far. -/
  mongers : Nat
  /-- The number of the last own rumor. -/
  rumorCounter : UInt32
  /-- The number of the last own private message to each destination. -/
  privateCounters : NameMap UInt32
  rumors : MessageStore Rumor
  /-- The private messages to this node. -/
  privates : MessageStore PrivateMessage
  /-- The private messages of this node by destination, oldest first. -/
  sentPrivates : NameMap (List PrivateMessage)
  routes : RoutingTable
  /-- The peers that got a status in the current sweep. -/
  swept : List PeerAddress
  probe : RouteProbe
  /-- When the last route rumor of each origin was passed on. -/
  relays : NameMap Nat

namespace Hub

/-- The hub of a node at the start. -/
def new (name : String) (address : PeerAddress) (settings : GossipSettings) (peers : PeerSet) :
    Hub where
  name := name
  address := address
  settings := settings
  crew := .new peers
  mongers := 0
  rumorCounter := 0
  privateCounters := .empty
  rumors := .empty
  privates := .empty
  sentPrivates := .empty
  routes := .empty
  swept := []
  probe := ⟨none, false, 0, []⟩
  relays := .empty

/-- The known peers. -/
def peers (h : Hub) : PeerSet := h.crew.peers

/-- The hub with other known peers. -/
def withPeers (h : Hub) (peers : PeerSet) : Hub := { h with crew := { h.crew with peers := peers } }

/-! ### Parts of the handlers -/

/-- A packet for one peer. -/
def unicast (target : PeerAddress) (packet : Packet) : Effect := .send (.unicast target packet)

/-- What the own rumors look like to a peer. -/
def status (h : Hub) : Packet := .status (.want h.rumors.statusVector.toWant)

/-- The way to another node becomes known. -/
def learnRoute (h : Hub) (name : String) (hop : PeerAddress) : Hub :=
  if name = h.name then h else { h with routes := h.routes.learn name hop }

/-- A monger starts to spread a rumor. -/
def startMonger (h : Hub) (rumor : Rumor) (origin : Option PeerAddress) : Hub :=
  { h with mongers := h.mongers + 1, crew := h.crew.start (h.mongers + 1) rumor origin }

/-- A signal to a monger, if there is one. -/
def signal (h : Hub) (id : Option Nat) (s : Signal) : Hub :=
  match id with
  | some id => { h with crew := h.crew.signal id s }
  | none => h

/-- A private message goes to the next hop, or nowhere if no way is known. -/
def forwardPrivate (h : Hub) (m : PrivateMessage) : List Effect :=
  match h.routes.get? m.destination with
  | some hop => [unicast hop (.secret m)]
  | none => []

/-! ### Clients -/

/-- The hub with one more private message of its own to a destination. -/
def onPrivateRequest (h : Hub) (destination text : String) : Hub × List Effect :=
  let sequence := (h.privateCounters.get? destination).getD 0 + 1
  let h := { h with privateCounters := h.privateCounters.set destination sequence }
  let m : PrivateMessage := ⟨h.name, sequence, destination, text, h.settings.privateHopLimit⟩
  if destination = h.name then
    ({ h with privates := (h.privates.append? m).getD h.privates }, [])
  else
    let sent := (h.sentPrivates.get? destination).getD [] ++ [m]
    ({ h with sentPrivates := h.sentPrivates.set destination sent }, h.forwardPrivate m)

/-- The hub with one more rumor of its own. -/
def onRumorRequest (h : Hub) (text : String) : Hub :=
  let sequence := h.rumorCounter + 1
  let h := { h with rumorCounter := sequence }
  let rumor : Rumor := ⟨h.name, sequence, text⟩
  match h.rumors.append? rumor with
  | none => h
  | some rumors => { h with rumors := rumors, swept := [] }.startMonger rumor none

/-- A request of a client. -/
def onClient (h : Hub) : ClientRequest → Hub × List Effect
  | .rumor text => (h.onRumorRequest text, [])
  | .secret destination text => h.onPrivateRequest destination text
  | .broadcast text =>
      (h, [.send (.broadcast (.simple ⟨h.name, h.address.text, text⟩) none)])
  | .transaction input output amount => (h, [.delegate (.submit (.make input output amount))])
  | .addPeer peer =>
      if peer = h.address then (h, [])
      else
        let h := h.withPeers (h.peers.add peer)
        (h, [unicast peer h.status])

/-! ### Peers -/

/-- A flooded text is passed on to all but its last relay. -/
def onSimple (h : Hub) (sender : PeerAddress) (m : Simple) : List Effect :=
  if m.originName = h.name then []
  else
    let relay := match PeerAddress.parse m.relayAddress with
      | .ok p => p
      | .error _ => sender
    [.send (.broadcast (.simple { m with relayAddress := h.address.text }) (some relay))]

/-- A rumor that makes a way known is answered, and passed on at most once in a
route period for each origin. -/
def onRouteRumor (w : Moment) (h : Hub) (sender : PeerAddress) (r : Rumor) : Hub × List Effect :=
  let ack := unicast sender (.status (.route h.name))
  if r.origin = h.name then (h, [ack])
  else
    let recent := match h.relays.get? r.origin with
      | some last => decide (w.now - last < h.settings.routePeriod)
      | none => false
    if recent then (h, [ack])
    else ({ h with relays := h.relays.set r.origin w.now }.startMonger r (some sender), [ack])

/-- The hub with a rumor that was new to it. -/
def takeRumor (h : Hub) (sender : PeerAddress) (r : Rumor) (rumors : MessageStore Rumor) : Hub :=
  let counter := if r.origin = h.name then max h.rumorCounter r.sequence else h.rumorCounter
  { h with
    rumors := rumors
    rumorCounter := counter
    crew := h.crew.signalAll .forgetTried
    swept := [] }.startMonger r (some sender)

/-- A rumor.  The next one of its origin is stored and spread, and the sender gets
a status in any case. -/
def onRumor (w : Moment) (h : Hub) (sender : PeerAddress) (r : Rumor) : Hub × List Effect :=
  let h := h.learnRoute r.origin sender
  if r.isRoute then h.onRouteRumor w sender r
  else
    let h := match h.rumors.compare r.origin r.sequence, h.rumors.append? r with
      | .new, some rumors => h.takeRumor sender r rumors
      | _, _ => h
    (h, [unicast sender h.status])

/-- What a status of a peer leads to: the rumors to send, and whether the peer has
something that is missing here.  A peer that has never heard of an origin gets the
first rumor of that origin and nothing else. -/
def compareStatus (rumors : MessageStore Rumor) (theirs : StatusVector) : List Rumor × Bool :=
  match rumors.firstGap? theirs with
  | some first => ([first], false)
  | none =>
      let freshness (e : String × UInt32) :=
        rumors.compare e.1 (if e.2 = 0 then 0 else e.2 - 1)
      let pushes := theirs.toList.filterMap fun e =>
        if freshness e = .old then rumors.message? e.1 e.2 else none
      (pushes, theirs.toList.any fun e => freshness e = .new)

/-- The status of a peer is compared with the own rumors.  A monger that talks to
the peer waits meanwhile, and where both have the same it goes on or stops as the
coin says. -/
def reconcile (w : Moment) (h : Hub) (sender : PeerAddress) (theirs : StatusVector) :
    Hub × List Effect :=
  let monger := h.crew.talkingTo? sender false
  let h := h.signal monger .sync
  let (pushes, behind) := compareStatus h.rumors theirs
  let effects := (if behind then [unicast sender h.status] else [])
    ++ pushes.map fun r => unicast sender (.rumor r)
  if pushes.isEmpty && !behind then
    (h.signal monger (if w.coin then .reset else .stop), effects)
  else (h, effects)

/-- The answer of a peer to a route rumor. -/
def onRouteStatus (h : Hub) (sender : PeerAddress) (name : String) : Hub :=
  let h := h.learnRoute name sender
  let h := h.signal (h.crew.talkingTo? sender true) .stop
  if h.probe.peer = some sender then
    { h with probe := { h.probe with acked := true, retries := 0 } }
  else h

/-- A private message is kept or passed on as long as hops are left. -/
def onPrivate (h : Hub) (sender : PeerAddress) (m : PrivateMessage) : Hub × List Effect :=
  let h := h.learnRoute m.origin sender
  if m.destination = h.name then
    ({ h with privates := (h.privates.append? m).getD h.privates }, [])
  else if m.hopLimit ≤ 1 then (h, [])
  else (h, h.forwardPrivate { m with hopLimit := m.hopLimit - 1 })

/-- A packet of a peer, who is known from then on. -/
def onPacket (w : Moment) (h : Hub) (sender : PeerAddress) (packet : Packet) : Hub × List Effect :=
  let h := if sender = h.address then h else h.withPeers (h.peers.add sender)
  match packet with
  | .simple m => (h, h.onSimple sender m)
  | .rumor r => h.onRumor w sender r
  | .status (.route name) => (h.onRouteStatus sender name, [])
  | .status (.want entries) => h.reconcile w sender (.ofWant entries)
  | .secret m => h.onPrivate sender m
  | .transaction m => (h, [.delegate (.transaction m.transaction m.hopLimit sender)])
  | .block m => (h, [.delegate (.block m.block m.hopLimit sender)])

/-! ### Timers -/

/-- A pick among the peers that are not excluded, or among all when every peer is
excluded: the peer and whether a new round begins. -/
def pickInTurn (peers : PeerSet) (picker : Picker PeerAddress) (excluded : List PeerAddress) :
    Option PeerAddress × List PeerAddress :=
  match peers.pick picker excluded with
  | some p => (some p, excluded)
  | none => (peers.pick picker [], [])

/-- A peer that got none in the current sweep gets a status. -/
def antiEntropy (w : Moment) (h : Hub) : Hub × List Effect :=
  match pickInTurn h.peers w.picker h.swept with
  | (some p, swept) => ({ h with swept := p :: swept }, [unicast p h.status])
  | (none, swept) => ({ h with swept := swept }, [])

/-- A route rumor for a peer. -/
def routeRumor (h : Hub) (p : PeerAddress) : Effect := unicast p (.rumor (.route h.name))

/-- The next peer is probed. -/
def probeNext (w : Moment) (h : Hub) : Hub × List Effect :=
  match pickInTurn h.peers w.picker h.probe.tried with
  | (some p, tried) =>
      ({ h with probe := ⟨some p, false, 0, p :: tried⟩ }, [h.routeRumor p])
  | (none, tried) =>
    ({ h with probe := { h.probe with peer := none, retries := 0, tried := tried } }, [])

/-- The peer being probed gets another route rumor until it has left so many
unanswered that it is no longer a peer; then, or if it has answered, the next one
is probed. -/
def routeTick (w : Moment) (h : Hub) : Hub × List Effect :=
  match h.probe.peer with
  | some p =>
      if h.probe.acked then h.probeNext w
      else
        let retries := h.probe.retries + 1
        if retries < h.settings.maxRetries.toNat then
          ({ h with probe := { h.probe with retries := retries } }, [h.routeRumor p])
        else (h.withPeers (h.peers.remove p)).probeNext w
  | none => h.probeNext w

/-! ### Mongers -/

/-- The mongers do all that they can do now, and those that stop leave. -/
def settle (w : Moment) (h : Hub) : Hub × List Effect :=
  let (crew, sent) := h.crew.settle w h.settings.monger
  ({ h with crew := crew.reap }, sent.map Effect.send)

/-- The effect of a command, apart from what the mongers do afterwards. -/
def obey (w : Moment) (h : Hub) : HubCommand → Hub × List Effect
  | .packet sender packet => h.onPacket w sender packet
  | .client request => h.onClient request
  | .antiEntropy => h.antiEntropy w
  | .routeTick => h.routeTick w

/-- The effect of a command, after which the mongers do all that they can do. -/
def handle (w : Moment) (h : Hub) (c : HubCommand) : Hub × List Effect :=
  let (h, effects) := h.obey w c
  let (h, later) := h.settle w
  (h, effects ++ later)

/-- The hub without mongers, as it is left when its node stops. -/
def dismiss (h : Hub) : Hub := { h with crew := .new h.peers }

end Hub

end GossipLedger
