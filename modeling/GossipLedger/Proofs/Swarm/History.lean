import GossipLedger.Proofs.Rumor.Probing

/-!
# What peers and ways say of the past

A node knows peers and ways.  Peers become known by traffic and by clients, and are forgotten when
they are given up.  Ways are never forgotten: the way to another node is the peer that last brought
word of it, with a rumor or a private message that comes from that node or with an answer that
names it.  What else becomes of the packet does not matter.  A rumor may be an old one or come too
early, and a private message may be out of order or have no hops left.

So the ways say who was the last to bring word of whom, and nothing else.

## Main definitions

* `Packet.wordOf?`, `HubCommand.word?` — the node that a packet brings word of, and from whom.
* `Swarm.LatestWord` — the latest word of a node came from a peer.

## Main results

* `Hub.routes_obey` — **which commands make a way known.**
* `Swarm.get?_routes_eq_some_iff`, `Swarm.get?_routes_eq_none_iff` — the ways after a run.
* `Swarm.peers_and_routes_of_run` — **peers and ways summarise the past.**
-/

namespace GossipLedger

/-- The node that a packet brings word of. -/
def Packet.wordOf? : Packet → Option String
  | .rumor r => some r.origin
  | .status (.route name) => some name
  | .secret m => some m.origin
  | _ => none

/-- The node that a command brings word of, and the peer that brings it. -/
def HubCommand.word? : HubCommand → Option (String × PeerAddress)
  | .packet sender p => p.wordOf?.map fun name => (name, sender)
  | _ => none

namespace Hub

variable {h h' : Hub}

/-! ### Commands -/

/-- The ways once there is word of a node, if there is any. -/
def routesOn (h : Hub) : Option (String × PeerAddress) → RoutingTable
  | some word => (h.learnRoute word.1 word.2).routes
  | none => h.routes

/-- What is found under the name of another node once there is word of a node. -/
theorem get?_routesOn_some (h : Hub) (other : String) (p : PeerAddress) {name : String}
    (hname : name ≠ h.name) :
    (h.routesOn (some (other, p))).get? name =
      if other = name then some p else h.routes.get? name := by
  show (h.learnRoute other p).routes.get? name = _
  unfold learnRoute
  split
  next hself =>
    have hne : other ≠ name := fun heq => hname (heq.symm.trans hself)
    rw [if_neg hne]
  next => exact NameMap.get?_set _ _ _ _

/-- A hub has no way to itself. -/
theorem get?_routesOn_self (h : Hub) (word : Option (String × PeerAddress)) :
    (h.routesOn word).get? h.name = h.routes.get? h.name := by
  match word with
  | none => rfl
  | some (other, p) =>
    show (h.learnRoute other p).routes.get? h.name = _
    unfold learnRoute
    split
    next => rfl
    next hother => exact (NameMap.get?_set _ _ _ _).trans (if_neg hother)

@[simp] theorem signal_routes (h : Hub) (id : Option Nat) (s : Signal) :
    (h.signal id s).routes = h.routes := by
  cases id with
  | none => rfl
  | some id => rfl

theorem onClient_routes (h : Hub) (request : ClientRequest) :
    (h.onClient request).1.routes = h.routes := by
  cases request with
  | rumor text =>
    show (h.onRumorRequest text).routes = h.routes
    unfold onRumorRequest
    dsimp only
    split
    next => rfl
    next => rfl
  | secret destination text =>
    show (h.onPrivateRequest destination text).1.routes = h.routes
    unfold onPrivateRequest
    dsimp only
    split
    next => rfl
    next => rfl
  | broadcast text => rfl
  | transaction input output amount => rfl
  | addPeer peer =>
    unfold onClient
    dsimp only
    split
    next => rfl
    next => rfl

/-- A rumor makes a way known, whether it is new or not. -/
theorem onRumor_routes (w : Moment) (h : Hub) (sender : PeerAddress) (r : Rumor) :
    (h.onRumor w sender r).1.routes = (h.learnRoute r.origin sender).routes := by
  cases hroute : r.isRoute with
  | true =>
    unfold onRumor
    simp only [hroute, if_true]
    rcases onRouteRumor_cases w (h.learnRoute r.origin sender) sender r with heq | heq
    · rw [heq]
    · rw [heq]
      rfl
  | false =>
    obtain ⟨h', heq, ⟨-, rfl⟩ | ⟨rumors, -, -, rfl⟩⟩ := h.onRumor_eq w sender hroute
    · rw [heq]
    · rw [heq]
      rfl

theorem reconcile_routes (w : Moment) (h : Hub) (sender : PeerAddress) (theirs : StatusVector) :
    (h.reconcile w sender theirs).1.routes = h.routes := by
  unfold reconcile
  dsimp only
  split
  next => rw [signal_routes, signal_routes]
  next => exact signal_routes _ _ _

theorem onRouteStatus_routes (h : Hub) (sender : PeerAddress) (name : String) :
    (h.onRouteStatus sender name).routes = (h.learnRoute name sender).routes := by
  unfold onRouteStatus
  dsimp only
  split
  next => exact signal_routes _ _ _
  next => exact signal_routes _ _ _

/-- A private message makes a way known, whatever becomes of it. -/
theorem onPrivate_routes (h : Hub) (sender : PeerAddress) (m : PrivateMessage) :
    (h.onPrivate sender m).1.routes = (h.learnRoute m.origin sender).routes := by
  unfold onPrivate
  dsimp only
  split
  next => rfl
  next =>
    split
    next => rfl
    next => rfl

theorem learnRoute_routes_congr {name : String} {hop : PeerAddress} (hname : h'.name = h.name)
    (hroutes : h'.routes = h.routes) :
    (h'.learnRoute name hop).routes = (h.learnRoute name hop).routes := by
  unfold learnRoute
  rw [hname]
  split
  next => exact hroutes
  next => exact congrArg (fun routes => RoutingTable.learn routes name hop) hroutes

theorem onPacket_routes (w : Moment) (h : Hub) (sender : PeerAddress) (packet : Packet) :
    (h.onPacket w sender packet).1.routes =
      h.routesOn (HubCommand.packet sender packet).word? := by
  have hname := (h.sameRumors_meet sender).name
  have hroutes : (if sender = h.address then h else h.withPeers (h.peers.add sender)).routes =
      h.routes := by
    split
    next => rfl
    next => rfl
  unfold onPacket
  dsimp only
  generalize (if sender = h.address then h else h.withPeers (h.peers.add sender)) = k
    at hname hroutes ⊢
  cases packet with
  | simple m => exact hroutes
  | rumor r => exact (k.onRumor_routes w sender r).trans (learnRoute_routes_congr hname hroutes)
  | status status =>
    cases status with
    | want entries => exact (k.reconcile_routes w sender _).trans hroutes
    | route name =>
      exact (k.onRouteStatus_routes sender name).trans (learnRoute_routes_congr hname hroutes)
  | secret m => exact (k.onPrivate_routes sender m).trans (learnRoute_routes_congr hname hroutes)
  | transaction m => exact hroutes
  | block m => exact hroutes

theorem antiEntropy_routes (w : Moment) (h : Hub) : (h.antiEntropy w).1.routes = h.routes := by
  unfold antiEntropy
  split
  next => rfl
  next => rfl

theorem routeTick_routes (w : Moment) (h : Hub) : (h.routeTick w).1.routes = h.routes := by
  have hticks := h.ticks_routeTick w
  generalize h.routeTick w = result at hticks ⊢
  cases hticks with
  | again p hagain => rfl
  | next _ _ hbegins => cases hbegins <;> rfl
  | gaveUp p _ _ _ _ hbegins => cases hbegins <;> rfl

/-- **Which commands make a way known**: those that bring word of a node, and no others. -/
theorem routes_obey (w : Moment) (h : Hub) (c : HubCommand) :
    (h.obey w c).1.routes = h.routesOn c.word? := by
  cases c with
  | packet sender packet => exact h.onPacket_routes w sender packet
  | client request => exact h.onClient_routes request
  | antiEntropy => exact h.antiEntropy_routes w
  | routeTick => exact h.routeTick_routes w

end Hub

/-! ### Runs -/

namespace Swarm

variable {ι : Type} [DecidableEq ι]

/-- The node that an event brings a node word of, and the peer that brings it. -/
def Event.word? (i : ι) : Event ι → Option (String × PeerAddress)
  | .told j _ c => if j = i then c.word? else none
  | _ => none

/-- The latest word that a node got of another came from a peer. -/
def LatestWord (i : ι) (name : String) (p : PeerAddress) (es : List (Event ι)) : Prop :=
  ∃ before e later, es = before ++ e :: later ∧ e.word? i = some (name, p) ∧
    ∀ a ∈ later, ∀ q, a.word? i ≠ some (name, q)

variable {members : ι → Member} {es : List (Event ι)} {e : Event ι} {i : ι} {name : String}
  {p : PeerAddress}

/-- The latest word is that of the last event, or the event brings none and it came before. -/
theorem latestWord_concat : LatestWord i name p (es ++ [e]) ↔
    e.word? i = some (name, p) ∨ (∀ q, e.word? i ≠ some (name, q)) ∧ LatestWord i name p es := by
  constructor
  · rintro ⟨before, a, later, heq, hword, hnone⟩
    rcases List.eq_nil_or_concat later with rfl | ⟨later, b, rfl⟩
    · obtain ⟨-, hlast⟩ := List.append_inj' heq rfl
      obtain rfl := List.singleton_inj.1 hlast
      exact Or.inl hword
    · rw [List.concat_eq_append, ← List.cons_append, ← List.append_assoc] at heq
      obtain ⟨rfl, hlast⟩ := List.append_inj' heq rfl
      obtain rfl := List.singleton_inj.1 hlast
      refine Or.inr ⟨hnone e (by simp), before, a, later, rfl, hword, fun c hc => hnone c ?_⟩
      simp [hc]
  · rintro (hword | ⟨hnone, before, a, later, rfl, hword, hlater⟩)
    · exact ⟨es, e, [], rfl, hword, fun a ha => nomatch ha⟩
    · refine ⟨before, a, later ++ [e], by simp, hword, fun c hc => ?_⟩
      rcases List.mem_append.1 hc with hc | hc
      · exact hlater c hc
      · rw [List.mem_singleton.1 hc]
        exact hnone

/-- The ways that a node knows change only by word that it gets. -/
theorem hubAfter_routes (members : ι → Member) (es : List (Event ι)) (e : Event ι) (i : ι) :
    (hubAfter members (es ++ [e]) i).routes = (hubAfter members es i).routesOn (e.word? i) := by
  unfold hubAfter
  rw [run_concat]
  rcases hub_cases ((new members).run es) e i with ⟨hother, crew, heq⟩ | ⟨w, c, rfl, heq⟩
  · have hnone : e.word? i = none := by
      cases e with
      | told j w c => exact if_neg fun hji => hother w c (by rw [hji])
      | moved j w t m => rfl
      | left j => rfl
    rw [heq, hnone]
    rfl
  · have hword : (Event.told i w c).word? i = c.word? := if_pos rfl
    rw [heq, hword]
    exact Hub.routes_obey w _ c

/-- A node has no way to itself. -/
theorem get?_routes_self (members : ι → Member) (es : List (Event ι)) (i : ι) :
    (hubAfter members es i).routes.get? (members i).name = none := by
  induction es using List.reverseRecOn with
  | nil => rfl
  | append_singleton es e ih =>
    rw [hubAfter_routes]
    rw [← hubAfter_name members es i] at ih ⊢
    exact (Hub.get?_routesOn_self _ _).trans ih

/-- **The way to another node is the peer that the latest word of it came from.** -/
theorem get?_routes_eq_some_iff (hname : name ≠ (members i).name) :
    (hubAfter members es i).routes.get? name = some p ↔ LatestWord i name p es := by
  induction es using List.reverseRecOn with
  | nil =>
    refine iff_of_false nofun ?_
    rintro ⟨before, e, later, heq, -⟩
    exact absurd heq (by simp)
  | append_singleton es e ih =>
    have hother : name ≠ (hubAfter members es i).name := by
      rw [hubAfter_name]
      exact hname
    rw [latestWord_concat, hubAfter_routes, ← ih]
    match e.word? i with
    | none => simp [Hub.routesOn]
    | some (other, q) =>
      rw [Hub.get?_routesOn_some _ _ _ hother]
      by_cases hsame : other = name
      · simp [hsame]
      · simp [hsame]

/-- There is no way to another node exactly if no word of it came. -/
theorem get?_routes_eq_none_iff (hname : name ≠ (members i).name) :
    (hubAfter members es i).routes.get? name = none ↔
      ∀ e ∈ es, ∀ q, e.word? i ≠ some (name, q) := by
  induction es using List.reverseRecOn with
  | nil => exact iff_of_true rfl fun e he => nomatch he
  | append_singleton es e ih =>
    have hother : name ≠ (hubAfter members es i).name := by
      rw [hubAfter_name]
      exact hname
    have hall : (∀ a ∈ es ++ [e], ∀ q, a.word? i ≠ some (name, q)) ↔
        (∀ a ∈ es, ∀ q, a.word? i ≠ some (name, q)) ∧ ∀ q, e.word? i ≠ some (name, q) := by
      simp [or_imp, forall_and]
    rw [hall, hubAfter_routes, ← ih]
    match e.word? i with
    | none => simp [Hub.routesOn]
    | some (other, q) =>
      rw [Hub.get?_routesOn_some _ _ _ hother]
      by_cases hsame : other = name
      · simp [hsame]
      · simp [hsame]

/-- A peer that a node knows was known at the start or was added. -/
theorem known_at_start_or_added (hp : p ∈ known members es i) :
    p ∈ (members i).peers ∨ ∃ e ∈ es, e.Adds members i p := by
  induction es using List.reverseRecOn with
  | nil => exact Or.inl hp
  | append_singleton es e ih =>
    rcases known_or_adds hp with hbefore | hadds
    · exact (ih hbefore).imp_right fun ⟨a, ha, hadds⟩ => ⟨a, List.mem_append_left _ ha, hadds⟩
    · exact Or.inr ⟨e, List.mem_append_right _ (List.mem_singleton_self e), hadds⟩

/-- **Peers and ways summarise the past.**  A node starts without knowing itself as a peer.  Then it
does whatever it is told, also by packets from its own address or under its own name, its timers
tick, and peers are given up.  No peer is listed twice, and the node itself never is; the others
were known at the start or came by traffic or by a client.  There is no way to the node itself.  The
way to another node is the peer that sent the latest packet which brought word of that node, and
there is none if none came. -/
theorem peers_and_routes_of_run (members : ι → Member) (es : List (Event ι)) (i : ι)
    (hself : (members i).address ∉ (members i).peers) :
    (hubAfter members es i).peers.toList.Nodup ∧
    (members i).address ∉ (hubAfter members es i).peers ∧
    (∀ p ∈ (hubAfter members es i).peers,
      p ∈ (members i).peers ∨ ∃ e ∈ es, e.Adds members i p) ∧
    (hubAfter members es i).routes.get? (members i).name = none ∧
    ∀ name, name ≠ (members i).name →
      (∀ p, (hubAfter members es i).routes.get? name = some p ↔ LatestWord i name p es) ∧
      ((hubAfter members es i).routes.get? name = none ↔
        ∀ e ∈ es, ∀ q, e.word? i ≠ some (name, q)) := by
  have horigin : ∀ p ∈ (hubAfter members es i).peers,
      p ∈ (members i).peers ∨ ∃ e ∈ es, e.Adds members i p := fun p => known_at_start_or_added
  refine ⟨(hubAfter members es i).peers.nodup, fun hown => ?_, horigin,
    get?_routes_self members es i, fun name hname => ?_⟩
  · rcases horigin _ hown with hstart | ⟨e, -, hadds⟩
    · exact hself hstart
    · exact hadds.2 rfl
  · exact ⟨fun p => get?_routes_eq_some_iff hname, get?_routes_eq_none_iff hname⟩

/-- A node hears of `b` from its own address, too early, and then from a peer; of `c` by a private
message without hops; and of itself. -/
theorem routes_after_four_packets :
    let p : PeerAddress := .v4 ⟨127, 0, 0, 1⟩ 5001
    let q : PeerAddress := .v4 ⟨127, 0, 0, 1⟩ 5002
    let self : PeerAddress := .v4 ⟨127, 0, 0, 1⟩ 5000
    let members (_ : Unit) : Member := ⟨"a", self, {}, .ofList [p]⟩
    let hears (sender : PeerAddress) (packet : Packet) : Event Unit :=
      .told () ⟨0, .first, true, true⟩ (.packet sender packet)
    let es := [hears self (.rumor ⟨"b", 7, "early"⟩), hears q (.status (.route "b")),
      hears p (.secret ⟨"c", 4, "d", "late", 0⟩), hears q (.rumor ⟨"a", 9, "echo"⟩)]
    self ∉ (members ()).peers ∧ (hubAfter members es ()).peers.toList = [p, q] ∧
      self ∉ (hubAfter members es ()).peers ∧
      (hubAfter members es ()).routes.get? "a" = none ∧
      LatestWord () "b" q es ∧ (hubAfter members es ()).routes.get? "b" = some q ∧
      LatestWord () "c" p es ∧ (hubAfter members es ()).routes.get? "c" = some p ∧
      (hubAfter members es ()).routes.get? "d" = none := by
  intro p q self members hears es
  have hstart : self ∉ (members ()).peers := by decide +kernel
  obtain ⟨-, hself, -, hown, hways⟩ := peers_and_routes_of_run members es () hstart
  have hb : (hubAfter members es ()).routes.get? "b" = some q := by decide +kernel
  have hc : (hubAfter members es ()).routes.get? "c" = some p := by decide +kernel
  exact ⟨hstart, by decide +kernel, hself, hown, ((hways "b" (by decide)).1 q).1 hb, hb,
    ((hways "c" (by decide)).1 p).1 hc, hc, by decide +kernel⟩

end Swarm
end GossipLedger
