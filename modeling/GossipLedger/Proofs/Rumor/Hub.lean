import GossipLedger.Proofs.Rumor.Store
import GossipLedger.Rumor.Hub

/-!
# What a hub does with rumors

A hub stores a rumor that a client asks for or that a peer brings, if it is the next one
of its origin; of a peer it takes none with number zero.  It spreads what it has stored and
the route rumors of others, and sends a peer what it has stored and its own route rumor.  It
does nothing else with rumors: all other parts of a hub have no part in them.

## Main definitions

* `Crew.rumors` — the rumors that the mongers of a crew spread.
* `HubCommand.rumor?`, `Effect.packet?` — the rumor that a command brings, the packet that
  an effect sends.
* `Hub.Handles` — all that a command can do with rumors.
* `Hub.offered?` — the rumor that a command asks a hub to store.

## Main results

* `Hub.handles_obey` — **what a hub does with rumors when it is told something.**
* `Hub.onPacket_rumor_rumors` — a rumor of a peer is stored if it is the next one.
* `Hub.obey_rumors` — **what a hub stores**, whatever it is told.
* `Task.run_rumor` — a monger keeps its rumor.
-/

namespace GossipLedger

/-! ### Mongers keep their rumors -/

/-- The rumors that the mongers spread. -/
def Crew.rumors (c : Crew) : List Rumor := c.tasks.map fun t => t.monger.rumor

theorem Monger.send_rumor (w : Moment) (s : MongerSettings) (peers : PeerSet) (m : Monger)
    (p : PeerAddress) : (m.send w s peers p).monger.rumor = m.rumor := by
  unfold Monger.send
  split
  next => rfl
  next => rfl

theorem Monger.spread_rumor (w : Moment) (s : MongerSettings) (peers : PeerSet) (m : Monger) :
    (m.spread w s peers).monger.rumor = m.rumor := by
  unfold Monger.spread
  split
  next p _ => exact m.send_rumor w s peers p
  next => rfl

theorem Monger.onSignal_rumor (w : Moment) (s : MongerSettings) (peers : PeerSet) (m : Monger)
    (signal : Signal) : (m.onSignal w s peers signal).monger.rumor = m.rumor := by
  cases signal with
  | sync => rfl
  | reset => exact spread_rumor w s peers _
  | stop => rfl
  | forgetTried => rfl

theorem Monger.onTimeout_rumor (w : Moment) (s : MongerSettings) (peers : PeerSet) (m : Monger) :
    (m.onTimeout w s peers).monger.rumor = m.rumor := by
  unfold Monger.onTimeout
  split
  next => rfl
  next =>
    simp only
    split
    next p _ =>
      split
      next => exact spread_rumor w s _ _
      next =>
        split
        next => exact send_rumor w s peers _ p
        next => exact spread_rumor w s peers _
    next => exact spread_rumor w s peers _

/-- A monger keeps its rumor. -/
theorem Task.run_rumor (w : Moment) (s : MongerSettings) (peers : PeerSet) (t : Task) (m : Move) :
    (t.run w s peers m).1.monger.rumor = t.monger.rumor := by
  cases m with
  | begin => exact t.monger.spread_rumor w s peers
  | take signal rest => exact t.monger.onSignal_rumor w s peers signal
  | expire => exact t.monger.onTimeout_rumor w s peers

theorem Task.signal?_rumor (t : Task) (s : Signal) :
    ((t.signal? s).getD t).monger.rumor = t.monger.rumor := by
  unfold Task.signal?
  split
  next => rfl
  next => rfl

@[simp] theorem Crew.rumors_start (c : Crew) (id : Nat) (r : Rumor) (origin : Option PeerAddress) :
    (c.start id r origin).rumors = c.rumors ++ [r] := by
  simp [Crew.rumors, Crew.start, Monger.new]

@[simp] theorem Crew.rumors_signal (c : Crew) (id : Nat) (s : Signal) :
    (c.signal id s).rumors = c.rumors := by
  unfold Crew.rumors Crew.signal
  rw [List.map_map]
  refine List.map_congr_left fun t _ => ?_
  rw [Function.comp_apply]
  split
  next => exact t.signal?_rumor s
  next => rfl

@[simp] theorem Crew.rumors_signalAll (c : Crew) (s : Signal) :
    (c.signalAll s).rumors = c.rumors := by
  unfold Crew.rumors Crew.signalAll
  rw [List.map_map]
  exact List.map_congr_left fun t _ => t.signal?_rumor s

/-! ### What a command can do -/

/-- The rumor that a command brings. -/
def HubCommand.rumor? : HubCommand → Option Rumor
  | .packet _ (.rumor r) => some r
  | _ => none

theorem HubCommand.rumor?_eq_some {c : HubCommand} {r : Rumor} (hc : c.rumor? = some r) :
    ∃ sender, c = .packet sender (.rumor r) := by
  unfold HubCommand.rumor? at hc
  split at hc
  next sender x =>
    obtain rfl := Option.some.inj hc
    exact ⟨sender, rfl⟩
  next => exact absurd hc (by simp)

/-- The packet that an effect sends. -/
def Effect.packet? : Effect → Option Packet
  | .send o => some o.packet
  | .delegate _ => none

namespace Hub

variable {h h' h'' : Hub} {brought : Option Rumor} {effects : List Effect}

/-- **All that a command can do with rumors.** -/
structure Handles (h : Hub) (brought : Option Rumor) (h' : Hub) (effects : List Effect) :
    Prop where
  name : h'.name = h.name
  /-- A rumor that is stored is one of the hub's own, or the one that was brought and that has a
  number. -/
  stores : h'.rumors = h.rumors ∨ ∃ r, h.rumors.append? r = some h'.rumors ∧
    (r.origin = h.name ∨ (brought = some r ∧ r.sequence ≠ 0))
  /-- A rumor that is spread was spread before, or was brought, or is stored and one of the
  hub's own. -/
  spreads : ∀ r ∈ h'.crew.rumors, r ∈ h.crew.rumors ∨ brought = some r ∨ r ∈ h'.rumors.log h.name
  /-- A rumor that is sent is stored or is the hub's own route rumor. -/
  sends : ∀ e ∈ effects, ∀ r, e.packet? = some (.rumor r) →
    r = .route h.name ∨ ∃ o, r ∈ h.rumors.log o

/-- Two states with the same name and the same rumors, which number the own ones alike. -/
structure SameRumors (h h' : Hub) : Prop where
  name : h'.name = h.name
  rumors : h'.rumors = h.rumors
  counter : h'.rumorCounter = h.rumorCounter
  crew : h'.crew.rumors = h.crew.rumors

theorem SameRumors.refl (h : Hub) : SameRumors h h := ⟨rfl, rfl, rfl, rfl⟩

theorem SameRumors.trans (hab : SameRumors h h') (hbc : SameRumors h' h'') : SameRumors h h'' :=
  ⟨hbc.name.trans hab.name, hbc.rumors.trans hab.rumors, hbc.counter.trans hab.counter,
    hbc.crew.trans hab.crew⟩

/-- A command that leaves the rumors alone and sends none. -/
theorem SameRumors.handles (hsame : SameRumors h h')
    (hsends : ∀ e ∈ effects, ∀ r, e.packet? = some (.rumor r) →
      r = .route h.name ∨ ∃ o, r ∈ h.rumors.log o) : Handles h brought h' effects where
  name := hsame.name
  stores := Or.inl hsame.rumors
  spreads _ hr := Or.inl (hsame.crew ▸ hr)
  sends := hsends

/-- What is done before a command is handled does not matter if it leaves the rumors
alone. -/
theorem Handles.of_same (hsame : SameRumors h h') (hhandles : Handles h' brought h'' effects) :
    Handles h brought h'' effects where
  name := hhandles.name.trans hsame.name
  stores := by
    rw [← hsame.rumors, ← hsame.name]
    exact hhandles.stores
  spreads := by
    rw [← hsame.crew, ← hsame.name]
    exact hhandles.spreads
  sends := by
    rw [← hsame.rumors, ← hsame.name]
    exact hhandles.sends

/-! ### Parts of the handlers -/

theorem sameRumors_withPeers (h : Hub) (peers : PeerSet) : SameRumors h (h.withPeers peers) :=
  ⟨rfl, rfl, rfl, rfl⟩

theorem sameRumors_learnRoute (h : Hub) (name : String) (hop : PeerAddress) :
    SameRumors h (h.learnRoute name hop) := by
  unfold learnRoute
  split
  next => exact .refl h
  next => exact ⟨rfl, rfl, rfl, rfl⟩

theorem sameRumors_signal (h : Hub) (id : Option Nat) (s : Signal) :
    SameRumors h (h.signal id s) := by
  cases id with
  | none => exact .refl h
  | some id => exact ⟨rfl, rfl, rfl, Crew.rumors_signal _ _ _⟩

@[simp] theorem startMonger_crew_rumors (h : Hub) (r : Rumor) (origin : Option PeerAddress) :
    (h.startMonger r origin).crew.rumors = h.crew.rumors ++ [r] := Crew.rumors_start _ _ _ _

/-- What is sent as a status is no rumor. -/
theorem packet?_unicast_status {p : PeerAddress} {r : Rumor} :
    (unicast p h.status).packet? ≠ some (.rumor r) := by
  intro heq
  exact absurd (Option.some.inj heq) (by simp [status, Outbound.packet])

theorem packet?_of_mem_forwardPrivate {m : PrivateMessage} {e : Effect}
    (he : e ∈ h.forwardPrivate m) : e.packet? = some (.secret m) := by
  unfold forwardPrivate at he
  split at he
  next =>
    rw [List.mem_singleton.1 he]
    rfl
  next => exact absurd he List.not_mem_nil

/-! ### Clients -/

theorem handles_onRumorRequest (h : Hub) (text : String) :
    Handles h brought (h.onRumorRequest text) [] := by
  unfold onRumorRequest
  simp only
  split
  next => exact ⟨rfl, Or.inl rfl, fun r hr => Or.inl hr, by simp⟩
  next rumors happend =>
    refine ⟨rfl, Or.inr ⟨_, happend, Or.inl rfl⟩, fun r hr => ?_, by simp⟩
    rw [startMonger_crew_rumors, List.mem_append, List.mem_singleton] at hr
    rcases hr with hr | rfl
    · exact Or.inl hr
    · exact Or.inr (Or.inr (MessageStore.mem_log_self happend))

theorem sameRumors_onPrivateRequest (h : Hub) (destination text : String) :
    SameRumors h (h.onPrivateRequest destination text).1 := by
  unfold onPrivateRequest
  simp only
  split <;> exact ⟨rfl, rfl, rfl, rfl⟩

theorem handles_onPrivateRequest (h : Hub) (destination text : String) :
    Handles h brought (h.onPrivateRequest destination text).1
      (h.onPrivateRequest destination text).2 := by
  refine (h.sameRumors_onPrivateRequest destination text).handles fun e he r hr => ?_
  unfold onPrivateRequest at he
  simp only at he
  split at he
  next => exact absurd he List.not_mem_nil
  next =>
    rw [packet?_of_mem_forwardPrivate he] at hr
    exact absurd hr (by simp)

theorem handles_onClient (h : Hub) (request : ClientRequest) :
    Handles h brought (h.onClient request).1 (h.onClient request).2 := by
  cases request with
  | rumor text => exact h.handles_onRumorRequest text
  | secret destination text => exact h.handles_onPrivateRequest destination text
  | broadcast text =>
    refine SameRumors.handles (.refl h) fun e he r hr => ?_
    rw [List.mem_singleton.1 he] at hr
    exact absurd hr (by simp [Effect.packet?, Outbound.packet])
  | transaction input output amount =>
    refine SameRumors.handles (.refl h) fun e he r hr => ?_
    rw [List.mem_singleton.1 he] at hr
    exact absurd hr (by simp [Effect.packet?])
  | addPeer peer =>
    rw [onClient]
    split
    next => exact SameRumors.handles (.refl h) (by simp)
    next =>
      refine SameRumors.handles (h.sameRumors_withPeers _) fun e he r hr => ?_
      rw [List.mem_singleton.1 he] at hr
      exact absurd hr packet?_unicast_status

/-! ### Peers -/

theorem handles_onSimple (h : Hub) (sender : PeerAddress) (m : Simple) :
    Handles h brought h (h.onSimple sender m) := by
  refine SameRumors.handles (.refl h) fun e he r hr => ?_
  unfold onSimple at he
  split at he
  next => exact absurd he List.not_mem_nil
  next =>
    rw [List.mem_singleton.1 he] at hr
    exact absurd hr (by simp [Effect.packet?, Outbound.packet])

/-- A route rumor is answered, and it is spread or not. -/
theorem onRouteRumor_cases (w : Moment) (h : Hub) (sender : PeerAddress) (r : Rumor) :
    h.onRouteRumor w sender r = (h, [unicast sender (.status (.route h.name))]) ∨
      h.onRouteRumor w sender r =
        ({ h with relays := h.relays.set r.origin w.now }.startMonger r (some sender),
          [unicast sender (.status (.route h.name))]) := by
  unfold onRouteRumor
  by_cases hown : r.origin = h.name
  · exact Or.inl (if_pos hown)
  · simp only [if_neg hown]
    split
    next => exact ite_eq_or_eq _ _ _
    next => exact Or.inr rfl

theorem handles_onRouteRumor (w : Moment) (h : Hub) (sender : PeerAddress) (r : Rumor) :
    Handles h (some r) (h.onRouteRumor w sender r).1 (h.onRouteRumor w sender r).2 := by
  have hack : ∀ e ∈ [unicast sender (.status (.route h.name))], ∀ x : Rumor,
      e.packet? = some (.rumor x) → x = .route h.name ∨ ∃ o, x ∈ h.rumors.log o := by
    intro e he x hx
    rw [List.mem_singleton.1 he] at hx
    exact absurd (Option.some.inj hx) (by simp [Outbound.packet])
  rcases h.onRouteRumor_cases w sender r with heq | heq
  · rw [heq]
    exact (SameRumors.refl h).handles hack
  · -- if the rumor is spread, it is the one that was brought
    rw [heq]
    refine ⟨rfl, Or.inl rfl, fun x hx => ?_, hack⟩
    rw [startMonger_crew_rumors, List.mem_append, List.mem_singleton] at hx
    rcases hx with hx | rfl
    · exact Or.inl hx
    · exact Or.inr (Or.inl rfl)

/-- The next number is more than the last one, unless it is where they begin again. -/
theorem lt_add_one_of_ne_zero {n : UInt32} (h : n + 1 ≠ 0) : n < n + 1 := by
  refine UInt32.lt_add_one fun hlast => h ?_
  rw [hlast]
  decide

/-- A rumor that is appended is one that is new, unless its number is zero. -/
theorem compare_of_append? {rumors rumors' : MessageStore Rumor} {r : Rumor}
    (h : rumors.append? r = some rumors') (hr : r.sequence ≠ 0) :
    rumors.compare r.origin r.sequence = .new := by
  obtain ⟨hnext, -⟩ := MessageStore.append?_eq_some_iff.1 h
  change r.sequence = rumors.last r.origin + 1 at hnext
  have hnew : rumors.last r.origin < r.sequence := by
    rw [hnext] at hr ⊢
    exact lt_add_one_of_ne_zero hr
  unfold MessageStore.compare
  rw [if_pos hnew]
  exact ite_self _

/-- A rumor with number zero is never new to a store that has it as the next one. -/
theorem compare_ne_new {rumors rumors' : MessageStore Rumor} {r : Rumor}
    (h : rumors.append? r = some rumors') (hr : r.sequence = 0) :
    rumors.compare r.origin r.sequence ≠ .new := by
  obtain ⟨hnext, -⟩ := MessageStore.append?_eq_some_iff.1 h
  change r.sequence = rumors.last r.origin + 1 at hnext
  rw [hr] at hnext ⊢
  -- the last number is not zero, so there are messages
  have hlast : rumors.last r.origin ≠ 0 := by
    intro h0
    rw [h0] at hnext
    exact absurd hnext (by decide)
  have hknown : rumors.contains r.origin = true := by
    by_contra hno
    rw [NameMap.contains_eq, Bool.not_eq_true, Option.isSome_eq_false_iff,
      Option.isNone_iff_eq_none] at hno
    refine hlast ?_
    rw [MessageStore.last, MessageStore.length, MessageStore.log, hno]
    rfl
  unfold MessageStore.compare
  rw [if_pos hknown, if_neg UInt32.not_lt_zero, if_neg (Ne.symm hlast)]
  simp

theorem sequence_of_isRoute {r : Rumor} (h : r.isRoute = true) : r.sequence = 0 := by
  simp only [Rumor.isRoute, Bool.and_eq_true, decide_eq_true_eq] at h
  exact h.1

/-- What becomes of a rumor that is no route rumor. -/
theorem onRumor_eq (w : Moment) (h : Hub) (sender : PeerAddress) {r : Rumor}
    (hr : r.isRoute = false) : ∃ h', h.onRumor w sender r = (h', [unicast sender h'.status]) ∧
      (((r.sequence = 0 ∨ h.rumors.append? r = none) ∧ h' = h.learnRoute r.origin sender) ∨
        ∃ rumors, r.sequence ≠ 0 ∧ h.rumors.append? r = some rumors ∧
          h' = (h.learnRoute r.origin sender).takeRumor sender r rumors) := by
  have hsame := (h.sameRumors_learnRoute r.origin sender).rumors
  unfold onRumor
  simp only [hr, Bool.false_eq_true, if_false, hsame]
  refine ⟨_, rfl, ?_⟩
  cases happend : h.rumors.append? r with
  | none =>
    refine Or.inl ⟨Or.inr rfl, ?_⟩
    cases h.rumors.compare r.origin r.sequence <;> rfl
  | some rumors =>
    by_cases hzero : r.sequence = 0
    · refine Or.inl ⟨Or.inl hzero, ?_⟩
      have hold := compare_ne_new happend hzero
      cases hfresh : h.rumors.compare r.origin r.sequence with
      | new => exact absurd hfresh hold
      | inSync => rfl
      | old => rfl
    · refine Or.inr ⟨rumors, hzero, rfl, ?_⟩
      rw [compare_of_append? happend hzero]

theorem handles_onRumor (w : Moment) (h : Hub) (sender : PeerAddress) (r : Rumor) :
    Handles h (some r) (h.onRumor w sender r).1 (h.onRumor w sender r).2 := by
  have hsame := h.sameRumors_learnRoute r.origin sender
  cases hroute : r.isRoute with
  | true =>
    unfold onRumor
    simp only [hroute, if_true]
    exact .of_same hsame (handles_onRouteRumor w _ sender r)
  | false =>
    obtain ⟨h', heq, hcases⟩ := h.onRumor_eq w sender hroute
    have hstatus : ∀ e ∈ [unicast sender h'.status], ∀ x : Rumor, e.packet? = some (.rumor x) →
        x = .route h.name ∨ ∃ o, x ∈ h.rumors.log o := by
      intro e he x hx
      rw [List.mem_singleton.1 he] at hx
      exact absurd hx packet?_unicast_status
    rw [heq]
    rcases hcases with ⟨-, rfl⟩ | ⟨rumors, hnumber, happend, rfl⟩
    · exact hsame.handles hstatus
    · refine ⟨hsame.name, Or.inr ⟨r, happend, Or.inr ⟨rfl, hnumber⟩⟩, fun x hx => ?_, hstatus⟩
      rw [takeRumor, startMonger_crew_rumors, Crew.rumors_signalAll, hsame.crew, List.mem_append,
        List.mem_singleton] at hx
      rcases hx with hx | rfl
      · exact Or.inl hx
      · exact Or.inr (Or.inl rfl)

/-- What a hub answers to a status is stored. -/
theorem mem_log_of_mem_compareStatus {rumors : MessageStore Rumor} {theirs : StatusVector}
    {r : Rumor} (hr : r ∈ (compareStatus rumors theirs).1) : ∃ o, r ∈ rumors.log o := by
  unfold compareStatus at hr
  split at hr
  next first hfirst =>
    rw [List.mem_singleton.1 hr]
    obtain ⟨o, -, hget⟩ := MessageStore.firstGap?_eq_some hfirst
    exact ⟨o, List.mem_of_getElem? hget⟩
  next =>
    obtain ⟨e, -, hpush⟩ := List.mem_filterMap.1 hr
    split at hpush
    next => exact ⟨e.1, MessageStore.mem_log_of_message? hpush⟩
    next => exact absurd hpush (by simp)

/-- What a hub sends in answer to a status: its own status if the peer has more, and the
rumors that the peer lacks. -/
theorem reconcile_effects (w : Moment) (h : Hub) (sender : PeerAddress) (theirs : StatusVector) :
    (h.reconcile w sender theirs).2 =
      (if (compareStatus h.rumors theirs).2 then [unicast sender h.status] else [])
        ++ (compareStatus h.rumors theirs).1.map fun r => unicast sender (.rumor r) := by
  have hsame := h.sameRumors_signal (h.crew.talkingTo? sender false) .sync
  unfold reconcile
  simp only [hsame.rumors, status]
  split <;> rfl

theorem sameRumors_reconcile (w : Moment) (h : Hub) (sender : PeerAddress)
    (theirs : StatusVector) : SameRumors h (h.reconcile w sender theirs).1 := by
  have hsame := h.sameRumors_signal (h.crew.talkingTo? sender false) .sync
  unfold reconcile
  simp only
  split
  next => exact hsame.trans (sameRumors_signal _ _ _)
  next => exact hsame

theorem handles_reconcile (w : Moment) (h : Hub) (sender : PeerAddress) (theirs : StatusVector) :
    Handles h brought (h.reconcile w sender theirs).1 (h.reconcile w sender theirs).2 := by
  refine (h.sameRumors_reconcile w sender theirs).handles fun e he r hr => ?_
  rw [reconcile_effects, List.mem_append] at he
  rcases he with he | he
  · split at he
    next =>
      rw [List.mem_singleton.1 he] at hr
      exact absurd hr packet?_unicast_status
    next => exact absurd he List.not_mem_nil
  · obtain ⟨x, hx, rfl⟩ := List.mem_map.1 he
    obtain rfl : x = r := Packet.rumor.inj (Option.some.inj hr)
    exact Or.inr (mem_log_of_mem_compareStatus hx)

theorem sameRumors_onRouteStatus (h : Hub) (sender : PeerAddress) (name : String) :
    SameRumors h (h.onRouteStatus sender name) := by
  have hsame := (h.sameRumors_learnRoute name sender).trans
    (sameRumors_signal _ ((h.learnRoute name sender).crew.talkingTo? sender true) .stop)
  unfold onRouteStatus
  simp only
  split
  next => exact ⟨hsame.name, hsame.rumors, hsame.counter, hsame.crew⟩
  next => exact hsame

theorem sameRumors_onPrivate (h : Hub) (sender : PeerAddress) (m : PrivateMessage) :
    SameRumors h (h.onPrivate sender m).1 := by
  have hsame := h.sameRumors_learnRoute m.origin sender
  unfold onPrivate
  simp only
  split
  next => exact ⟨hsame.name, hsame.rumors, hsame.counter, hsame.crew⟩
  next => split <;> exact hsame

theorem handles_onPrivate (h : Hub) (sender : PeerAddress) (m : PrivateMessage) :
    Handles h brought (h.onPrivate sender m).1 (h.onPrivate sender m).2 := by
  refine (h.sameRumors_onPrivate sender m).handles fun e he r hr => ?_
  unfold onPrivate at he
  simp only at he
  split at he
  next => exact absurd he List.not_mem_nil
  next =>
    split at he
    next => exact absurd he List.not_mem_nil
    next =>
      rw [packet?_of_mem_forwardPrivate he] at hr
      exact absurd hr (by simp)

/-- That the sender of a packet becomes known does not matter. -/
theorem sameRumors_meet (h : Hub) (sender : PeerAddress) :
    SameRumors h (if sender = h.address then h else h.withPeers (h.peers.add sender)) := by
  split
  next => exact .refl h
  next => exact h.sameRumors_withPeers _

theorem handles_onPacket (w : Moment) (h : Hub) (sender : PeerAddress) (packet : Packet) :
    Handles h (HubCommand.packet sender packet).rumor? (h.onPacket w sender packet).1
      (h.onPacket w sender packet).2 := by
  unfold onPacket
  have hpeers := h.sameRumors_meet sender
  revert hpeers
  generalize (if sender = h.address then h else h.withPeers (h.peers.add sender)) = k
  intro hpeers
  refine .of_same hpeers ?_
  cases packet with
  | simple m => exact k.handles_onSimple sender m
  | rumor r => exact k.handles_onRumor w sender r
  | status status =>
    cases status with
    | want entries => exact k.handles_reconcile w sender (.ofWant entries)
    | route name => exact (k.sameRumors_onRouteStatus sender name).handles (by simp)
  | secret m => exact k.handles_onPrivate sender m
  | transaction m => exact SameRumors.handles (.refl k) (by simp [Effect.packet?])
  | block m => exact SameRumors.handles (.refl k) (by simp [Effect.packet?])

/-! ### Timers -/

theorem sameRumors_antiEntropy (w : Moment) (h : Hub) : SameRumors h (h.antiEntropy w).1 := by
  unfold antiEntropy
  split <;> exact ⟨rfl, rfl, rfl, rfl⟩

theorem handles_antiEntropy (w : Moment) (h : Hub) :
    Handles h brought (h.antiEntropy w).1 (h.antiEntropy w).2 := by
  refine (h.sameRumors_antiEntropy w).handles fun e he r hr => ?_
  unfold antiEntropy at he
  split at he
  next =>
    rw [List.mem_singleton.1 he] at hr
    exact absurd hr packet?_unicast_status
  next => exact absurd he List.not_mem_nil

theorem sends_routeRumor {p : PeerAddress} : ∀ e ∈ [h.routeRumor p], ∀ r,
    e.packet? = some (.rumor r) → r = .route h.name ∨ ∃ o, r ∈ h.rumors.log o := by
  intro e he r hr
  rw [List.mem_singleton.1 he] at hr
  exact Or.inl (Packet.rumor.inj (Option.some.inj hr)).symm

theorem sameRumors_probeNext (w : Moment) (h : Hub) : SameRumors h (h.probeNext w).1 := by
  unfold probeNext
  split <;> exact ⟨rfl, rfl, rfl, rfl⟩

theorem handles_probeNext (w : Moment) (h : Hub) :
    Handles h brought (h.probeNext w).1 (h.probeNext w).2 := by
  refine (h.sameRumors_probeNext w).handles ?_
  unfold probeNext
  split
  next => exact sends_routeRumor
  next => simp

theorem sameRumors_routeTick (w : Moment) (h : Hub) : SameRumors h (h.routeTick w).1 := by
  unfold routeTick
  split
  next =>
    split
    next => exact h.sameRumors_probeNext w
    next =>
      simp only
      split
      next => exact ⟨rfl, rfl, rfl, rfl⟩
      next => exact (h.sameRumors_withPeers _).trans (sameRumors_probeNext w _)
  next => exact h.sameRumors_probeNext w

theorem handles_routeTick (w : Moment) (h : Hub) :
    Handles h brought (h.routeTick w).1 (h.routeTick w).2 := by
  unfold routeTick
  split
  next =>
    split
    next => exact h.handles_probeNext w
    next =>
      simp only
      split
      next => exact SameRumors.handles ⟨rfl, rfl, rfl, rfl⟩ sends_routeRumor
      next => exact .of_same (h.sameRumors_withPeers _) (handles_probeNext w _)
  next => exact h.handles_probeNext w

/-! ### Commands -/

/-- **What a hub does with rumors when it is told something.** -/
theorem handles_obey (w : Moment) (h : Hub) (c : HubCommand) :
    Handles h c.rumor? (h.obey w c).1 (h.obey w c).2 := by
  cases c with
  | packet sender packet => exact h.handles_onPacket w sender packet
  | client request => exact h.handles_onClient request
  | antiEntropy => exact h.handles_antiEntropy w
  | routeTick => exact h.handles_routeTick w

/-- What becomes of a rumor of a peer: it is stored if it is the next one of its origin and has
a number, and own ones are numbered on from there. -/
theorem onPacket_rumor_cases (w : Moment) (h : Hub) (sender : PeerAddress) (r : Rumor) :
    ((r.sequence = 0 ∨ h.rumors.append? r = none) ∧
        (h.onPacket w sender (.rumor r)).1.rumors = h.rumors ∧
        (h.onPacket w sender (.rumor r)).1.rumorCounter = h.rumorCounter) ∨
      ∃ rumors, r.sequence ≠ 0 ∧ h.rumors.append? r = some rumors ∧
        (h.onPacket w sender (.rumor r)).1.rumors = rumors ∧
        (h.onPacket w sender (.rumor r)).1.rumorCounter =
          if r.origin = h.name then max h.rumorCounter r.sequence else h.rumorCounter := by
  have hpeers := h.sameRumors_meet sender
  unfold onPacket
  simp only
  rw [← hpeers.rumors, ← hpeers.counter, ← hpeers.name]
  generalize (if sender = h.address then h else h.withPeers (h.peers.add sender)) = k
  have hsame := k.sameRumors_learnRoute r.origin sender
  cases hroute : r.isRoute with
  | true =>
    refine Or.inl ⟨Or.inl (sequence_of_isRoute hroute), ?_⟩
    rw [onRumor]
    simp only [hroute, if_true]
    rcases onRouteRumor_cases w (k.learnRoute r.origin sender) sender r with heq | heq
    · rw [heq]
      exact ⟨hsame.rumors, hsame.counter⟩
    · rw [heq]
      exact ⟨hsame.rumors, hsame.counter⟩
  | false =>
    obtain ⟨k', heq, ⟨hnone, rfl⟩ | ⟨rumors, hnumber, happend, rfl⟩⟩ :=
      k.onRumor_eq w sender hroute
    · rw [heq]
      exact Or.inl ⟨hnone, hsame.rumors, hsame.counter⟩
    · refine Or.inr ⟨rumors, hnumber, happend, ?_, ?_⟩
      · rw [heq]
        rfl
      · rw [heq, ← hsame.name, ← hsame.counter]
        rfl

/-- A rumor of a peer is stored if it is the next one of its origin and has a number. -/
theorem onPacket_rumor_rumors (w : Moment) (h : Hub) (sender : PeerAddress) {r : Rumor}
    (hr : r.sequence ≠ 0) :
    (h.onPacket w sender (.rumor r)).1.rumors = (h.rumors.append? r).getD h.rumors := by
  rcases h.onPacket_rumor_cases w sender r with
    ⟨hzero | hnone, hkept, -⟩ | ⟨rumors, -, happend, htaken, -⟩
  · exact absurd hzero hr
  · rw [hnone, hkept, Option.getD_none]
  · rw [happend, htaken, Option.getD_some]

/-- A rumor of a peer that has number zero is not stored. -/
theorem onPacket_rumor_zero (w : Moment) (h : Hub) (sender : PeerAddress) {r : Rumor}
    (hr : r.sequence = 0) : (h.onPacket w sender (.rumor r)).1.rumors = h.rumors ∧
      (h.onPacket w sender (.rumor r)).1.rumorCounter = h.rumorCounter := by
  rcases h.onPacket_rumor_cases w sender r with ⟨-, hkept⟩ | ⟨rumors, hnumber, -⟩
  · exact hkept
  · exact absurd hr hnumber

/-! ### What is stored -/

/-- The rumor that a command asks a hub to store: the next one of its own, or one of a peer that
has a number. -/
def offered? (h : Hub) : HubCommand → Option Rumor
  | .packet _ (.rumor r) => if r.sequence = 0 then none else some r
  | .client (.rumor text) => some ⟨h.name, h.rumorCounter + 1, text⟩
  | _ => none

/-- A command that brings no rumor and asks for none has no part in them. -/
theorem sameRumors_obey (w : Moment) {c : HubCommand} (hb : c.rumor? = none)
    (hc : h.offered? c = none) : SameRumors h (h.obey w c).1 := by
  cases c with
  | packet sender packet =>
    refine (h.sameRumors_meet sender).trans ?_
    unfold obey onPacket
    simp only
    generalize (if sender = h.address then h else h.withPeers (h.peers.add sender)) = k
    cases packet with
    | simple m => exact .refl k
    | rumor r => exact absurd hb (by simp [HubCommand.rumor?])
    | status status =>
      cases status with
      | want entries => exact k.sameRumors_reconcile w sender (.ofWant entries)
      | route name => exact k.sameRumors_onRouteStatus sender name
    | secret m => exact k.sameRumors_onPrivate sender m
    | transaction m => exact .refl k
    | block m => exact .refl k
  | client request =>
    cases request with
    | rumor text => exact absurd hc (by simp [offered?])
    | secret destination text => exact h.sameRumors_onPrivateRequest destination text
    | broadcast text => exact .refl h
    | transaction input output amount => exact .refl h
    | addPeer peer =>
      unfold obey onClient
      simp only
      split
      next => exact .refl h
      next => exact h.sameRumors_withPeers _
  | antiEntropy => exact h.sameRumors_antiEntropy w
  | routeTick => exact h.sameRumors_routeTick w

theorem offered?_eq_some {c : HubCommand} {r : Rumor} (hc : h.offered? c = some r) :
    (∃ sender, c = .packet sender (.rumor r) ∧ r.sequence ≠ 0) ∨
      ∃ text, c = .client (.rumor text) ∧ r = ⟨h.name, h.rumorCounter + 1, text⟩ := by
  unfold offered? at hc
  split at hc
  next sender r' =>
    split at hc
    next => exact absurd hc (by simp)
    next hnumber =>
      obtain rfl := Option.some.inj hc
      exact Or.inl ⟨sender, rfl, hnumber⟩
  next text => exact Or.inr ⟨text, rfl, (Option.some.inj hc).symm⟩
  next => exact absurd hc (by simp)

/-- Where nothing is offered, the rumors and their numbers stay as they are. -/
theorem obey_of_offered?_eq_none (w : Moment) {c : HubCommand} (hc : h.offered? c = none) :
    (h.obey w c).1.rumors = h.rumors ∧ (h.obey w c).1.rumorCounter = h.rumorCounter := by
  cases hb : c.rumor? with
  | none =>
    have hsame := sameRumors_obey w hb hc
    exact ⟨hsame.rumors, hsame.counter⟩
  | some r =>
    -- a rumor that is brought but not offered has number zero
    obtain ⟨sender, rfl⟩ := HubCommand.rumor?_eq_some hb
    by_cases hzero : r.sequence = 0
    · exact h.onPacket_rumor_zero w sender hzero
    · rw [offered?, if_neg hzero] at hc
      exact absurd hc (by simp)

theorem onRumorRequest_rumors (h : Hub) (text : String) :
    (h.onRumorRequest text).rumors =
      (h.rumors.append? ⟨h.name, h.rumorCounter + 1, text⟩).getD h.rumors := by
  unfold onRumorRequest
  simp only
  split
  next hnone => rw [hnone, Option.getD_none]
  next rumors happend =>
    rw [happend]
    rfl

@[simp] theorem onRumorRequest_rumorCounter (h : Hub) (text : String) :
    (h.onRumorRequest text).rumorCounter = h.rumorCounter + 1 := by
  unfold onRumorRequest
  simp only
  split <;> rfl

/-- **What a hub stores**: the rumor that it is asked to, if it is the next one of its
origin, whatever is in it. -/
theorem obey_rumors (w : Moment) (h : Hub) (c : HubCommand) :
    (h.obey w c).1.rumors = ((h.offered? c).bind h.rumors.append?).getD h.rumors := by
  cases hc : h.offered? c with
  | none => exact (obey_of_offered?_eq_none w hc).1
  | some r =>
    rw [Option.bind_some]
    rcases offered?_eq_some hc with ⟨sender, rfl, hnumber⟩ | ⟨text, rfl, rfl⟩
    · exact h.onPacket_rumor_rumors w sender hnumber
    · exact h.onRumorRequest_rumors text

end Hub
end GossipLedger
