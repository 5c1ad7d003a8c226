import GossipLedger.Proofs.Rumor.Privates
import GossipLedger.Proofs.Swarm.Numbering

/-!
# Commands that ways are about

A hub finds out about the ways to others with the route timer, with route rumors and with the
answers to them.  It keeps whom it probes, and when it passed on the route rumors of others.
No other command has a part in this, and nor do the mongers, whatever they do between two
commands.

## Main definitions

* `Hub.Event`, `Hub.step`, `Hub.run` — a hub is told something, or its mongers work.
* `Hub.SameWays` — states that probe alike and have passed on the same route rumors.
* `HubCommand.waysAbout` — the commands that ways are about.

## Main results

* `Hub.sameWays_obey` — **no other command has a part in ways.**
* `Hub.run_handle`, `Swarm.exists_run_hubAfter` — what a hub does alone, and in a swarm, is such a
  run.
-/

namespace GossipLedger
namespace Hub

/-- What happens to a hub. -/
inductive Event
  | told (w : Moment) (command : HubCommand)
  /-- The mongers work, and leave the crew like this. -/
  | worked (crew : Crew)

/-- The hub after an event. -/
def step (h : Hub) : Event → Hub
  | .told w c => (h.obey w c).1
  | .worked crew => { h with crew := crew }

/-- The hub after several events. -/
def run (h : Hub) (es : List Event) : Hub := es.foldl step h

variable {h h' h'' : Hub}

theorem run_append (h : Hub) (es es' : List Event) : h.run (es ++ es') = (h.run es).run es' :=
  List.foldl_append

/-- A command, and what the mongers do afterwards. -/
theorem run_handle (w : Moment) (h : Hub) (c : HubCommand) :
    (h.handle w c).1 = h.run [.told w c, .worked (h.handle w c).1.crew] := rfl

/-! ### What is kept -/

/-- Two states with the same name and settings that probe the same peer alike and have passed on
the same route rumors. -/
structure SameWays (h h' : Hub) : Prop where
  name : h'.name = h.name
  settings : h'.settings = h.settings
  probe : h'.probe = h.probe
  relays : h'.relays = h.relays

theorem SameWays.refl (h : Hub) : SameWays h h := ⟨rfl, rfl, rfl, rfl⟩

theorem SameWays.trans (hab : SameWays h h') (hbc : SameWays h' h'') : SameWays h h'' :=
  ⟨hbc.name.trans hab.name, hbc.settings.trans hab.settings, hbc.probe.trans hab.probe,
    hbc.relays.trans hab.relays⟩

theorem sameWays_learnRoute (h : Hub) (name : String) (hop : PeerAddress) :
    SameWays h (h.learnRoute name hop) := by
  unfold learnRoute
  split
  next => exact .refl h
  next => exact ⟨rfl, rfl, rfl, rfl⟩

theorem sameWays_signal (h : Hub) (id : Option Nat) (s : Signal) : SameWays h (h.signal id s) := by
  cases id with
  | none => exact .refl h
  | some id => exact ⟨rfl, rfl, rfl, rfl⟩

/-- That the sender of a packet becomes known does not matter. -/
theorem sameWays_meet (h : Hub) (sender : PeerAddress) :
    SameWays h (if sender = h.address then h else h.withPeers (h.peers.add sender)) := by
  split
  next => exact .refl h
  next => exact ⟨rfl, rfl, rfl, rfl⟩

theorem sameWays_onClient (h : Hub) (request : ClientRequest) :
    SameWays h (h.onClient request).1 := by
  cases request with
  | rumor text =>
    show SameWays h (h.onRumorRequest text)
    unfold onRumorRequest
    dsimp only
    split
    next => exact ⟨rfl, rfl, rfl, rfl⟩
    next => exact ⟨rfl, rfl, rfl, rfl⟩
  | secret destination text =>
    show SameWays h (h.onPrivateRequest destination text).1
    unfold onPrivateRequest
    dsimp only
    split
    next => exact ⟨rfl, rfl, rfl, rfl⟩
    next => exact ⟨rfl, rfl, rfl, rfl⟩
  | broadcast text => exact .refl h
  | transaction input output amount => exact .refl h
  | addPeer peer =>
    unfold onClient
    dsimp only
    split
    next => exact .refl h
    next => exact ⟨rfl, rfl, rfl, rfl⟩

theorem sameWays_onRumor (w : Moment) (h : Hub) (sender : PeerAddress) {r : Rumor}
    (hr : r.isRoute = false) : SameWays h (h.onRumor w sender r).1 := by
  have hlearned := h.sameWays_learnRoute r.origin sender
  obtain ⟨h', heq, ⟨-, rfl⟩ | ⟨rumors, -, -, rfl⟩⟩ := h.onRumor_eq w sender hr
  · rw [heq]
    exact hlearned
  · rw [heq]
    exact hlearned.trans ⟨rfl, rfl, rfl, rfl⟩

theorem sameWays_reconcile (w : Moment) (h : Hub) (sender : PeerAddress)
    (theirs : StatusVector) : SameWays h (h.reconcile w sender theirs).1 := by
  have hsame := h.sameWays_signal (h.crew.talkingTo? sender false) .sync
  unfold reconcile
  dsimp only
  split
  next => exact hsame.trans (sameWays_signal _ _ _)
  next => exact hsame

theorem sameWays_onPrivate (h : Hub) (sender : PeerAddress) (m : PrivateMessage) :
    SameWays h (h.onPrivate sender m).1 := by
  have hsame := h.sameWays_learnRoute m.origin sender
  unfold onPrivate
  dsimp only
  split
  next => exact hsame.trans ⟨rfl, rfl, rfl, rfl⟩
  next =>
    split
    next => exact hsame
    next => exact hsame

theorem sameWays_antiEntropy (w : Moment) (h : Hub) : SameWays h (h.antiEntropy w).1 := by
  unfold antiEntropy
  split
  next => exact ⟨rfl, rfl, rfl, rfl⟩
  next => exact ⟨rfl, rfl, rfl, rfl⟩

end Hub

/-- The commands that ways are about. -/
def HubCommand.waysAbout : HubCommand → Bool
  | .packet _ (.rumor r) => r.isRoute
  | .packet _ (.status (.route _)) => true
  | .routeTick => true
  | _ => false

theorem HubCommand.waysAbout_cases {c : HubCommand} (hc : c.waysAbout = true) :
    (∃ sender r, c = .packet sender (.rumor r) ∧ r.isRoute = true) ∨
      (∃ sender name, c = .packet sender (.status (.route name))) ∨ c = .routeTick := by
  unfold waysAbout at hc
  split at hc
  next sender r => exact Or.inl ⟨sender, r, rfl, hc⟩
  next sender name => exact Or.inr (Or.inl ⟨sender, name, rfl⟩)
  next => exact Or.inr (Or.inr rfl)
  next => exact nomatch hc

namespace Hub

/-- **No other command has a part in ways.** -/
theorem sameWays_obey (w : Moment) (h : Hub) {c : HubCommand} (hc : c.waysAbout = false) :
    SameWays h (h.obey w c).1 := by
  cases c with
  | packet sender packet =>
    refine (h.sameWays_meet sender).trans ?_
    unfold obey onPacket
    dsimp only
    generalize (if sender = h.address then h else h.withPeers (h.peers.add sender)) = k
    cases packet with
    | simple m => exact .refl k
    | rumor r => exact k.sameWays_onRumor w sender hc
    | status status =>
      cases status with
      | want entries => exact k.sameWays_reconcile w sender _
      | route name => exact nomatch hc
    | secret m => exact k.sameWays_onPrivate sender m
    | transaction m => exact .refl k
    | block m => exact .refl k
  | client request => exact h.sameWays_onClient request
  | antiEntropy => exact h.sameWays_antiEntropy w
  | routeTick => exact nomatch hc

/-- An answer to a route rumor matters to the probe of the peer that gives it, and not to what was
passed on. -/
theorem onPacket_routeStatus (w : Moment) (h : Hub) (sender : PeerAddress) (name : String) :
    SameWays (if h.probe.peer = some sender then
        { h with probe := { h.probe with acked := true, retries := 0 } } else h)
      (h.onPacket w sender (.status (.route name))).1 := by
  have hmet := h.sameWays_meet sender
  unfold onPacket
  dsimp only
  generalize (if sender = h.address then h else h.withPeers (h.peers.add sender)) = k at hmet
  have hsame := (hmet.trans (k.sameWays_learnRoute name sender)).trans
    (sameWays_signal _ ((k.learnRoute name sender).crew.talkingTo? sender true) .stop)
  unfold onRouteStatus
  dsimp only
  rw [hsame.probe]
  split
  next => exact ⟨hsame.name, hsame.settings, rfl, hsame.relays⟩
  next => exact hsame

/-- A route rumor is answered.  It matters to what was passed on if it is passed on itself, and not
to the probe. -/
theorem onPacket_routeRumor (w : Moment) (h : Hub) (sender : PeerAddress) {r : Rumor}
    (hr : r.isRoute = true) : ∃ h', SameWays h h' ∧ SameRumors h h' ∧
      h.onPacket w sender (.rumor r) = h'.onRouteRumor w sender r := by
  refine ⟨_, (h.sameWays_meet sender).trans (sameWays_learnRoute _ r.origin sender),
    (h.sameRumors_meet sender).trans (sameRumors_learnRoute _ r.origin sender), ?_⟩
  unfold onPacket onRumor
  simp only [hr, if_true]

theorem name_step (h : Hub) (e : Event) : (h.step e).name = h.name := by
  cases e with
  | told w c => exact (h.posts_obey w c).name
  | worked crew => rfl

theorem settings_step (h : Hub) (e : Event) : (h.step e).settings = h.settings := by
  cases e with
  | told w c => exact (h.posts_obey w c).settings
  | worked crew => rfl

theorem name_run (h : Hub) (es : List Event) : (h.run es).name = h.name := by
  induction es generalizing h with
  | nil => rfl
  | cons e es ih => exact (ih (h.step e)).trans (h.name_step e)

theorem settings_run (h : Hub) (es : List Event) : (h.run es).settings = h.settings := by
  induction es generalizing h with
  | nil => rfl
  | cons e es ih => exact (ih (h.step e)).trans (h.settings_step e)

end Hub

namespace Swarm

variable {ι : Type} [DecidableEq ι]

/-- **In a swarm a hub has such a run**, with what it is told there. -/
theorem exists_run_hubAfter (members : ι → Member) (es : List (Event ι)) (i : ι) :
    ∃ es' : List Hub.Event, hubAfter members es i = (members i).hub.run es' ∧
      ∀ w c, Hub.Event.told w c ∈ es' ↔ Event.told i w c ∈ es := by
  induction es using List.reverseRecOn with
  | nil => exact ⟨[], rfl, by simp⟩
  | append_singleton es e ih =>
    obtain ⟨es', hrun, hsame⟩ := ih
    have hafter : hubAfter members (es ++ [e]) i = (((new members).run es).step e).hubs i := by
      unfold hubAfter
      rw [run_concat]
    rw [hafter]
    rcases hub_cases ((new members).run es) e i with ⟨hother, crew, heq⟩ | ⟨w, c, rfl, heq⟩
    · refine ⟨es' ++ [.worked crew], ?_, fun w c => ?_⟩
      · rw [heq, Hub.run_append, ← hrun]
        rfl
      · simp [hsame, Ne.symm (hother w c)]
    · refine ⟨es' ++ [.told w c], ?_, fun w' c' => ?_⟩
      · rw [heq, Hub.run_append, ← hrun]
        rfl
      · simp [hsame]

end Swarm
end GossipLedger
