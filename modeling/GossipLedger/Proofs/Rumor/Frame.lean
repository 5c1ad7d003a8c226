import GossipLedger.Proofs.Rumor.Hub

/-!
# What rumors and statuses leave alone

What a hub does with rumors and statuses has no part in private messages and does not change
whom it knows.

## Main definitions

* `Hub.SamePrivates` — states with the same private messages.
* `Hub.SamePeers` — states that know the same peers.
* `Hub.SameRest` — both.

## Main results

* `Hub.sameRest_onRumor`, `Hub.sameRest_reconcile`, `Hub.sameRest_onRouteStatus` — **rumors and
  statuses leave private messages and peers alone.**
-/

namespace GossipLedger
namespace Hub

variable {h h' h'' : Hub}

/-- Two states with the same name and settings that have the same private messages and number
the own ones alike. -/
structure SamePrivates (h h' : Hub) : Prop where
  name : h'.name = h.name
  settings : h'.settings = h.settings
  counters : h'.privateCounters = h.privateCounters
  privates : h'.privates = h.privates
  sentPrivates : h'.sentPrivates = h.sentPrivates

theorem SamePrivates.refl (h : Hub) : SamePrivates h h := ⟨rfl, rfl, rfl, rfl, rfl⟩

theorem SamePrivates.trans (hab : SamePrivates h h') (hbc : SamePrivates h' h'') :
    SamePrivates h h'' :=
  ⟨hbc.name.trans hab.name, hbc.settings.trans hab.settings, hbc.counters.trans hab.counters,
    hbc.privates.trans hab.privates, hbc.sentPrivates.trans hab.sentPrivates⟩

/-- Two states that know the same peers, are at the same address and probe the same peer. -/
structure SamePeers (h h' : Hub) : Prop where
  peers : h'.peers = h.peers
  address : h'.address = h.address
  probed : h'.probe.peer = h.probe.peer

theorem SamePeers.refl (h : Hub) : SamePeers h h := ⟨rfl, rfl, rfl⟩

theorem SamePeers.trans (hab : SamePeers h h') (hbc : SamePeers h' h'') : SamePeers h h'' :=
  ⟨hbc.peers.trans hab.peers, hbc.address.trans hab.address, hbc.probed.trans hab.probed⟩

/-- Two states that differ in nothing but what rumors and ways are about. -/
structure SameRest (h h' : Hub) : Prop extends SamePrivates h h', SamePeers h h'

theorem SameRest.refl (h : Hub) : SameRest h h := ⟨.refl h, .refl h⟩

theorem SameRest.trans (hab : SameRest h h') (hbc : SameRest h' h'') : SameRest h h'' :=
  ⟨hab.toSamePrivates.trans hbc.toSamePrivates, hab.toSamePeers.trans hbc.toSamePeers⟩

theorem sameRest_learnRoute (h : Hub) (name : String) (hop : PeerAddress) :
    SameRest h (h.learnRoute name hop) := by
  unfold learnRoute
  split
  next => exact .refl h
  next => exact ⟨⟨rfl, rfl, rfl, rfl, rfl⟩, ⟨rfl, rfl, rfl⟩⟩

theorem sameRest_signal (h : Hub) (id : Option Nat) (s : Signal) : SameRest h (h.signal id s) := by
  cases id with
  | none => exact .refl h
  | some id => exact ⟨⟨rfl, rfl, rfl, rfl, rfl⟩, ⟨rfl, rfl, rfl⟩⟩

theorem sameRest_onRumorRequest (h : Hub) (text : String) :
    SameRest h (h.onRumorRequest text) := by
  unfold onRumorRequest
  dsimp only
  split
  next => exact ⟨⟨rfl, rfl, rfl, rfl, rfl⟩, ⟨rfl, rfl, rfl⟩⟩
  next => exact ⟨⟨rfl, rfl, rfl, rfl, rfl⟩, ⟨rfl, rfl, rfl⟩⟩

theorem sameRest_onRumor (w : Moment) (h : Hub) (sender : PeerAddress) (r : Rumor) :
    SameRest h (h.onRumor w sender r).1 := by
  refine (h.sameRest_learnRoute r.origin sender).trans ?_
  unfold onRumor
  dsimp only
  generalize h.learnRoute r.origin sender = k
  split
  next =>
    rcases onRouteRumor_cases w k sender r with heq | heq
    · rw [heq]
      exact .refl k
    · rw [heq]
      exact ⟨⟨rfl, rfl, rfl, rfl, rfl⟩, ⟨rfl, rfl, rfl⟩⟩
  next =>
    split
    next => exact ⟨⟨rfl, rfl, rfl, rfl, rfl⟩, ⟨rfl, rfl, rfl⟩⟩
    next => exact .refl k

theorem sameRest_reconcile (w : Moment) (h : Hub) (sender : PeerAddress)
    (theirs : StatusVector) : SameRest h (h.reconcile w sender theirs).1 := by
  have hsame := h.sameRest_signal (h.crew.talkingTo? sender false) .sync
  unfold reconcile
  dsimp only
  split
  next => exact hsame.trans (sameRest_signal _ _ _)
  next => exact hsame

/-- An answer to a route rumor may be the one that the route timer waits for. -/
theorem sameRest_onRouteStatus (h : Hub) (sender : PeerAddress) (name : String) :
    SameRest h (h.onRouteStatus sender name) := by
  have hsame := (h.sameRest_learnRoute name sender).trans
    (sameRest_signal _ ((h.learnRoute name sender).crew.talkingTo? sender true) .stop)
  unfold onRouteStatus
  dsimp only
  split
  next => exact hsame.trans ⟨⟨rfl, rfl, rfl, rfl, rfl⟩, ⟨rfl, rfl, rfl⟩⟩
  next => exact hsame

end Hub
end GossipLedger
