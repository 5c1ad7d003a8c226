import GossipLedger.Proofs.Rumor.Frame

/-!
# Whom a hub knows and whom it addresses

A peer becomes known when it sends something or a client names it.  It is forgotten when a
monger or the route timer gives it up.  What mongers send and the statuses of a sweep go to
peers that are known.  The route timer picks a known peer to probe, but does not look again
whether it is still known when it probes it another time.

## Main definitions

* `Effect.target?`, `Hub.targets` — the peers that effects address.
* `HubCommand.names?` — the peer that a command makes known.
* `Hub.Reprobes` — the route timer is about to probe a peer another time.

## Main results

* `Task.run_sent` — **mongers send to known peers**, and make none known.
* `Hub.knows_obey` — **who is known after a command.**
* `Hub.targets_antiEntropy`, `Hub.targets_routeTick` — whom the timers address.
-/

namespace GossipLedger

variable {p : PeerAddress}

theorem PeerSet.mem_of_pick {s : PeerSet} {picker : Picker PeerAddress}
    {excluded : List PeerAddress} (h : s.pick picker excluded = some p) : p ∈ s :=
  List.mem_of_mem_filter (picker.mem_of_pick h)

/-! ### Mongers -/

/-- What a move of a monger may do with the known peers: it sends to some of them, as far as
they are left, and makes none known. -/
structure Turn.Within (peers : PeerSet) (turn : Turn) : Prop where
  sent : ∀ p ∈ turn.sent, p ∈ turn.peers
  peers : ∀ p ∈ turn.peers, p ∈ peers

theorem Turn.Within.mono {peers peers' : PeerSet} {turn : Turn} (h : turn.Within peers)
    (hsub : ∀ p ∈ peers, p ∈ peers') : turn.Within peers' :=
  ⟨h.sent, fun p hp => hsub p (h.peers p hp)⟩

theorem Turn.within_silent (peers : PeerSet) (m : Monger) : Turn.Within peers ⟨m, peers, []⟩ where
  sent _ hp := nomatch hp
  peers _ hp := hp

theorem Monger.within_send (w : Moment) (s : MongerSettings) {peers : PeerSet} (m : Monger)
    (hp : p ∈ peers) : (m.send w s peers p).Within peers := by
  unfold Monger.send
  dsimp only
  split
  next =>
    refine ⟨fun q hq => ?_, fun q hq => hq⟩
    rw [List.mem_singleton.1 hq]
    exact hp
  next => exact Turn.within_silent _ _

theorem Monger.within_spread (w : Moment) (s : MongerSettings) (peers : PeerSet) (m : Monger) :
    (m.spread w s peers).Within peers := by
  unfold Monger.spread
  split
  next p hpick => exact m.within_send w s (PeerSet.mem_of_pick hpick)
  next => exact Turn.within_silent _ _

theorem Monger.within_onSignal (w : Moment) (s : MongerSettings) (peers : PeerSet) (m : Monger)
    (signal : Signal) : (m.onSignal w s peers signal).Within peers := by
  cases signal with
  | sync => exact Turn.within_silent _ _
  | reset => exact within_spread w s peers _
  | stop => exact Turn.within_silent _ _
  | forgetTried => exact Turn.within_silent _ _

/-- A monger that waited in vain asks whether its peer is still known. -/
theorem Monger.within_onTimeout (w : Moment) (s : MongerSettings) (peers : PeerSet) (m : Monger) :
    (m.onTimeout w s peers).Within peers := by
  unfold Monger.onTimeout
  split
  next => exact Turn.within_silent _ _
  next =>
    dsimp only
    split
    next p _ =>
      split
      next =>
        refine (within_spread w s (peers.remove p) _).mono fun q hq => ?_
        exact (PeerSet.mem_remove.1 hq).1
      next =>
        split
        next hknown => exact within_send w s _ hknown
        next => exact within_spread w s peers _
    next => exact within_spread w s peers _

/-- **Mongers send to known peers**, and make none known. -/
theorem Task.run_sent (w : Moment) (s : MongerSettings) (peers : PeerSet) (t : Task) (m : Move) :
    (t.run w s peers m).2.Within peers := by
  cases m with
  | begin => exact t.monger.within_spread w s peers
  | take signal rest => exact t.monger.within_onSignal w s peers signal
  | expire => exact t.monger.within_onTimeout w s peers

/-! ### Commands -/

/-- The peer that an effect is addressed to. -/
def Effect.target? : Effect → Option PeerAddress
  | .send (.unicast target _) => some target
  | _ => none

/-- The peer that a command makes known. -/
def HubCommand.names? : HubCommand → Option PeerAddress
  | .packet sender _ => some sender
  | .client (.addPeer peer) => some peer
  | _ => none

namespace Hub

variable {h h' h'' : Hub}

/-- The peers that effects are addressed to. -/
def targets (effects : List Effect) : List PeerAddress := effects.filterMap Effect.target?

/-- The route timer is about to probe a peer another time. -/
def Reprobes (h : Hub) (p : PeerAddress) : Prop :=
  h.probe.peer = some p ∧ h.probe.acked = false ∧ h.probe.retries + 1 < h.settings.maxRetries.toNat

theorem samePeers_onPrivateRequest (h : Hub) (destination text : String) :
    SamePeers h (h.onPrivateRequest destination text).1 := by
  unfold onPrivateRequest
  dsimp only
  split
  next => exact ⟨rfl, rfl, rfl⟩
  next => exact ⟨rfl, rfl, rfl⟩

theorem samePeers_onPrivate (h : Hub) (sender : PeerAddress) (m : PrivateMessage) :
    SamePeers h (h.onPrivate sender m).1 := by
  have hsame := (h.sameRest_learnRoute m.origin sender).toSamePeers
  unfold onPrivate
  dsimp only
  split
  next => exact hsame.trans ⟨rfl, rfl, rfl⟩
  next =>
    split
    next => exact hsame
    next => exact hsame

/-- A packet makes its sender known and changes nothing else about the peers. -/
theorem samePeers_onPacket (w : Moment) (h : Hub) (sender : PeerAddress) (packet : Packet) :
    SamePeers (if sender = h.address then h else h.withPeers (h.peers.add sender))
      (h.onPacket w sender packet).1 := by
  unfold onPacket
  dsimp only
  generalize (if sender = h.address then h else h.withPeers (h.peers.add sender)) = k
  cases packet with
  | simple m => exact .refl k
  | rumor r => exact (k.sameRest_onRumor w sender r).toSamePeers
  | status status =>
    cases status with
    | want entries => exact (k.sameRest_reconcile w sender _).toSamePeers
    | route name => exact (k.sameRest_onRouteStatus sender name).toSamePeers
  | secret m => exact k.samePeers_onPrivate sender m
  | transaction m => exact .refl k
  | block m => exact .refl k

/-- What a command does with the known peers: the one that it names becomes known, unless it is
the hub itself, and others are forgotten at most.  A peer that is probed next is known. -/
structure Knows (h : Hub) (named : Option PeerAddress) (h' : Hub) : Prop where
  address : h'.address = h.address
  knows : ∀ p, named = some p → p ≠ h.address → p ∈ h'.peers
  peers : ∀ p ∈ h'.peers, p ∈ h.peers ∨ (named = some p ∧ p ≠ h.address)
  probed : ∀ p, h'.probe.peer = some p → h.probe.peer = some p ∨ p ∈ h'.peers

theorem SamePeers.knows (hsame : SamePeers h h') : Knows h none h' where
  address := hsame.address
  knows _ hp := nomatch hp
  peers _ hp := Or.inl (hsame.peers ▸ hp)
  probed _ hp := Or.inl (hsame.probed ▸ hp)

theorem Knows.trans_same {named : Option PeerAddress} (hknows : Knows h named h')
    (hsame : SamePeers h' h'') : Knows h named h'' where
  address := hsame.address.trans hknows.address
  knows p hp hother := hsame.peers ▸ hknows.knows p hp hother
  peers p hp := hknows.peers p (hsame.peers ▸ hp)
  probed p hp := by
    rw [hsame.peers]
    exact hknows.probed p (hsame.probed ▸ hp)

/-- A peer that is named becomes known, unless it is the hub itself. -/
theorem knows_add (h : Hub) (named : PeerAddress) :
    Knows h (some named) (if named = h.address then h else h.withPeers (h.peers.add named)) := by
  split
  next hself =>
    refine ⟨rfl, fun p hp hother => ?_, fun p hp => Or.inl hp, fun p hp => Or.inl hp⟩
    obtain rfl := Option.some.inj hp
    exact absurd hself hother
  next hother =>
    refine ⟨rfl, fun p hp _ => ?_, fun p hp => ?_, fun p hp => Or.inl hp⟩
    · exact PeerSet.mem_add.2 (Or.inr (Option.some.inj hp).symm)
    · refine (PeerSet.mem_add.1 hp).imp_right fun hnew => ?_
      rw [hnew]
      exact ⟨rfl, hother⟩

theorem pickInTurn_mem {peers : PeerSet} {picker : Picker PeerAddress}
    {excluded rest : List PeerAddress} {p : PeerAddress}
    (h : pickInTurn peers picker excluded = (some p, rest)) : p ∈ peers := by
  unfold pickInTurn at h
  split at h
  next q hpick =>
    obtain rfl := Option.some.inj (Prod.mk.inj h).1
    exact PeerSet.mem_of_pick hpick
  next => exact PeerSet.mem_of_pick (Prod.mk.inj h).1

/-- A status of a sweep goes to a known peer. -/
theorem targets_antiEntropy (w : Moment) (h : Hub) :
    SamePeers h (h.antiEntropy w).1 ∧ ∀ p ∈ targets (h.antiEntropy w).2, p ∈ h.peers := by
  unfold antiEntropy
  split
  next p swept hpick =>
    refine ⟨⟨rfl, rfl, rfl⟩, fun q hq => ?_⟩
    rw [List.mem_singleton.1 hq]
    exact pickInTurn_mem hpick
  next => exact ⟨⟨rfl, rfl, rfl⟩, fun q hq => nomatch hq⟩

/-- The next peer to probe is a known one. -/
theorem targets_probeNext (w : Moment) (h : Hub) :
    Knows h none (h.probeNext w).1 ∧ (h.probeNext w).1.peers = h.peers ∧
      ∀ p ∈ targets (h.probeNext w).2, p ∈ h.peers := by
  unfold probeNext
  split
  next p tried hpick =>
    have hp := pickInTurn_mem hpick
    refine ⟨⟨rfl, fun q hq => (nomatch hq), fun q hq => Or.inl hq, fun q hq => ?_⟩, rfl,
      fun q hq => ?_⟩
    · obtain rfl := Option.some.inj hq
      exact Or.inr hp
    · rw [List.mem_singleton.1 hq]
      exact hp
  next =>
    refine ⟨⟨rfl, fun q hq => (nomatch hq), fun q hq => Or.inl hq, fun q hq => nomatch hq⟩, rfl,
      fun q hq => nomatch hq⟩

/-- **Whom the route timer addresses**: the peer that it probes another time, known or not, and
otherwise a known one. -/
theorem targets_routeTick (w : Moment) (h : Hub) :
    Knows h none (h.routeTick w).1 ∧
      ((∃ p, h.Reprobes p ∧ (h.routeTick w).1.peers = h.peers ∧ targets (h.routeTick w).2 = [p]) ∨
        ((∀ p, ¬ h.Reprobes p) ∧ ∀ p ∈ targets (h.routeTick w).2, p ∈ (h.routeTick w).1.peers)) := by
  have hnext := h.targets_probeNext w
  unfold routeTick
  split
  next p hp =>
    split
    next hacked =>
      refine ⟨hnext.1, Or.inr ⟨fun q hq => ?_, ?_⟩⟩
      · exact absurd hacked (by simp [hq.2.1])
      · rw [hnext.2.1]
        exact hnext.2.2
    next hacked =>
      dsimp only
      split
      next hretries =>
        refine ⟨⟨rfl, fun q hq => (nomatch hq), fun q hq => Or.inl hq, fun q hq => Or.inl hq⟩,
          Or.inl ⟨p, ⟨hp, by simpa using hacked, hretries⟩, rfl, rfl⟩⟩
      next hretries =>
        obtain ⟨hknows, hsame, htargets⟩ := (h.withPeers (h.peers.remove p)).targets_probeNext w
        refine ⟨⟨hknows.address, hknows.knows, fun q hq => ?_, hknows.probed⟩,
          Or.inr ⟨fun q hq => absurd hq.2.2 hretries, ?_⟩⟩
        · rw [hsame] at hq
          exact Or.inl (PeerSet.mem_remove.1 hq).1
        · rw [hsame]
          exact htargets
  next hnone =>
    refine ⟨hnext.1, Or.inr ⟨fun q hq => ?_, ?_⟩⟩
    · exact absurd (hnone.symm.trans hq.1) (by simp)
    · rw [hnext.2.1]
      exact hnext.2.2

/-- **Who is known after a command.** -/
theorem knows_obey (w : Moment) (h : Hub) (c : HubCommand) : Knows h c.names? (h.obey w c).1 := by
  cases c with
  | packet sender packet =>
    exact (h.knows_add sender).trans_same (h.samePeers_onPacket w sender packet)
  | client request =>
    cases request with
    | rumor text => exact (h.sameRest_onRumorRequest text).toSamePeers.knows
    | secret destination text => exact (h.samePeers_onPrivateRequest destination text).knows
    | broadcast text => exact SamePeers.knows (.refl h)
    | transaction input output amount => exact SamePeers.knows (.refl h)
    | addPeer peer =>
      have hadds := h.knows_add peer
      show Knows h (some peer) (h.onClient (.addPeer peer)).1
      unfold onClient
      dsimp only
      split
      next hself =>
        rw [if_pos hself] at hadds
        exact hadds
      next hother =>
        rw [if_neg hother] at hadds
        exact hadds
  | antiEntropy => exact (h.targets_antiEntropy w).1.knows
  | routeTick => exact (h.targets_routeTick w).1

end Hub
end GossipLedger
