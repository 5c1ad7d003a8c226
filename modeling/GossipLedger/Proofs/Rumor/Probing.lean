import GossipLedger.Proofs.Rumor.Ways

/-!
# How peers are probed

With each tick of the route timer a hub sends a route rumor to the peer that it probes, until the
peer answers or has left as many of them unanswered as the settings say.  In the second case the
peer is no longer known.  In both the hub goes on to another peer, and it comes back to one that has
answered when it has probed all that it knows.

Between two ticks the hub does other things and its mongers work.  None of them has a part in the
probing but the answers of the peer that is probed.

## Main definitions

* `Hub.Probes` — a peer is being probed, and has left so many route rumors unanswered.
* `Hub.Rests` — a peer was probed in this round, and no answer of it is waited for.
* `Hub.probings` — what the route timer sends.
* `Hub.Silent` — a peer answers none of the route rumors.
* `Hub.RoundLasts` — whenever a new probe begins, some known peer is yet to be probed.

## Main results

* `Hub.ticks_routeTick` — all that a tick of the route timer can do.
* `Hub.Probes.run` — a silent peer is probed by each tick, and nobody else is.
* `Hub.Rests.run` — a peer that has answered is left alone for the rest of the round.
* `Hub.probes_silent_and_spares` — **silent peers are given up, and those that answer are spared.**
-/

namespace GossipLedger

/-- The peer answers a route rumor. -/
def HubCommand.answers (p : PeerAddress) : HubCommand → Bool
  | .packet sender (.status (.route _)) => sender = p
  | _ => false

namespace Hub

/-- The peer answers a route rumor. -/
def Event.answers (p : PeerAddress) : Event → Bool
  | .told _ c => c.answers p
  | .worked _ => false

/-- The route timer ticks. -/
def Event.ticks : Event → Bool
  | .told _ .routeTick => true
  | _ => false

/-- The peer answers none of the route rumors. -/
def Silent (p : PeerAddress) (es : List Event) : Prop := ∀ e ∈ es, e.answers p = false

/-- How often the route timer ticks. -/
def ticks (es : List Event) : Nat := es.countP Event.ticks

/-- What the route timer sends. -/
def probing (h : Hub) : Event → List Effect
  | .told w .routeTick => (h.routeTick w).2
  | _ => []

/-- All that the route timer sends. -/
def probings (h : Hub) : List Event → List Effect
  | [] => []
  | e :: es => h.probing e ++ (h.step e).probings es

/-- A peer is being probed, and has left so many route rumors but the last unanswered. -/
structure Probes (h : Hub) (p : PeerAddress) (k : Nat) : Prop where
  peer : h.probe.peer = some p
  acked : h.probe.acked = false
  retries : h.probe.retries = k
  tried : p ∈ h.probe.tried

/-- A peer was probed in this round, and no answer of it is waited for. -/
structure Rests (h : Hub) (p : PeerAddress) : Prop where
  tried : p ∈ h.probe.tried
  acked : h.probe.peer = some p → h.probe.acked = true

/-- Whenever a new probe begins, some known peer is yet to be probed in this round. -/
def RoundLasts (h : Hub) (es : List Event) : Prop :=
  ∀ before w after, es = before ++ .told w .routeTick :: after →
    (∀ q, ¬ (h.run before).Reprobes q) →
      ∃ q ∈ ((h.run before).routeTick w).1.peers, q ∉ (h.run before).probe.tried

variable {h h' : Hub} {p q : PeerAddress} {k : Nat} {w : Moment} {es : List Event}

/-! ### The next peer -/

/-- A pick is a peer that is not excluded, or any if all are. -/
theorem pickInTurn_cases (peers : PeerSet) (picker : Picker PeerAddress)
    (excluded : List PeerAddress) :
    (∃ q ∈ peers, q ∉ excluded ∧ pickInTurn peers picker excluded = (some q, excluded)) ∨
      ((∀ x ∈ peers, x ∈ excluded) ∧
        ((∃ q ∈ peers, pickInTurn peers picker excluded = (some q, [])) ∨
          ((∀ x, x ∉ peers) ∧ pickInTurn peers picker excluded = (none, [])))) := by
  unfold pickInTurn
  split
  next q hpick =>
    have hq := picker.mem_of_pick hpick
    simp only [List.mem_filter, decide_eq_true_eq] at hq
    exact Or.inl ⟨q, hq.1, hq.2, rfl⟩
  next hnone =>
    right
    rw [PeerSet.pick, Picker.pick_eq_none_iff, List.filter_eq_nil_iff] at hnone
    refine ⟨fun x hx => by simpa using hnone x hx, ?_⟩
    cases hpick : peers.pick picker [] with
    | some q => exact Or.inl ⟨q, PeerSet.mem_of_pick hpick, rfl⟩
    | none =>
      rw [PeerSet.pick, Picker.pick_eq_none_iff, List.filter_eq_nil_iff] at hpick
      exact Or.inr ⟨fun x hx => by simpa using hpick x hx, rfl⟩

/-- **All that the beginning of a new probe can do**: a peer is probed that is yet to be probed in
this round, or a new round begins, or there is nobody to probe. -/
inductive Begins (h : Hub) : Hub × List Effect → Prop
  | goesOn (q : PeerAddress) (hknown : q ∈ h.peers) (hnew : q ∉ h.probe.tried) :
      Begins h ({ h with probe := ⟨some q, false, 0, q :: h.probe.tried⟩ }, [h.routeRumor q])
  | startsOver (q : PeerAddress) (hknown : q ∈ h.peers) (hall : ∀ x ∈ h.peers, x ∈ h.probe.tried) :
      Begins h ({ h with probe := ⟨some q, false, 0, [q]⟩ }, [h.routeRumor q])
  | alone (hnobody : ∀ x, x ∉ h.peers) :
      Begins h ({ h with probe := { h.probe with peer := none, retries := 0, tried := [] } }, [])

theorem begins_probeNext (w : Moment) (h : Hub) : h.Begins (h.probeNext w) := by
  unfold probeNext
  rcases pickInTurn_cases h.peers w.picker h.probe.tried with
    ⟨q, hknown, hnew, heq⟩ | ⟨hall, ⟨q, hknown, heq⟩ | ⟨hnobody, heq⟩⟩
  · rw [heq]
    exact .goesOn q hknown hnew
  · rw [heq]
    exact .startsOver q hknown hall
  · rw [heq]
    exact .alone hnobody

/-- **All that a tick of the route timer can do**: the peer is probed another time, or a new probe
begins, before which the peer may be given up. -/
inductive Ticks (h : Hub) : Hub × List Effect → Prop
  | again (p : PeerAddress) (hagain : h.Reprobes p) :
      Ticks h
        ({ h with probe := { h.probe with retries := h.probe.retries + 1 } }, [h.routeRumor p])
  | next (result : Hub × List Effect) (hdone : ∀ p, h.probe.peer = some p → h.probe.acked = true)
      (hbegins : h.Begins result) : Ticks h result
  | gaveUp (p : PeerAddress) (result : Hub × List Effect) (hpeer : h.probe.peer = some p)
      (hacked : h.probe.acked = false) (hmany : ¬ h.probe.retries + 1 < h.settings.maxRetries.toNat)
      (hbegins : (h.withPeers (h.peers.remove p)).Begins result) : Ticks h result

theorem ticks_routeTick (w : Moment) (h : Hub) : h.Ticks (h.routeTick w) := by
  unfold routeTick
  split
  next p hpeer =>
    split
    next hacked => exact .next _ (fun _ _ => hacked) (begins_probeNext w h)
    next hacked =>
      have hacked : h.probe.acked = false := Bool.eq_false_iff.2 hacked
      dsimp only
      split
      next hmore => exact .again p ⟨hpeer, hacked, hmore⟩
      next hmany => exact .gaveUp p _ hpeer hacked hmany (begins_probeNext w _)
  next hnone =>
    refine .next _ (fun p hp => ?_) (begins_probeNext w h)
    exact absurd (hnone.symm.trans hp) (by simp)

/-! ### Between the ticks -/

/-- Between two ticks, the peer that is probed answers, or the probe stays as it is. -/
theorem probe_obey_cases (w : Moment) (h : Hub) {c : HubCommand} (hc : c ≠ .routeTick) :
    (h.obey w c).1.probe = h.probe ∨
      ∃ p, c.answers p = true ∧ h.probe.peer = some p ∧
        (h.obey w c).1.probe = { h.probe with acked := true, retries := 0 } := by
  cases hways : c.waysAbout with
  | false => exact Or.inl (sameWays_obey w h hways).probe
  | true =>
    rcases HubCommand.waysAbout_cases hways with ⟨sender, r, rfl, hr⟩ | ⟨sender, name, rfl⟩ | rfl
    · -- a route rumor has no part in the probe
      obtain ⟨h', hsame, -, heq⟩ := h.onPacket_routeRumor w sender hr
      left
      show (h.onPacket w sender (.rumor r)).1.probe = h.probe
      rw [heq]
      rcases h'.onRouteRumor_cases w sender r with hcase | hcase
      · rw [hcase]
        exact hsame.probe
      · rw [hcase]
        exact hsame.probe
    · have hsame := h.onPacket_routeStatus w sender name
      by_cases hpeer : h.probe.peer = some sender
      · rw [if_pos hpeer] at hsame
        exact Or.inr ⟨sender, by simp [HubCommand.answers], hpeer, hsame.probe⟩
      · rw [if_neg hpeer] at hsame
        exact Or.inl hsame.probe
    · exact absurd rfl hc

/-! ### A silent peer -/

/-- The number of route rumors that a peer may leave unanswered. -/
def patience (h : Hub) : Nat := max 1 h.settings.maxRetries.toNat

/-- A peer that may leave more unanswered gets another route rumor, and nobody else does. -/
theorem Probes.tick_again (hprobes : h.Probes p k) (hmore : k + 1 < h.patience) :
    (h.routeTick w).2 = [h.routeRumor p] ∧ (h.routeTick w).1.Probes p (k + 1) ∧
      (h.routeTick w).1.peers = h.peers := by
  obtain ⟨hpeer, hacked, rfl, htried⟩ := hprobes
  have hless : h.probe.retries + 1 < h.settings.maxRetries.toNat := by
    unfold patience at hmore
    omega
  have htick : h.routeTick w =
      ({ h with probe := { h.probe with retries := h.probe.retries + 1 } }, [h.routeRumor p]) := by
    simp [routeTick, hpeer, hacked, hless]
  rw [htick]
  exact ⟨rfl, ⟨hpeer, hacked, rfl, htried⟩, rfl⟩

/-- A peer that may not is given up, and not probed again. -/
theorem Probes.tick_last (hprobes : h.Probes p k) (hlast : k + 1 = h.patience) :
    (h.routeTick w).1.peers = h.peers.remove p ∧ p ∉ targets (h.routeTick w).2 := by
  obtain ⟨hpeer, hacked, rfl, -⟩ := hprobes
  have hmany : ¬ h.probe.retries + 1 < h.settings.maxRetries.toNat := by
    unfold patience at hlast
    omega
  have htick : h.routeTick w = (h.withPeers (h.peers.remove p)).probeNext w := by
    simp [routeTick, hpeer, hacked, hmany]
  obtain ⟨-, hpeers, htargets⟩ := targets_probeNext w (h.withPeers (h.peers.remove p))
  rw [htick, hpeers]
  exact ⟨rfl, fun hp => (PeerSet.mem_remove.1 (htargets p hp)).2 rfl⟩

/-- What happens between two ticks does not matter to a silent peer. -/
theorem Probes.step (hprobes : h.Probes p k) {e : Event} (hsilent : e.answers p = false)
    (htick : e.ticks = false) : (h.step e).Probes p k := by
  cases e with
  | worked crew => exact ⟨hprobes.peer, hprobes.acked, hprobes.retries, hprobes.tried⟩
  | told w c =>
    have hc : c ≠ .routeTick := by
      rintro rfl
      exact nomatch htick
    rcases probe_obey_cases w h hc with hsame | ⟨q, hanswers, hq, -⟩
    · have hprobe : (h.step (.told w c)).probe = h.probe := hsame
      refine ⟨?_, ?_, ?_, ?_⟩
      · exact hprobe ▸ hprobes.peer
      · exact hprobe ▸ hprobes.acked
      · exact hprobe ▸ hprobes.retries
      · exact hprobe ▸ hprobes.tried
    · -- only the peer that is probed could end this, and it does not answer
      obtain rfl := Option.some.inj (hq.symm.trans hprobes.peer)
      exact absurd hanswers (Bool.eq_false_iff.1 hsilent)

theorem patience_step (h : Hub) (e : Event) : (h.step e).patience = h.patience := by
  unfold patience
  rw [settings_step]

theorem routeRumor_step (h : Hub) (e : Event) (p : PeerAddress) :
    (h.step e).routeRumor p = h.routeRumor p := by
  unfold routeRumor
  rw [name_step]

theorem eq_routeTick_of_ticks {e : Event} (he : e.ticks = true) :
    ∃ w, e = .told w .routeTick := by
  unfold Event.ticks at he
  split at he
  next w => exact ⟨w, rfl⟩
  next => exact nomatch he

theorem probing_of_not_ticks {e : Event} (he : e.ticks = false) : h.probing e = [] := by
  unfold probing
  split
  next => exact nomatch he
  next => rfl

/-- **A silent peer is probed by each tick, and nobody else is**, until it has left too many route
rumors unanswered. -/
theorem Probes.run (hprobes : h.Probes p k) (hsilent : Silent p es)
    (hfew : k + ticks es < h.patience) :
    (h.run es).Probes p (k + ticks es) ∧
      h.probings es = List.replicate (ticks es) (h.routeRumor p) := by
  -- on the events, with the number of route rumors that are unanswered so far
  induction es generalizing h k with
  | nil => exact ⟨hprobes, rfl⟩
  | cons e es ih =>
    have hquiet : e.answers p = false := hsilent e List.mem_cons_self
    have hrest : Silent p es := fun x hx => hsilent x (List.mem_cons_of_mem e hx)
    cases he : e.ticks with
    | false =>
      have hcount : ticks (e :: es) = ticks es := List.countP_cons_of_neg (by simp [he])
      rw [hcount] at hfew ⊢
      obtain ⟨hlast, hsent⟩ := ih (hprobes.step hquiet he) hrest (by rwa [patience_step])
      refine ⟨hlast, ?_⟩
      rw [probings, probing_of_not_ticks he, hsent, routeRumor_step, List.nil_append]
    | true =>
      have hcount : ticks (e :: es) = ticks es + 1 := List.countP_cons_of_pos he
      obtain ⟨w, rfl⟩ := eq_routeTick_of_ticks he
      rw [hcount] at hfew ⊢
      obtain ⟨hone, hagain, -⟩ := hprobes.tick_again (w := w) (by omega)
      have hlater : (h.step (.told w .routeTick)).Probes p (k + 1) := hagain
      obtain ⟨hlast, hsent⟩ := ih hlater hrest (by rw [patience_step]; omega)
      refine ⟨?_, ?_⟩
      · rw [Nat.add_right_comm, Nat.add_assoc] at hlast
        exact hlast
      · rw [probings, hsent, routeRumor_step, List.replicate_succ]
        show (h.routeTick w).2 ++ _ = _
        rw [hone]
        rfl

/-! ### A peer that answers -/

/-- The probe of a peer begins. -/
theorem probes_of_begins {result : Hub × List Effect} (hbegins : h.Begins result)
    (hpeer : result.1.probe.peer = some p) :
    result.1.Probes p 0 ∧ result.2 = [h.routeRumor p] := by
  cases hbegins with
  | goesOn q =>
    obtain rfl := Option.some.inj hpeer
    exact ⟨⟨rfl, rfl, rfl, List.mem_cons_self⟩, rfl⟩
  | startsOver q =>
    obtain rfl := Option.some.inj hpeer
    exact ⟨⟨rfl, rfl, rfl, List.mem_cons_self⟩, rfl⟩
  | alone => exact nomatch hpeer

/-- Between two ticks the peers that were probed in this round stay the same. -/
theorem tried_obey (w : Moment) (h : Hub) {c : HubCommand} (hc : c ≠ .routeTick) :
    (h.obey w c).1.probe.tried = h.probe.tried ∧ (h.obey w c).1.probe.peer = h.probe.peer ∧
      (h.probe.acked = true → (h.obey w c).1.probe.acked = true) := by
  rcases probe_obey_cases w h hc with hsame | ⟨q, -, -, hsame⟩
  · rw [hsame]
    exact ⟨rfl, rfl, id⟩
  · rw [hsame]
    exact ⟨rfl, rfl, fun _ => rfl⟩

/-- The peer that is probed answers. -/
theorem rests_of_answer (hprobes : h.Probes p k) (w : Moment) (name : String) :
    (h.step (.told w (.packet p (.status (.route name))))).Rests p ∧
      (h.step (.told w (.packet p (.status (.route name))))).probe.peer = some p := by
  have hsame := h.onPacket_routeStatus w p name
  rw [if_pos hprobes.peer] at hsame
  have hprobe : (h.step (.told w (.packet p (.status (.route name))))).probe =
      { h.probe with acked := true, retries := 0 } := hsame.probe
  refine ⟨⟨?_, fun _ => ?_⟩, ?_⟩
  · rw [hprobe]
    exact hprobes.tried
  · rw [hprobe]
  · rw [hprobe]
    exact hprobes.peer

/-- What happens between two ticks does not disturb a peer that rests. -/
theorem Rests.step (hrests : h.Rests p) {e : Event} (htick : e.ticks = false) :
    (h.step e).Rests p := by
  cases e with
  | worked crew => exact ⟨hrests.tried, hrests.acked⟩
  | told w c =>
    have hc : c ≠ .routeTick := by
      rintro rfl
      exact nomatch htick
    obtain ⟨htried, hpeer, hacked⟩ := tried_obey w h hc
    refine ⟨?_, fun hp => ?_⟩
    · show p ∈ (h.obey w c).1.probe.tried
      rw [htried]
      exact hrests.tried
    · exact hacked (hrests.acked (hpeer ▸ hp))

@[simp] theorem targets_routeRumor (h : Hub) (p : PeerAddress) :
    targets [h.routeRumor p] = [p] := rfl

/-- A new probe is one of a peer that is yet to be probed, so not of one that rests. -/
theorem Rests.begins (hrests : h.Rests p) {result : Hub × List Effect}
    (hbegins : h.Begins result) (hfresh : ∃ q ∈ result.1.peers, q ∉ h.probe.tried) :
    result.1.Rests p ∧ p ∉ targets result.2 ∧ result.1.peers = h.peers := by
  cases hbegins with
  | goesOn q hknown hnew =>
    have hother : p ≠ q := by
      rintro rfl
      exact hnew hrests.tried
    refine ⟨⟨List.mem_cons_of_mem q hrests.tried, fun hp => ?_⟩, by simpa using hother, rfl⟩
    exact absurd (Option.some.inj hp).symm hother
  | startsOver q hknown hall =>
    obtain ⟨x, hx, hnew⟩ := hfresh
    exact absurd (hall x hx) hnew
  | alone hnobody =>
    obtain ⟨x, hx, -⟩ := hfresh
    exact absurd hx (hnobody x)

/-- As long as the round lasts, a tick leaves a peer that rests alone. -/
theorem Rests.tick (hrests : h.Rests p)
    (hlasts : (∀ q, ¬ h.Reprobes q) → ∃ q ∈ (h.routeTick w).1.peers, q ∉ h.probe.tried) :
    (h.routeTick w).1.Rests p ∧ p ∉ targets (h.routeTick w).2 ∧
      (p ∈ h.peers → p ∈ (h.routeTick w).1.peers) := by
  have hticks := h.ticks_routeTick w
  generalize h.routeTick w = result at hlasts hticks ⊢
  cases hticks with
  | again q hagain =>
    have hother : p ≠ q := by
      rintro rfl
      exact absurd (hrests.acked hagain.1) (by simp [hagain.2.1])
    exact ⟨⟨hrests.tried, hrests.acked⟩, by simpa using hother, id⟩
  | next _ hdone hbegins =>
    have hnone : ∀ q, ¬ h.Reprobes q := by
      intro q hagain
      exact absurd (hdone q hagain.1) (by simp [hagain.2.1])
    obtain ⟨hlast, htargets, hpeers⟩ := hrests.begins hbegins (hlasts hnone)
    exact ⟨hlast, htargets, fun hp => hpeers ▸ hp⟩
  | gaveUp q _ hpeer hacked hmany hbegins =>
    have hnone : ∀ x, ¬ h.Reprobes x := fun x hagain => hmany hagain.2.2
    have hother : p ≠ q := by
      rintro rfl
      exact absurd (hrests.acked hpeer) (by simp [hacked])
    -- that another peer is taken out changes nothing about the round
    have hstill : (h.withPeers (h.peers.remove q)).Rests p := ⟨hrests.tried, hrests.acked⟩
    obtain ⟨hlast, htargets, hpeers⟩ := hstill.begins hbegins (hlasts hnone)
    refine ⟨hlast, htargets, fun hp => ?_⟩
    rw [hpeers]
    exact PeerSet.mem_remove.2 ⟨hp, hother⟩

/-- As long as the timer does not tick, a peer that has answered stays the one that was probed. -/
theorem Rests.run_of_no_ticks (hrests : h.Rests p) (hpeer : h.probe.peer = some p)
    (hnone : ticks es = 0) : (h.run es).Rests p ∧ (h.run es).probe.peer = some p := by
  induction es generalizing h with
  | nil => exact ⟨hrests, hpeer⟩
  | cons e es ih =>
    have hall : ∀ x ∈ e :: es, x.ticks = false := fun x hx =>
      Bool.eq_false_iff.2 (List.countP_eq_zero.1 hnone x hx)
    have he : e.ticks = false := hall e List.mem_cons_self
    have hrest : ticks es = 0 := by
      refine List.countP_eq_zero.2 fun x hx => ?_
      exact Bool.eq_false_iff.1 (hall x (List.mem_cons_of_mem e hx))
    have hsame : (h.step e).probe.peer = h.probe.peer := by
      cases e with
      | worked crew => rfl
      | told w c =>
        refine (tried_obey w h ?_).2.1
        rintro rfl
        exact nomatch he
    exact ih (hrests.step he) (hsame.trans hpeer) hrest

/-- The tick after an answer takes nobody out and begins to probe a known peer, another one if some
are yet to be probed. -/
theorem Rests.tick_next (hrests : h.Rests p) (hpeer : h.probe.peer = some p) :
    (h.routeTick w).1.peers = h.peers ∧
      ∀ x ∈ h.peers, ∃ q ∈ h.peers, (h.routeTick w).2 = [h.routeRumor q] ∧
        (h.routeTick w).1.Probes q 0 ∧ (x ∉ h.probe.tried → q ≠ p) := by
  have htick : h.routeTick w = h.probeNext w := by
    simp [routeTick, hpeer, hrests.acked hpeer]
  rw [htick]
  have hbegins := h.begins_probeNext w
  generalize h.probeNext w = result at hbegins
  cases hbegins with
  | goesOn q hknown hnew =>
    refine ⟨rfl, ?_⟩
    intro x _
    refine ⟨q, hknown, rfl, ⟨rfl, rfl, rfl, List.mem_cons_self⟩, ?_⟩
    rintro - rfl
    exact hnew hrests.tried
  | startsOver q hknown hall =>
    -- a new round begins only if nobody is yet to be probed
    refine ⟨rfl, ?_⟩
    intro x hx
    refine ⟨q, hknown, rfl, ⟨rfl, rfl, rfl, List.mem_cons_self⟩, ?_⟩
    intro hnew
    exact absurd (hall x hx) hnew
  | alone hnobody => exact ⟨rfl, fun x hx => absurd hx (hnobody x)⟩

/-- **A peer that has answered is left alone for the rest of the round.** -/
theorem Rests.run (hrests : h.Rests p) (hlasts : h.RoundLasts es) : (h.run es).Rests p := by
  induction es generalizing h with
  | nil => exact hrests
  | cons e es ih =>
    have hrest : (h.step e).RoundLasts es := fun before w after hes =>
      hlasts (e :: before) w after (by rw [hes]; rfl)
    refine ih ?_ hrest
    cases he : e.ticks with
    | false => exact hrests.step he
    | true =>
      obtain ⟨w, rfl⟩ := eq_routeTick_of_ticks he
      exact (hrests.tick (hlasts [] w es rfl)).1

/-- The route timer begins to probe a peer. -/
def Starts (w : Moment) (h : Hub) (p : PeerAddress) : Prop :=
  (∀ q, ¬ h.Reprobes q) ∧ (h.routeTick w).1.probe.peer = some p

theorem Starts.probes (hstarts : h.Starts w p) :
    (h.routeTick w).1.Probes p 0 ∧ (h.routeTick w).2 = [h.routeRumor p] := by
  obtain ⟨hnone, hpeer⟩ := hstarts
  have hticks := h.ticks_routeTick w
  generalize h.routeTick w = result at hpeer hticks ⊢
  cases hticks with
  | again q hagain => exact absurd hagain (hnone q)
  | next _ _ hbegins => exact probes_of_begins hbegins hpeer
  | gaveUp q _ _ _ _ hbegins =>
    exact probes_of_begins (h := h.withPeers (h.peers.remove q)) hbegins hpeer

/-- **Silent peers are given up, and those that answer are spared.**  The route timer has begun to
probe a peer.  As long as the peer is silent, each tick sends it another route rumor and nothing
else, until there were as many as the settings say, and one at least; the tick after that takes the
peer out of the known ones and does not address it.  If the peer answers before, the next tick takes
nobody out and begins to probe a known peer if there is one, and another one than this if some are
yet to be probed.  As long as the round lasts, no tick addresses this peer or takes it out. -/
theorem probes_silent_and_spares (hstarts : h.Starts w p) :
    (∀ es, Silent p es → ticks es < h.patience →
      (h.routeTick w).2 ++ (h.routeTick w).1.probings es =
        List.replicate (ticks es + 1) (h.routeRumor p)) ∧
    (∀ es w', Silent p es →
      let n := (h.routeTick w).1.run es
      (ticks es + 1 < h.patience →
        (n.routeTick w').2 = [h.routeRumor p] ∧ (n.routeTick w').1.peers = n.peers) ∧
      (ticks es + 1 = h.patience →
        (n.routeTick w').1.peers = n.peers.remove p ∧ p ∉ targets (n.routeTick w').2)) ∧
    ∀ es w' name later w'', Silent p es → ticks es < h.patience →
      let answered := ((h.routeTick w).1.run es).step (.told w' (.packet p (.status (.route name))))
      let n := answered.run later
      (ticks later = 0 → (n.routeTick w'').1.peers = n.peers ∧
        ∀ x ∈ n.peers, ∃ q ∈ n.peers, (n.routeTick w'').2 = [h.routeRumor q] ∧
          (n.routeTick w'').1.Probes q 0 ∧ (x ∉ n.probe.tried → q ≠ p)) ∧
      (answered.RoundLasts (later ++ [.told w'' .routeTick]) →
        p ∉ targets (n.routeTick w'').2 ∧ (p ∈ n.peers → p ∈ (n.routeTick w'').1.peers)) := by
  obtain ⟨hprobes, hfirst⟩ := hstarts.probes
  have hpatience : (h.routeTick w).1.patience = h.patience := h.patience_step (.told w .routeTick)
  have hname : (h.routeTick w).1.name = h.name := h.name_step (.told w .routeTick)
  have hrumor : ∀ {n : Hub}, n.name = h.name → ∀ q, n.routeRumor q = h.routeRumor q := by
    intro n hn q
    unfold routeRumor
    rw [hn]
  refine ⟨fun es hsilent hfew => ?_, fun es w' hsilent => ?_, ?_⟩
  · obtain ⟨-, hsent⟩ := hprobes.run hsilent (by omega)
    rw [hfirst, hsent, hrumor hname, List.replicate_succ]
    rfl
  · have hsame : ((h.routeTick w).1.run es).patience = h.patience := by
      unfold patience at hpatience ⊢
      rwa [settings_run]
    have hn : ((h.routeTick w).1.run es).name = h.name := (name_run _ es).trans hname
    constructor
    · intro hmore
      obtain ⟨hlast, -⟩ := hprobes.run hsilent (by omega)
      obtain ⟨hone, -, hpeers⟩ := hlast.tick_again (w := w') (by omega)
      exact ⟨hone.trans (by rw [hrumor hn]), hpeers⟩
    · intro hend
      obtain ⟨hlast, -⟩ := hprobes.run hsilent (by omega)
      exact hlast.tick_last (by omega)
  · intro es w' name later w'' hsilent hfew answered n
    obtain ⟨hlast, -⟩ := hprobes.run hsilent (by omega)
    obtain ⟨hrests, hpeer⟩ := rests_of_answer hlast w' name
    have hn : n.name = h.name := by
      rw [name_run, name_step, name_run, hname]
    constructor
    · intro hnone
      obtain ⟨hstill, hprobed⟩ := hrests.run_of_no_ticks hpeer hnone
      obtain ⟨hpeers, hnext⟩ := hstill.tick_next (w := w'') hprobed
      refine ⟨hpeers, fun x hx => ?_⟩
      obtain ⟨q, hknown, hone, hbegun, hother⟩ := hnext x hx
      exact ⟨q, hknown, hone.trans (by rw [hrumor hn]), hbegun, hother⟩
    · intro hlasts
      have hbefore : answered.RoundLasts later := fun before w after hes =>
        hlasts before w (after ++ [.told w'' .routeTick]) (by rw [hes]; simp)
      exact ((hrests.run hbefore).tick (hlasts later w'' [] rfl)).2

/-- A hub that gives up after two route rumors knows two peers, the first of which is silent. -/
theorem probes_two_of_silent :
    let p : PeerAddress := .v4 ⟨127, 0, 0, 1⟩ 5001
    let h : Hub := .new "a" (.v4 ⟨127, 0, 0, 1⟩ 5000) { maxRetries := 2 }
      (.ofList [p, .v4 ⟨127, 0, 0, 1⟩ 5002])
    let w : Moment := ⟨0, .first, true, true⟩
    h.Starts w p ∧
      (h.routeTick w).2 ++ (h.routeTick w).1.probings [.told w .routeTick] =
        [h.routeRumor p, h.routeRumor p] ∧
      p ∉ (((h.routeTick w).1.run [.told w .routeTick]).routeTick w).1.peers := by
  intro p h w
  have hstarts : h.Starts w p := ⟨fun q hagain => (nomatch hagain.1), by decide +kernel⟩
  obtain ⟨hsent, hticks, -⟩ := probes_silent_and_spares hstarts
  have hsilent : Silent p [.told w .routeTick] := by
    intro e he
    rw [List.mem_singleton.1 he]
    rfl
  have hgone := ((hticks [.told w .routeTick] w hsilent).2 (by decide +kernel)).1
  refine ⟨hstarts, hsent [.told w .routeTick] hsilent (by decide +kernel), ?_⟩
  rw [hgone]
  exact fun hp => (PeerSet.mem_remove.1 hp).2 rfl

end Hub
end GossipLedger
