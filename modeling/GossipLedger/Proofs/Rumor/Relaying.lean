import GossipLedger.Proofs.Rumor.Ways

/-!
# How route rumors are passed on

A route rumor has number zero and no text.  A hub answers each one with its name.  It passes one on
by starting a monger with it, but not its own, and not if it has passed on one of the same origin
within the last route period.  So the route rumors of two neighbours do not go back and forth
without end, whoever else sends them and whatever else the hub does meanwhile.

A rumor with number zero and a text is no route rumor.  No peer's rumor with number zero is stored,
so it is not spread either.  A client's rumor without text has number zero once the numbers have
come again; it is spread like any other, and not passed on.

## Main definitions

* `Hub.times` — the times at which a hub is told something.
* `Hub.launched` — the rumors that mongers are started with at an event.
* `Hub.relayed` — the route rumors that are passed on in a run, with the times.

## Main results

* `Hub.relays_step_cases` — **what an event does to the route rumors that are passed on.**
* `Hub.spaced_relayed` — after a route rumor was passed on, none of its origin is for a period.
* `Hub.acknowledged_and_relayed_rarely` — **route rumors are answered always and passed on rarely.**
-/

namespace GossipLedger
namespace Hub

/-- The time of an event, if the hub is told something. -/
def Event.time? : Event → Option Nat
  | .told w _ => some w.now
  | .worked _ => none

/-- The times at which a hub is told something. -/
def times (es : List Event) : List Nat := es.filterMap Event.time?

/-- The rumors that mongers are started with at an event, with the time. -/
def launched (h : Hub) : Event → List (Rumor × Nat)
  | .told w c => ((h.obey w c).1.crew.rumors.drop h.crew.rumors.length).map fun r => (r, w.now)
  | .worked _ => []

/-- The route rumors among them, unless a client has asked for them. -/
def relayedAt (h : Hub) : Event → List (Rumor × Nat)
  | .told _ (.client _) => []
  | e => (h.launched e).filter fun a => a.1.isRoute

/-- The route rumors that are passed on in a run, with the times. -/
def relayed (h : Hub) : List Event → List (Rumor × Nat)
  | [] => []
  | e :: es => h.relayedAt e ++ (h.step e).relayed es

variable {h h' : Hub} {w : Moment} {c : HubCommand} {r : Rumor} {sender : PeerAddress}
  {es : List Event}

/-! ### What a command starts -/

theorem launched_of_same (hsame : (h.obey w c).1.crew.rumors = h.crew.rumors) :
    h.launched (.told w c) = [] := by
  simp [launched, hsame]

theorem launched_of_concat (hnew : (h.obey w c).1.crew.rumors = h.crew.rumors ++ [r]) :
    h.launched (.told w c) = [(r, w.now)] := by
  simp [launched, hnew]

/-- A command that starts no monger passes nothing on. -/
theorem relayedAt_of_same (hsame : (h.obey w c).1.crew.rumors = h.crew.rumors) :
    h.relayedAt (.told w c) = [] := by
  unfold relayedAt
  split
  next => rfl
  next => rw [launched_of_same hsame, List.filter_nil]

/-- **Nothing but a route rumor makes a hub pass on a route rumor.** -/
theorem relayedAt_of_not_waysAbout (w : Moment) (hc : c.waysAbout = false) :
    h.relayedAt (.told w c) = [] := by
  cases hb : c.rumor? with
  | none =>
    cases hoffers : h.offered? c with
    | none => exact relayedAt_of_same (sameRumors_obey w hb hoffers).crew
    | some r =>
      -- only a client asks for a rumor that nobody brings
      rcases offered?_eq_some hoffers with ⟨sender, rfl, -⟩ | ⟨text, rfl, -⟩
      · exact nomatch hb
      · rfl
  | some r =>
    -- a rumor that is taken in is spread if it is stored
    obtain ⟨sender, rfl⟩ := HubCommand.rumor?_eq_some hb
    have hmet := h.sameRumors_meet sender
    have hobey : h.obey w (.packet sender (.rumor r)) =
        (if sender = h.address then h else h.withPeers (h.peers.add sender)).onRumor w sender r :=
      rfl
    generalize (if sender = h.address then h else h.withPeers (h.peers.add sender)) = k
      at hmet hobey
    have hlearned := k.sameRumors_learnRoute r.origin sender
    obtain ⟨k', heq, ⟨-, rfl⟩ | ⟨rumors, -, -, rfl⟩⟩ := k.onRumor_eq w sender hc
    · refine relayedAt_of_same ?_
      rw [hobey, heq]
      exact hlearned.crew.trans hmet.crew
    · have hnew : (h.obey w (.packet sender (.rumor r))).1.crew.rumors = h.crew.rumors ++ [r] := by
        rw [hobey, heq, takeRumor, startMonger_crew_rumors, Crew.rumors_signalAll, hlearned.crew,
          hmet.crew]
      have hr : r.isRoute = false := hc
      simp [relayedAt, launched_of_concat hnew, hr]

/-! ### Route rumors -/

/-- No route rumor of an origin was passed on within the last route period. -/
def Due (h : Hub) (origin : String) (now : Nat) : Prop :=
  ∀ last, h.relays.get? origin = some last → h.settings.routePeriod ≤ now - last

/-- A route rumor of another origin is passed on if it is due. -/
theorem onRouteRumor_of_due (hother : r.origin ≠ h.name) (hdue : h.Due r.origin w.now) :
    h.onRouteRumor w sender r =
      ({ h with relays := h.relays.set r.origin w.now }.startMonger r (some sender),
        [unicast sender (.status (.route h.name))]) := by
  unfold onRouteRumor
  simp only [if_neg hother]
  cases hlast : h.relays.get? r.origin with
  | none => simp
  | some last =>
    have hlate := hdue last hlast
    simp [Nat.not_lt.2 hlate]

/-- Any other is answered and nothing else. -/
theorem onRouteRumor_of_not_due (hnot : r.origin = h.name ∨ ¬ h.Due r.origin w.now) :
    h.onRouteRumor w sender r = (h, [unicast sender (.status (.route h.name))]) := by
  unfold onRouteRumor
  rcases hnot with hown | hearly
  · exact if_pos hown
  · unfold Due at hearly
    push Not at hearly
    obtain ⟨last, hlast, hless⟩ := hearly
    simp [hlast, hless]

/-- A route rumor is answered with the name of the hub, and not stored. -/
theorem onPacket_routeRumor_answer (w : Moment) (h : Hub) (sender : PeerAddress)
    (hr : r.isRoute = true) :
    (h.onPacket w sender (.rumor r)).2 = [unicast sender (.status (.route h.name))] ∧
      (h.onPacket w sender (.rumor r)).1.rumors = h.rumors := by
  obtain ⟨h', hways, hsame, heq⟩ := h.onPacket_routeRumor w sender hr
  rw [heq, ← hways.name, ← hsame.rumors]
  rcases h'.onRouteRumor_cases w sender r with hcase | hcase
  · rw [hcase]
    exact ⟨rfl, rfl⟩
  · rw [hcase]
    exact ⟨rfl, rfl⟩

/-- **What a route rumor starts**: a monger, if it is one of another origin and due. -/
theorem relays_routeRumor_cases (w : Moment) (h : Hub) (sender : PeerAddress)
    (hr : r.isRoute = true) :
    (r.origin ≠ h.name ∧ h.Due r.origin w.now ∧
        h.launched (.told w (.packet sender (.rumor r))) = [(r, w.now)] ∧
        (h.obey w (.packet sender (.rumor r))).1.relays = h.relays.set r.origin w.now) ∨
      (r.origin = h.name ∨ ¬ h.Due r.origin w.now) ∧
        h.launched (.told w (.packet sender (.rumor r))) = [] ∧
        (h.obey w (.packet sender (.rumor r))).1.relays = h.relays := by
  obtain ⟨h', hways, hsame, heq⟩ := h.onPacket_routeRumor w sender hr
  have hobey : h.obey w (.packet sender (.rumor r)) = h'.onRouteRumor w sender r := heq
  have hdue : h'.Due r.origin w.now ↔ h.Due r.origin w.now := by
    unfold Due
    rw [hways.relays, hways.settings]
  by_cases hboth : r.origin ≠ h.name ∧ h.Due r.origin w.now
  · obtain ⟨hother, hnow⟩ := hboth
    have hrun : h'.onRouteRumor w sender r =
        ({ h' with relays := h'.relays.set r.origin w.now }.startMonger r (some sender),
          [unicast sender (.status (.route h'.name))]) :=
      onRouteRumor_of_due (hways.name ▸ hother) (hdue.2 hnow)
    refine Or.inl ⟨hother, hnow, launched_of_concat ?_, ?_⟩
    · rw [hobey, hrun, startMonger_crew_rumors]
      exact congrArg (· ++ [r]) hsame.crew
    · rw [hobey, hrun]
      exact congrArg (fun relays => relays.set r.origin w.now) hways.relays
  · have hnot : r.origin = h.name ∨ ¬ h.Due r.origin w.now := by
      rw [not_and_or, not_not] at hboth
      exact hboth
    have hrun : h'.onRouteRumor w sender r = (h', [unicast sender (.status (.route h'.name))]) := by
      apply onRouteRumor_of_not_due
      rwa [hways.name, hdue]
    refine Or.inr ⟨hnot, launched_of_same ?_, ?_⟩
    · rw [hobey, hrun]
      exact hsame.crew
    · rw [hobey, hrun]
      exact hways.relays

theorem relays_probeNext (w : Moment) (h : Hub) : (h.probeNext w).1.relays = h.relays := by
  unfold probeNext
  split
  next => rfl
  next => rfl

theorem relays_routeTick (w : Moment) (h : Hub) : (h.routeTick w).1.relays = h.relays := by
  unfold routeTick
  split
  next p _ =>
    split
    next => exact h.relays_probeNext w
    next =>
      dsimp only
      split
      next => rfl
      next => exact relays_probeNext w (h.withPeers (h.peers.remove p))
  next => exact h.relays_probeNext w

/-- **What an event does to the route rumors that are passed on**: it brings a route rumor that is
passed on, or has no part in them. -/
theorem relays_step_cases (h : Hub) (e : Event) :
    (h.relayedAt e = [] ∧ (h.step e).relays = h.relays) ∨
      ∃ w sender r, e = .told w (.packet sender (.rumor r)) ∧ r.isRoute = true ∧
        r.origin ≠ h.name ∧ h.Due r.origin w.now ∧ h.relayedAt e = [(r, w.now)] ∧
        (h.step e).relays = h.relays.set r.origin w.now := by
  cases e with
  | worked crew => exact Or.inl ⟨rfl, rfl⟩
  | told w c =>
    cases hways : c.waysAbout with
    | false => exact Or.inl ⟨relayedAt_of_not_waysAbout w hways, (sameWays_obey w h hways).relays⟩
    | true =>
      have hsame : c.rumor? = none → h.offered? c = none → h.relayedAt (.told w c) = [] :=
        fun hb hoffers => relayedAt_of_same (sameRumors_obey w hb hoffers).crew
      rcases HubCommand.waysAbout_cases hways with ⟨sender, r, rfl, hr⟩ | ⟨sender, name, rfl⟩ | rfl
      · rcases h.relays_routeRumor_cases w sender hr with
          ⟨hother, hdue, hnew, hrelays⟩ | ⟨-, hnone, hrelays⟩
        · refine Or.inr ⟨w, sender, r, rfl, hr, hother, hdue, ?_, hrelays⟩
          simp [relayedAt, hnew, hr]
        · refine Or.inl ⟨?_, hrelays⟩
          simp [relayedAt, hnone]
      · -- an answer has a part in the probe only
        have hkept := (h.onPacket_routeStatus w sender name).relays
        refine Or.inl ⟨hsame rfl rfl, hkept.trans ?_⟩
        split <;> rfl
      · exact Or.inl ⟨hsame rfl rfl, h.relays_routeTick w⟩

/-! ### A run -/

/-- The later times are the later ones. -/
theorem times_subset_cons (e : Event) (es : List Event) : ∀ t ∈ times es, t ∈ times (e :: es) := by
  intro t ht
  cases e with
  | told w c => exact List.mem_cons_of_mem w.now ht
  | worked crew => exact ht

theorem pairwise_times_of_cons {e : Event} (hmono : (times (e :: es)).Pairwise (· ≤ ·)) :
    (times es).Pairwise (· ≤ ·) := by
  cases e with
  | told w c => exact (List.pairwise_cons.1 hmono).2
  | worked crew => exact hmono

/-- **After a route rumor was passed on, none of its origin is for a period.** -/
theorem spaced_relayed {origin : String} {last : Nat} (hlast : h.relays.get? origin = some last)
    (hpast : ∀ t ∈ times es, last ≤ t) (hmono : (times es).Pairwise (· ≤ ·)) :
    ∀ a ∈ h.relayed es, a.1.origin = origin → last + h.settings.routePeriod ≤ a.2 := by
  -- on the events, with the time that is kept of the origin
  induction es generalizing h last with
  | nil => exact fun a ha => nomatch ha
  | cons e es ih =>
    intro a ha horigin
    have hrest := pairwise_times_of_cons hmono
    have hlater : ∀ t ∈ times es, last ≤ t := fun t ht => hpast t (times_subset_cons e es t ht)
    rcases h.relays_step_cases e with ⟨hnone, hrelays⟩ | ⟨w, sender, r, rfl, -, -, hdue, hone, hset⟩
    · rw [relayed, hnone, List.nil_append] at ha
      rw [← hrelays] at hlast
      rw [← h.settings_step e]
      exact ih hlast hlater hrest a ha horigin
    · rw [relayed, hone, List.singleton_append, List.mem_cons] at ha
      by_cases hsame : r.origin = origin
      · -- one of this origin is passed on now, which is a period later
        have hnow : last ≤ w.now := hpast w.now List.mem_cons_self
        have hgap : h.settings.routePeriod ≤ w.now - last := hdue last (hsame ▸ hlast)
        rcases ha with rfl | ha
        · show last + h.settings.routePeriod ≤ w.now
          omega
        · have hnew : (h.step (.told w (.packet sender (.rumor r)))).relays.get? origin =
              some w.now := by
            rw [hset, NameMap.get?_set, if_pos hsame]
          have hgap' := ih hnew (List.pairwise_cons.1 hmono).1 hrest a ha horigin
          rw [settings_step] at hgap'
          omega
      · -- one of another origin leaves the time of this one alone
        rcases ha with rfl | ha
        · exact absurd horigin hsame
        · have hkept : (h.step (.told w (.packet sender (.rumor r)))).relays.get? origin =
              some last := by
            rw [hset, NameMap.get?_set, if_neg hsame, hlast]
          rw [← h.settings_step (.told w (.packet sender (.rumor r)))]
          exact ih hkept hlater hrest a ha horigin

/-- Any two route rumors of one origin are passed on a period apart. -/
theorem pairwise_relayed (hmono : (times es).Pairwise (· ≤ ·)) :
    (h.relayed es).Pairwise fun a b =>
      a.1.origin = b.1.origin → a.2 + h.settings.routePeriod ≤ b.2 := by
  induction es generalizing h with
  | nil => exact .nil
  | cons e es ih =>
    have hrest := ih (h := h.step e) (pairwise_times_of_cons hmono)
    rw [settings_step] at hrest
    rcases h.relays_step_cases e with ⟨hnone, -⟩ | ⟨w, sender, r, rfl, -, -, -, hone, hset⟩
    · rwa [relayed, hnone, List.nil_append]
    · rw [relayed, hone, List.singleton_append, List.pairwise_cons]
      refine ⟨fun a ha horigin => ?_, hrest⟩
      have hnew : (h.step (.told w (.packet sender (.rumor r)))).relays.get? r.origin =
          some w.now := by
        rw [hset, NameMap.get?_set, if_pos rfl]
      obtain ⟨hpast, hlater⟩ := List.pairwise_cons.1 hmono
      have hgap := spaced_relayed hnew hpast hlater a ha horigin.symm
      rwa [settings_step] at hgap

/-- A hub does not pass on its own route rumors. -/
theorem origin_ne_of_mem_relayed (es : List Event) : ∀ a ∈ h.relayed es, a.1.origin ≠ h.name := by
  induction es generalizing h with
  | nil => exact fun a ha => nomatch ha
  | cons e es ih =>
    intro a ha
    have hrest := ih (h := h.step e) a
    rw [name_step] at hrest
    rcases h.relays_step_cases e with ⟨hnone, -⟩ | ⟨w, sender, r, -, -, hother, -, hone, -⟩
    · rw [relayed, hnone, List.nil_append] at ha
      exact hrest ha
    · rw [relayed, hone, List.singleton_append, List.mem_cons] at ha
      rcases ha with rfl | ha
      · exact hother
      · exact hrest ha

/-- What is kept of an origin is when a route rumor of it was passed on. -/
theorem mem_relayed_of_relays {origin : String} {last : Nat}
    (hlast : (h.run es).relays.get? origin = some last) :
    h.relays.get? origin = some last ∨ ∃ a ∈ h.relayed es, a.1.origin = origin ∧ a.2 = last := by
  induction es generalizing h with
  | nil => exact Or.inl hlast
  | cons e es ih =>
    rcases ih (h := h.step e) hlast with hbefore | ⟨a, ha, hsame⟩
    · rcases h.relays_step_cases e with ⟨-, hrelays⟩ | ⟨w, sender, r, -, -, -, -, hone, hset⟩
      · exact Or.inl (hrelays ▸ hbefore)
      · rw [hset, NameMap.get?_set] at hbefore
        split at hbefore
        next horigin =>
          refine Or.inr ⟨(r, w.now), ?_, horigin, Option.some.inj hbefore⟩
          rw [relayed, hone]
          exact List.mem_cons_self
        next => exact Or.inl hbefore
    · exact Or.inr ⟨a, List.mem_append_right _ ha, hsame⟩

/-- **Route rumors are answered always and passed on rarely.**  A hub does whatever it is told, at
times that do not go back, and its mongers do whatever they do.  Then each route rumor is answered
with the name of the hub, once and to its sender, and leaves the stored rumors alone.  One of the
hub's own starts no monger; another one does if none of its origin was passed on within the last
route period.  Any two of one origin are passed on a period apart, and none of the hub's own is. -/
theorem acknowledged_and_relayed_rarely (h : Hub) {es : List Event}
    (hmono : (times es).Pairwise (· ≤ ·)) :
    (∀ w sender r, r.isRoute = true →
      let n := h.run es
      let c : HubCommand := .packet sender (.rumor r)
      (n.obey w c).2 = [unicast sender (.status (.route h.name))] ∧
        (n.obey w c).1.rumors = n.rumors ∧
        (r.origin = h.name → n.launched (.told w c) = []) ∧
        (r.origin ≠ h.name → h.relays.get? r.origin = none →
          (∀ a ∈ h.relayed es, a.1.origin = r.origin → a.2 + h.settings.routePeriod ≤ w.now) →
          n.launched (.told w c) = [(r, w.now)])) ∧
    ((h.relayed es).Pairwise fun a b =>
      a.1.origin = b.1.origin → a.2 + h.settings.routePeriod ≤ b.2) ∧
    ∀ a ∈ h.relayed es, a.1.origin ≠ h.name := by
  refine ⟨fun w sender r hr => ?_, pairwise_relayed hmono, origin_ne_of_mem_relayed es⟩
  intro n c
  have hname : n.name = h.name := h.name_run es
  obtain ⟨hanswer, hstored⟩ := n.onPacket_routeRumor_answer w sender hr
  refine ⟨?_, hstored, fun hown => ?_, fun hother hfresh hlate => ?_⟩
  · rw [← hname]
    exact hanswer
  · rcases n.relays_routeRumor_cases w sender hr with ⟨hother, -⟩ | ⟨-, hnone, -⟩
    · exact absurd (hown.trans hname.symm) hother
    · exact hnone
  · have hdue : n.Due r.origin w.now := by
      intro last hlast
      rcases mem_relayed_of_relays hlast with hbefore | ⟨a, ha, horigin, rfl⟩
      · rw [hfresh] at hbefore
        exact nomatch hbefore
      · have hgap := hlate a ha horigin
        have hperiod : n.settings.routePeriod = h.settings.routePeriod := by
          rw [h.settings_run es]
        omega
    rcases n.relays_routeRumor_cases w sender hr with ⟨-, -, hone, -⟩ | ⟨hnot, -⟩
    · exact hone
    · exact absurd (hnot.resolve_left fun hown => hother (hown.trans hname)) (not_not.2 hdue)

/-- A hub with a route period of ten hears of the same origin at the times zero, five and ten, and
passes on the first and the last. -/
theorem relayed_twice :
    let p : PeerAddress := .v4 ⟨127, 0, 0, 1⟩ 5001
    let h : Hub := .new "a" (.v4 ⟨127, 0, 0, 1⟩ 5000) { routePeriod := 10 } (.ofList [p])
    let hears (now : Nat) : Event :=
      .told ⟨now, .first, true, true⟩ (.packet p (.rumor (.route "b")))
    let es := [hears 0, hears 5, hears 10]
    (times es).Pairwise (· ≤ ·) ∧ h.relayed es = [(.route "b", 0), (.route "b", 10)] ∧
      ((h.relayed es).Pairwise fun a b => a.1.origin = b.1.origin → a.2 + 10 ≤ b.2) := by
  intro p h hears es
  have hmono : (times es).Pairwise (· ≤ ·) := by decide +kernel
  obtain ⟨-, hspaced, -⟩ := acknowledged_and_relayed_rarely h hmono
  exact ⟨hmono, by decide +kernel, hspaced⟩

end Hub
end GossipLedger
