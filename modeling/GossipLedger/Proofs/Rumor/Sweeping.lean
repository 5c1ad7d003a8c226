import GossipLedger.Proofs.Rumor.Probing
import Mathlib.Data.List.Count

/-!
# How statuses go round among the peers

With each tick of the timer for sweeps a hub sends its status to one peer, any one that got none
in the current sweep.  When every known peer got one the sweep is over.  The hub notices this only
with the next tick, which finds nobody left and begins another sweep at once.  So a list of peers
that names everybody and an empty one mean the same: nobody had a turn in the sweep that is on.

Between two ticks the hub does other things.  As long as nobody becomes known or is forgotten and
no rumor is stored, none of them has a part in the sweeps.

## Main definitions

* `Hub.sweepings` — what the timer for sweeps sends.
* `Hub.Calm` — nobody becomes known or is forgotten and no rumor is stored.
* `Hub.turned` — the peers that had their turn in the sweep that is on.
* `Hub.Rounds` — what is sent between two states, in whole sweeps.

## Main results

* `Hub.antiEntropy_cases` — a tick sends the status to a peer that had no turn.
* `Hub.Calm.rounds` — **in a calm run each peer has its turn once in each sweep.**
* `Hub.sweeps_evenly` — **each group of as many ticks as there are peers sends one status to each
  of them**, so any two peers get as many, or one gets one more.
-/

namespace GossipLedger
namespace Hub

/-- The timer for sweeps ticks. -/
def Event.sweeps : Event → Bool
  | .told _ .antiEntropy => true
  | _ => false

/-- How often the timer for sweeps ticks. -/
def sweepTicks (es : List Event) : Nat := es.countP Event.sweeps

/-- What the timer for sweeps sends. -/
def sweeping (h : Hub) : Event → List Effect
  | .told w .antiEntropy => (h.antiEntropy w).2
  | _ => []

/-- All that the timer for sweeps sends. -/
def sweepings (h : Hub) : List Event → List Effect
  | [] => []
  | e :: es => h.sweeping e ++ (h.step e).sweepings es

/-- Nobody becomes known or is forgotten, and no rumor is stored. -/
def Calm (h : Hub) : List Event → Prop
  | [] => True
  | e :: es => (∀ p, p ∈ (h.step e).peers ↔ p ∈ h.peers) ∧ (h.step e).rumors = h.rumors ∧
      (h.step e).Calm es

/-- The peers that had their turn in the sweep that is on.  Where everybody had one, it is over. -/
def turned (h : Hub) : List PeerAddress :=
  if ∀ p ∈ h.peers.toList, p ∈ h.swept then [] else h.swept

/-- The peers that had their turn are known and are listed once. -/
structure InTurn (h : Hub) : Prop where
  nodup : h.turned.Nodup
  known : ∀ p ∈ h.turned, p ∈ h.peers

/-- What is sent between two states makes up whole sweeps, but for the turns that were had before
and those that are had afterwards. -/
structure Rounds (h : Hub) (sent : List PeerAddress) (rounds : Nat) (h' : Hub) : Prop where
  count : ∀ p ∈ h.peers, sent.count p + h.turned.count p = rounds + h'.turned.count p
  length : sent.length + h.turned.length = rounds * h.peers.size + h'.turned.length

variable {h h' h'' : Hub} {p q : PeerAddress} {w : Moment} {es : List Event} {e : Event}

/-! ### One tick -/

/-- **A tick sends the status to a peer that had no turn**, unless there are no peers. -/
theorem antiEntropy_cases (w : Moment) (h : Hub) :
    (∃ q ∈ h.peers, q ∉ h.turned ∧
      h.antiEntropy w = ({ h with swept := q :: h.turned }, [unicast q h.status])) ∨
    (∀ x, x ∉ h.peers) ∧ h.antiEntropy w = ({ h with swept := [] }, []) := by
  unfold antiEntropy
  rcases pickInTurn_cases h.peers w.picker h.swept with
    ⟨q, hknown, hnew, heq⟩ | ⟨hall, hpick⟩
  · have hturned : h.turned = h.swept := if_neg fun hall => hnew (hall q hknown)
    rw [heq, hturned]
    exact Or.inl ⟨q, hknown, hnew, rfl⟩
  · have hturned : h.turned = [] := if_pos hall
    rw [hturned]
    rcases hpick with ⟨q, hknown, heq⟩ | ⟨hnobody, heq⟩
    · rw [heq]
      exact Or.inl ⟨q, hknown, List.not_mem_nil, rfl⟩
    · rw [heq]
      exact Or.inr ⟨hnobody, rfl⟩

/-! ### Turns -/

/-- The turns depend on who is known and on who got a status. -/
theorem turned_congr (hpeers : ∀ p, p ∈ h'.peers ↔ p ∈ h.peers) (hswept : h'.swept = h.swept) :
    h'.turned = h.turned := by
  have hall : (∀ p ∈ h'.peers.toList, p ∈ h.swept) ↔ ∀ p ∈ h.peers.toList, p ∈ h.swept :=
    forall_congr' fun p => imp_congr_left (hpeers p)
  unfold turned
  rw [hswept]
  exact if_congr hall rfl rfl

/-- A list of peers that names everybody once is as long as there are peers. -/
theorem length_eq_size {peers : PeerSet} {ps : List PeerAddress} (hnodup : ps.Nodup)
    (hmem : ∀ p, p ∈ ps ↔ p ∈ peers) : ps.length = peers.size :=
  ((List.perm_ext_iff_of_nodup hnodup peers.nodup).2 hmem).length_eq

/-- As long as a sweep is on, somebody is to have a turn. -/
theorem InTurn.length_lt (hturn : h.InTurn) (hp : p ∈ h.peers) :
    h.turned.length < h.peers.size := by
  by_cases hall : ∀ q ∈ h.peers.toList, q ∈ h.swept
  · rw [turned, if_pos hall]
    exact List.length_pos_of_mem hp
  · have hsame : h.turned = h.swept := if_neg hall
    push Not at hall
    obtain ⟨q, hq, hnew⟩ := hall
    have hnodup : (q :: h.turned).Nodup := List.nodup_cons.2 ⟨hsame ▸ hnew, hturn.nodup⟩
    have hsub : q :: h.turned ⊆ h.peers.toList := List.cons_subset.2 ⟨hq, hturn.known⟩
    exact (List.subperm_of_subset hnodup hsub).length_le

/-- A tick gives one peer its turn. -/
theorem InTurn.tick (hturn : h.InTurn) (w : Moment) :
    (h.antiEntropy w).1.InTurn ∧
      ∃ rounds, Rounds h (targets (h.antiEntropy w).2) rounds (h.antiEntropy w).1 := by
  rcases h.antiEntropy_cases w with ⟨q, hknown, hnew, heq⟩ | ⟨hnobody, heq⟩
  · have hnodup : (q :: h.turned).Nodup := List.nodup_cons.2 ⟨hnew, hturn.nodup⟩
    have hsub : ∀ p ∈ q :: h.turned, p ∈ h.peers := List.forall_mem_cons.2 ⟨hknown, hturn.known⟩
    have htargets : targets [unicast q h.status] = [q] := rfl
    rw [heq]
    dsimp only
    rw [htargets]
    by_cases hall : ∀ p ∈ h.peers.toList, p ∈ q :: h.turned
    · -- it was the last one, and the sweep is over
      have hover : ({ h with swept := q :: h.turned } : Hub).turned = [] := if_pos hall
      refine ⟨⟨by rw [hover]; exact .nil, by rw [hover]; exact fun p hp => nomatch hp⟩, 1, ?_, ?_⟩
      · intro p hp
        rw [hover, ← List.count_append]
        exact List.count_eq_one_of_mem hnodup (hall p hp)
      · rw [hover, Nat.one_mul, ← List.length_append]
        exact length_eq_size hnodup fun p => ⟨hsub p, hall p⟩
    · have hon : ({ h with swept := q :: h.turned } : Hub).turned = q :: h.turned := if_neg hall
      refine ⟨⟨by rw [hon]; exact hnodup, by rw [hon]; exact hsub⟩, 0, ?_, ?_⟩
      · intro p _
        rw [hon, Nat.zero_add, ← List.count_append]
        rfl
      · rw [hon, Nat.zero_mul, Nat.zero_add, ← List.length_append]
        rfl
  · have hnone : ∀ k : Hub, k.peers = h.peers → k.turned = [] := fun k hk =>
      if_pos fun p hp => absurd (hk ▸ hp) (hnobody p)
    rw [heq]
    dsimp only
    refine ⟨⟨?_, ?_⟩, 0, fun p hp => absurd hp (hnobody p), ?_⟩
    · rw [hnone { h with swept := [] } rfl]
      exact .nil
    · rw [hnone { h with swept := [] } rfl]
      exact fun p hp => nomatch hp
    · rw [hnone { h with swept := [] } rfl, hnone h rfl, Nat.zero_mul]
      rfl

/-- Nothing is sent and nobody has a turn. -/
theorem Rounds.of_turned_eq (hsame : h'.turned = h.turned) : Rounds h [] 0 h' where
  count p _ := by rw [hsame, List.count_nil]
  length := by rw [hsame, Nat.zero_mul, List.length_nil]

theorem Rounds.trans {sent sent' : List PeerAddress} {rounds rounds' : Nat}
    (hfirst : Rounds h sent rounds h') (hpeers : ∀ p, p ∈ h'.peers ↔ p ∈ h.peers)
    (hlater : Rounds h' sent' rounds' h'') : Rounds h (sent ++ sent') (rounds + rounds') h'' where
  count p hp := by
    have hbefore := hfirst.count p hp
    have hafter := hlater.count p ((hpeers p).2 hp)
    rw [List.count_append]
    omega
  length := by
    have hbefore := hfirst.length
    have hafter := hlater.length
    have hsize : h'.peers.size = h.peers.size := length_eq_size h'.peers.nodup hpeers
    rw [hsize] at hafter
    rw [List.length_append, Nat.add_mul]
    omega

/-! ### Between the ticks -/

theorem learnRoute_swept (h : Hub) (name : String) (hop : PeerAddress) :
    (h.learnRoute name hop).swept = h.swept := by
  unfold learnRoute
  split
  next => rfl
  next => rfl

theorem signal_swept (h : Hub) (id : Option Nat) (s : Signal) :
    (h.signal id s).swept = h.swept := by
  cases id with
  | none => rfl
  | some id => rfl

/-- A store with one more message is another one. -/
theorem ne_of_append? {rumors rumors' : MessageStore Rumor} {r : Rumor}
    (happend : rumors.append? r = some rumors') : rumors' ≠ rumors := by
  rintro rfl
  have hlonger := MessageStore.length_append? happend (Sequenced.origin r)
  rw [if_pos rfl] at hlonger
  omega

theorem onRumor_swept (w : Moment) (h : Hub) (sender : PeerAddress) (r : Rumor)
    (hsame : (h.onRumor w sender r).1.rumors = h.rumors) :
    (h.onRumor w sender r).1.swept = h.swept := by
  have hlearned := h.learnRoute_swept r.origin sender
  cases hroute : r.isRoute with
  | true =>
    unfold onRumor
    simp only [hroute, if_true]
    rcases onRouteRumor_cases w (h.learnRoute r.origin sender) sender r with heq | heq
    · rw [heq]
      exact hlearned
    · rw [heq]
      exact hlearned
  | false =>
    obtain ⟨h', heq, ⟨-, rfl⟩ | ⟨rumors, -, happend, rfl⟩⟩ := h.onRumor_eq w sender hroute
    · rw [heq]
      exact hlearned
    · rw [heq] at hsame
      exact absurd hsame (ne_of_append? happend)

theorem onClient_swept (h : Hub) (request : ClientRequest)
    (hsame : (h.onClient request).1.rumors = h.rumors) :
    (h.onClient request).1.swept = h.swept := by
  cases request with
  | rumor text =>
    have hkept : (h.onRumorRequest text).rumors = h.rumors := hsame
    show (h.onRumorRequest text).swept = h.swept
    unfold onRumorRequest at hkept ⊢
    dsimp only at hkept ⊢
    split
    next => rfl
    next rumors happend =>
      simp only [happend] at hkept
      exact absurd hkept (ne_of_append? happend)
  | secret destination text =>
    show (h.onPrivateRequest destination text).1.swept = h.swept
    unfold onPrivateRequest
    dsimp only
    split
    next => rfl
    next => rfl
  | broadcast text => rfl
  | transaction input output amount => rfl
  | addPeer peer =>
    unfold onClient
    dsimp only
    split
    next => rfl
    next => rfl

theorem onPacket_swept (w : Moment) (h : Hub) (sender : PeerAddress) (packet : Packet)
    (hsame : (h.onPacket w sender packet).1.rumors = h.rumors) :
    (h.onPacket w sender packet).1.swept = h.swept := by
  have hmet : (if sender = h.address then h else h.withPeers (h.peers.add sender)).swept =
      h.swept := by
    split
    next => rfl
    next => rfl
  rw [← (h.sameRumors_meet sender).rumors] at hsame
  rw [← hmet]
  unfold onPacket at hsame ⊢
  dsimp only at hsame ⊢
  generalize (if sender = h.address then h else h.withPeers (h.peers.add sender)) = k at hsame ⊢
  cases packet with
  | simple m => rfl
  | rumor r => exact k.onRumor_swept w sender r hsame
  | status status =>
    cases status with
    | want entries =>
      have hsignalled := k.signal_swept (k.crew.talkingTo? sender false) .sync
      show (k.reconcile w sender _).1.swept = k.swept
      unfold reconcile
      dsimp only
      split
      next => rw [signal_swept, hsignalled]
      next => exact hsignalled
    | route name =>
      show (k.onRouteStatus sender name).swept = k.swept
      unfold onRouteStatus
      dsimp only
      split
      next => exact (signal_swept _ _ _).trans (k.learnRoute_swept name sender)
      next => exact (signal_swept _ _ _).trans (k.learnRoute_swept name sender)
  | secret m =>
    have hlearned := k.learnRoute_swept m.origin sender
    show (k.onPrivate sender m).1.swept = k.swept
    unfold onPrivate
    dsimp only
    split
    next => exact hlearned
    next =>
      split
      next => exact hlearned
      next => exact hlearned
  | transaction m => rfl
  | block m => rfl

theorem routeTick_swept (w : Moment) (h : Hub) : (h.routeTick w).1.swept = h.swept := by
  have hticks := h.ticks_routeTick w
  generalize h.routeTick w = result at hticks ⊢
  cases hticks with
  | again p hagain => rfl
  | next _ _ hbegins => cases hbegins <;> rfl
  | gaveUp p _ _ _ _ hbegins => cases hbegins <;> rfl

/-- **Between two ticks nothing changes for the sweep**, unless a rumor is stored. -/
theorem step_swept (he : e.sweeps = false) (hsame : (h.step e).rumors = h.rumors) :
    (h.step e).swept = h.swept := by
  cases e with
  | worked crew => rfl
  | told w c =>
    cases c with
    | packet sender packet => exact h.onPacket_swept w sender packet hsame
    | client request => exact h.onClient_swept request hsame
    | antiEntropy => exact nomatch he
    | routeTick => exact h.routeTick_swept w

theorem sweeping_of_not_sweeps (he : e.sweeps = false) : h.sweeping e = [] := by
  unfold sweeping
  split
  next => exact nomatch he
  next => rfl

theorem eq_antiEntropy_of_sweeps (he : e.sweeps = true) : ∃ w, e = .told w .antiEntropy := by
  unfold Event.sweeps at he
  split at he
  next w => exact ⟨w, rfl⟩
  next => exact nomatch he

/-! ### Calm runs -/

/-- An event that leaves the list of peers as it is. -/
theorem Calm.cons (hpeers : (h.step e).peers = h.peers) (hrumors : (h.step e).rumors = h.rumors)
    (hrest : (h.step e).Calm es) : h.Calm (e :: es) :=
  ⟨fun p => by rw [hpeers], hrumors, hrest⟩

theorem calm_append {es' : List Event} :
    h.Calm (es ++ es') ↔ h.Calm es ∧ (h.run es).Calm es' := by
  induction es generalizing h with
  | nil => exact (and_iff_right trivial).symm
  | cons e es ih =>
    show _ ∧ _ ∧ (h.step e).Calm (es ++ es') ↔ (_ ∧ _ ∧ (h.step e).Calm es) ∧ _
    rw [ih, and_assoc, and_assoc]
    rfl

/-- In a calm run the peers and the rumors are the same. -/
theorem Calm.same (hcalm : h.Calm es) :
    (∀ p, p ∈ (h.run es).peers ↔ p ∈ h.peers) ∧ (h.run es).rumors = h.rumors := by
  induction es generalizing h with
  | nil => exact ⟨fun p => Iff.rfl, rfl⟩
  | cons e es ih =>
    obtain ⟨hpeers, hrumors, hrest⟩ := hcalm
    obtain ⟨hpeers', hrumors'⟩ := ih hrest
    exact ⟨fun p => (hpeers' p).trans (hpeers p), hrumors'.trans hrumors⟩

theorem status_congr (hrumors : h'.rumors = h.rumors) : h'.status = h.status := by
  unfold status
  rw [hrumors]

theorem targets_append (effects effects' : List Effect) :
    targets (effects ++ effects') = targets effects ++ targets effects' :=
  List.filterMap_append

/-- **In a calm run each peer has its turn once in each sweep.** -/
theorem Calm.rounds (hcalm : h.Calm es) (hturn : h.InTurn) :
    (h.run es).InTurn ∧ ∃ rounds, Rounds h (targets (h.sweepings es)) rounds (h.run es) := by
  -- on the events, each of which is a tick or leaves the turns alone
  induction es generalizing h with
  | nil => exact ⟨hturn, 0, .of_turned_eq rfl⟩
  | cons e es ih =>
    obtain ⟨hpeers, hrumors, hrest⟩ := hcalm
    have hfirst : (h.step e).InTurn ∧
        ∃ rounds, Rounds h (targets (h.sweeping e)) rounds (h.step e) := by
      cases he : e.sweeps with
      | true =>
        obtain ⟨w, rfl⟩ := eq_antiEntropy_of_sweeps he
        exact hturn.tick w
      | false =>
        have hsame := turned_congr hpeers (step_swept he hrumors)
        rw [sweeping_of_not_sweeps he]
        refine ⟨⟨by rw [hsame]; exact hturn.nodup, fun p hp => ?_⟩, 0, .of_turned_eq hsame⟩
        rw [hsame] at hp
        exact (hpeers p).2 (hturn.known p hp)
    obtain ⟨hnext, rounds, hrounds⟩ := hfirst
    obtain ⟨hlast, rounds', hrounds'⟩ := ih hrest hnext
    refine ⟨hlast, rounds + rounds', ?_⟩
    rw [sweepings, targets_append]
    exact hrounds.trans hpeers hrounds'

/-- In a calm run each tick sends the status of the hub to one known peer, if there are any. -/
theorem Calm.sweepings_eq (hcalm : h.Calm es) :
    h.sweepings es = (targets (h.sweepings es)).map (fun p => unicast p h.status) ∧
      (∀ p ∈ targets (h.sweepings es), p ∈ h.peers) ∧
      (∀ p ∈ h.peers, (targets (h.sweepings es)).length = sweepTicks es) := by
  induction es generalizing h with
  | nil => exact ⟨rfl, fun p hp => (nomatch hp), fun p _ => rfl⟩
  | cons e es ih =>
    obtain ⟨hpeers, hrumors, hrest⟩ := hcalm
    obtain ⟨hstatuses, hknown, hlength⟩ := ih hrest
    rw [status_congr hrumors] at hstatuses
    rw [sweepings, targets_append, List.map_append, ← hstatuses]
    cases he : e.sweeps with
    | false =>
      have hcount : sweepTicks (e :: es) = sweepTicks es := List.countP_cons_of_neg (by simp [he])
      rw [sweeping_of_not_sweeps he, hcount]
      exact ⟨rfl, fun p hp => (hpeers p).1 (hknown p hp), fun p hp => hlength p ((hpeers p).2 hp)⟩
    | true =>
      have hcount : sweepTicks (e :: es) = sweepTicks es + 1 := List.countP_cons_of_pos he
      obtain ⟨w, rfl⟩ := eq_antiEntropy_of_sweeps he
      have hsent : h.sweeping (.told w .antiEntropy) = (h.antiEntropy w).2 := rfl
      rw [hsent, hcount]
      rcases h.antiEntropy_cases w with ⟨q, hq, -, heq⟩ | ⟨hnobody, heq⟩
      · rw [heq]
        refine ⟨rfl, fun p hp => ?_, fun p hp => ?_⟩
        · rcases List.mem_cons.1 hp with rfl | hp
          · exact hq
          · exact (hpeers p).1 (hknown p hp)
        · exact congrArg (· + 1) (hlength p ((hpeers p).2 hp))
      · rw [heq]
        exact ⟨rfl, fun p hp => (hpeers p).1 (hknown p hp), fun p hp => absurd hp (hnobody p)⟩

/-- After as many ticks as make up whole sweeps nobody had a turn in the next one. -/
theorem Calm.turned_eq_nil (hcalm : h.Calm es) (hturn : h.InTurn) (hover : h.turned = [])
    (hwhole : h.peers.size ∣ sweepTicks es) : (h.run es).turned = [] := by
  obtain ⟨hlast, rounds, hrounds⟩ := hcalm.rounds hturn
  refine List.eq_nil_iff_forall_not_mem.2 fun p hp => ?_
  have hknown : p ∈ h.peers := (hcalm.same.1 p).1 (hlast.known p hp)
  have hsize : (h.run es).peers.size = h.peers.size :=
    length_eq_size (h.run es).peers.nodup hcalm.same.1
  have hless : (h.run es).turned.length < h.peers.size := hsize ▸ hlast.length_lt (hlast.known p hp)
  have hlength := hrounds.length
  rw [hover, (hcalm.sweepings_eq).2.2 p hknown] at hlength
  -- the turns of a sweep that is on are what is left of the ticks
  have hdvd : h.peers.size ∣ (h.run es).turned.length := by
    refine (Nat.dvd_add_right (Dvd.intro_left rounds rfl)).1 ?_
    rw [← hlength]
    exact hwhole
  exact absurd (Nat.le_of_dvd (List.length_pos_of_mem hp) hdvd) (Nat.not_le.2 hless)

/-- A group of as many ticks as there are peers addresses each of them once. -/
theorem Calm.perm_targets (hcalm : h.Calm es) (hturn : h.InTurn) (hover : h.turned = [])
    (hticks : sweepTicks es = h.peers.size) :
    (targets (h.sweepings es)).Perm h.peers.toList := by
  obtain ⟨-, rounds, hrounds⟩ := hcalm.rounds hturn
  obtain ⟨-, hknown, hone⟩ := hcalm.sweepings_eq
  have hend : (h.run es).turned = [] := hcalm.turned_eq_nil hturn hover (dvd_of_eq hticks.symm)
  refine List.perm_iff_count.2 fun p => ?_
  by_cases hp : p ∈ h.peers
  · have hcount := hrounds.count p hp
    have hlength := hrounds.length
    rw [hover, hend, hone p hp, hticks] at hlength
    rw [hover, hend] at hcount
    have hpos : 0 < h.peers.size := List.length_pos_of_mem hp
    have hrounds_eq : rounds = 1 := by
      have hmul : rounds * h.peers.size = 1 * h.peers.size := by
        rw [Nat.one_mul]
        exact hlength.symm
      exact Nat.eq_of_mul_eq_mul_right hpos hmul
    rw [List.count_eq_one_of_mem h.peers.nodup hp]
    exact hcount.trans hrounds_eq
  · have hnot : p ∉ targets (h.sweepings es) := fun hmem => hp (hknown p hmem)
    rw [List.count_eq_zero_of_not_mem hp, List.count_eq_zero_of_not_mem hnot]

theorem count_statuses (ps : List PeerAddress) (p : PeerAddress) (packet : Packet) :
    (ps.map fun q => unicast q packet).count (unicast p packet) = ps.count p := by
  have hinj : Function.Injective fun q => unicast q packet := by
    intro a b hab
    exact (Outbound.unicast.inj (Effect.send.inj hab)).1
  exact List.count_map_of_injective ps _ hinj p

/-- **Statuses go round evenly.**  A hub knows some peers and has not begun a sweep.  Whatever it is
told and whatever its mongers do, and whichever peers are picked: as long as nobody becomes known or
is forgotten and no rumor is stored, the ticks, counted from the first, fall into groups of as many
as there are peers, and each group sends the status of the hub to each peer once and nothing else.
So at any time any two peers got as many statuses, or one got one more. -/
theorem sweeps_evenly (hfresh : h.swept = []) (hcalm : h.Calm es) :
    (∀ before group after, es = before ++ group ++ after → h.peers.size ∣ sweepTicks before →
      sweepTicks group = h.peers.size →
      ((h.run before).sweepings group).Perm (h.peers.toList.map fun p => unicast p h.status)) ∧
    ∀ p ∈ h.peers, ∀ q ∈ h.peers,
      (h.sweepings es).count (unicast p h.status) ≤
        (h.sweepings es).count (unicast q h.status) + 1 := by
  have hover : h.turned = [] := by
    unfold turned
    rw [hfresh]
    exact ite_self _
  have hturn : h.InTurn := ⟨by rw [hover]; exact .nil, by rw [hover]; exact fun p hp => nomatch hp⟩
  constructor
  · rintro before group after rfl hwhole hticks
    obtain ⟨hbegin, hgroup⟩ := calm_append.1 (calm_append.1 hcalm).1
    obtain ⟨hpeers, hrumors⟩ := hbegin.same
    have hsame : (h.run before).peers.toList.Perm h.peers.toList :=
      (List.perm_ext_iff_of_nodup (h.run before).peers.nodup h.peers.nodup).2 hpeers
    have hperm := hgroup.perm_targets (hbegin.rounds hturn).1
      (hbegin.turned_eq_nil hturn hover hwhole) (hticks.trans hsame.length_eq.symm)
    rw [hgroup.sweepings_eq.1, status_congr hrumors]
    exact (hperm.trans hsame).map _
  · intro p hp q hq
    obtain ⟨hlast, rounds, hrounds⟩ := hcalm.rounds hturn
    have hcountp := hrounds.count p hp
    have hcountq := hrounds.count q hq
    rw [hover, List.count_nil, Nat.add_zero] at hcountp hcountq
    have hone : (h.run es).turned.count p ≤ 1 := List.nodup_iff_count_le_one.1 hlast.nodup p
    rw [hcalm.sweepings_eq.1, count_statuses, count_statuses]
    omega

/-- A hub knows two peers and has its second sweep after one of them has sent its status. -/
theorem sweeps_two_peers :
    let p : PeerAddress := .v4 ⟨127, 0, 0, 1⟩ 5001
    let q : PeerAddress := .v4 ⟨127, 0, 0, 1⟩ 5002
    let h : Hub := .new "a" (.v4 ⟨127, 0, 0, 1⟩ 5000) {} (.ofList [p, q])
    let w : Moment := ⟨0, .first, true, true⟩
    let first : List Event := [.told w .antiEntropy, .told w (.packet p (.status (.want []))),
      .told w .antiEntropy]
    let second : List Event := [.told w .antiEntropy, .told w .antiEntropy]
    h.swept = [] ∧ h.Calm (first ++ second) ∧ h.peers.size ∣ sweepTicks first ∧
      sweepTicks second = h.peers.size ∧
      ((h.run first).sweepings second).Perm [unicast p h.status, unicast q h.status] := by
  intro p q h w first second
  have hcalm : h.Calm (first ++ second) := by
    refine .cons (by decide +kernel) (by decide +kernel) ?_
    refine .cons (by decide +kernel) (by decide +kernel) ?_
    refine .cons (by decide +kernel) (by decide +kernel) ?_
    refine .cons (by decide +kernel) (by decide +kernel) ?_
    exact .cons (by decide +kernel) (by decide +kernel) trivial
  have hwhole : h.peers.size ∣ sweepTicks first := by decide +kernel
  have hticks : sweepTicks second = h.peers.size := by decide +kernel
  have heven := (sweeps_evenly rfl hcalm).1 first second [] (List.append_nil _).symm hwhole hticks
  exact ⟨rfl, hcalm, hwhole, hticks, heven⟩

end Hub
end GossipLedger
