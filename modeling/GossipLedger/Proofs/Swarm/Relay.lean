import GossipLedger.Proofs.Swarm.Letters

/-!
# Private messages that are handed on

Nodes hand private messages on along ways that may be wrong, lead in circles and change at any
time.  What is sent to one peer arrives at most once, at any time and anywhere, or never.

A message has one copy on its way at most, and each node that hands it on takes a hop away and
keeps none that has none left.  So the copies of a message are known: they are the steps of a
way down from the hop limit, as far as the message has come.

## Main definitions

* `Relay` — nodes with the private messages that were sent and those that have not arrived,
  each with the request of a client that it goes back to.
* `Relay.Event`, `Relay.step`, `Relay.Reachable` — what can happen.
* `descent` — the way down from a message.

## Main results

* `Relay.trails_of_reachable` — the copies of a message are the beginning of a way down.
* `Relay.sent_at_most_of_reachable` — **a private message is sent as often as it has hops, or
  once if it has none**, each time with fewer hops.
-/

namespace GossipLedger

/-- A private message that was sent, with the number of the request that it goes back to. -/
structure Letter where
  cause : Option Nat
  message : PrivateMessage
  deriving DecidableEq

/-- What a client has asked a node for. -/
structure LetterRequest (ι : Type) where
  node : ι
  destination : String
  text : String

/-- Nodes that hand private messages on. -/
structure Relay (ι : Type) where
  swarm : Swarm ι
  /-- The private messages that clients have asked for, oldest first. -/
  requests : List (LetterRequest ι)
  /-- Every private message that was ever sent, oldest first. -/
  letters : List Letter
  /-- The private messages that have not arrived. -/
  underway : List Letter

/-- The letters that go back to a request. -/
def backTo (k : Nat) (letters : List Letter) : List Letter :=
  letters.filter fun x => x.cause = some k

theorem backTo_append (k : Nat) (xs ys : List Letter) :
    backTo k (xs ++ ys) = backTo k xs ++ backTo k ys := List.filter_append ..

theorem backTo_map_mk (k : Nat) (cause : Option Nat) (ms : List PrivateMessage) :
    backTo k (ms.map (Letter.mk cause)) =
      if cause = some k then ms.map (Letter.mk cause) else [] := by
  split
  next h =>
    refine List.filter_eq_self.2 fun x hx => ?_
    obtain ⟨m, -, rfl⟩ := List.mem_map.1 hx
    simpa using h
  next h =>
    refine List.filter_eq_nil_iff.2 fun x hx => ?_
    obtain ⟨m, -, rfl⟩ := List.mem_map.1 hx
    simpa using h

theorem backTo_erase (k : Nat) (x : Letter) (xs : List Letter) :
    backTo k (xs.erase x) = (backTo k xs).erase x := List.erase_filter.symm

/-! ### The way down -/

/-- A message with so many hops less. -/
def PrivateMessage.after (m : PrivateMessage) (n : Nat) : PrivateMessage :=
  { m with hopLimit := UInt32.ofNat (m.hopLimit.toNat - n) }

/-- The way down from a message: one hop less each time, as long as hops are left. -/
def descent (m : PrivateMessage) : List PrivateMessage :=
  (List.range (max 1 m.hopLimit.toNat)).map m.after

@[simp] theorem after_zero (m : PrivateMessage) : m.after 0 = m := by
  unfold PrivateMessage.after
  rw [Nat.sub_zero, UInt32.ofNat_toNat]

theorem toNat_hopLimit_after (m : PrivateMessage) (n : Nat) :
    (m.after n).hopLimit.toNat = m.hopLimit.toNat - n := by
  have hlt : m.hopLimit.toNat - n < UInt32.size :=
    Nat.lt_of_le_of_lt (Nat.sub_le _ _) m.hopLimit.toNat_lt
  exact UInt32.toNat_ofNat_of_lt' hlt

/-- One more step down. -/
theorem after_succ {m : PrivateMessage} {n : Nat} (h : 1 < (m.after n).hopLimit) :
    { m.after n with hopLimit := (m.after n).hopLimit - 1 } = m.after (n + 1) := by
  have hle : 1 ≤ (m.after n).hopLimit := UInt32.le_of_lt h
  have hhops : (m.after n).hopLimit - 1 = (m.after (n + 1)).hopLimit := by
    refine UInt32.toNat_inj.1 ?_
    rw [UInt32.toNat_sub_of_le _ _ hle, toNat_hopLimit_after, toNat_hopLimit_after, Nat.sub_add_eq]
    rfl
  rw [hhops]
  rfl

theorem length_descent (m : PrivateMessage) : (descent m).length = max 1 m.hopLimit.toNat := by
  rw [descent, List.length_map, List.length_range]

theorem getElem?_descent {m x : PrivateMessage} {n : Nat} :
    (descent m)[n]? = some x ↔ n < max 1 m.hopLimit.toNat ∧ m.after n = x := by
  rw [List.getElem?_eq_some_iff]
  constructor
  · rintro ⟨hn, rfl⟩
    rw [length_descent] at hn
    exact ⟨hn, by simp [descent]⟩
  · rintro ⟨hn, rfl⟩
    exact ⟨by rwa [length_descent], by simp [descent]⟩

/-- The way down begins with the message. -/
theorem singleton_prefix_descent (m : PrivateMessage) : [m] <+: descent m := by
  rw [List.prefix_iff_getElem?]
  intro n hn
  obtain rfl : n = 0 := by simpa using hn
  exact getElem?_descent.2 ⟨by omega, after_zero m⟩

/-- The hops get fewer on the way down. -/
theorem pairwise_descent (m : PrivateMessage) :
    (descent m).Pairwise fun a b => b.hopLimit < a.hopLimit := by
  refine List.pairwise_map.2 (List.pairwise_lt_range.imp_of_mem ?_)
  intro a b ha hb hab
  rw [List.mem_range] at hb
  rw [UInt32.lt_iff_toNat_lt, toNat_hopLimit_after, toNat_hopLimit_after]
  omega

/-- A message on the way down with hops left is followed by the next step. -/
theorem descent_next {m x : PrivateMessage} {trail : List PrivateMessage}
    (htrail : trail <+: descent m) (hlast : trail.getLast? = some x) (hhops : 1 < x.hopLimit) :
    trail ++ [{ x with hopLimit := x.hopLimit - 1 }] <+: descent m := by
  obtain ⟨before, rfl⟩ := List.getLast?_eq_some_iff.1 hlast
  obtain ⟨rest, hrest⟩ := htrail
  have hx : (descent m)[before.length]? = some x := by
    rw [← hrest, List.append_assoc, List.getElem?_append_right (Nat.le_refl _), Nat.sub_self]
    rfl
  obtain ⟨-, rfl⟩ := getElem?_descent.1 hx
  have hmore : before.length + 1 < max 1 m.hopLimit.toNat := by
    have hleft := UInt32.lt_iff_toNat_lt.1 hhops
    rw [toNat_hopLimit_after] at hleft
    have hone : (1 : UInt32).toNat = 1 := rfl
    omega
  have hnext := getElem?_descent.2 ⟨hmore, rfl⟩
  rw [after_succ hhops]
  cases rest with
  | nil =>
    have hlength := congrArg List.length hrest
    rw [List.append_nil, List.length_append, List.length_singleton, length_descent] at hlength
    omega
  | cons y rest =>
    rw [← hrest, List.getElem?_append_right (by simp)] at hnext
    obtain rfl : y = m.after (before.length + 1) := by simpa using hnext
    exact ⟨rest, by rw [← hrest, List.append_assoc]; rfl⟩

/-! ### What can happen -/

namespace Swarm

variable {ι : Type}

/-- Whether a hub is asked for a private message or gets one. -/
def Event.posts : Event ι → Bool
  | .told _ _ c => c.posts
  | _ => false

/-- The packets that an event sends. -/
def packets (s : Swarm ι) : Event ι → List Packet
  | .told i w c => ((s.hubs i).obey w c).2.filterMap Effect.packet?
  | .moved i w t m =>
      (t.run w (s.hubs i).settings.monger (s.hubs i).crew.peers m).2.sent.map fun _ =>
        .rumor t.monger.rumor
  | .left _ => []

theorem step_sent [DecidableEq ι] (s : Swarm ι) (e : Event ι) :
    (s.step e).sent = s.sent ++ s.packets e := by
  cases e with
  | told => rfl
  | moved => rfl
  | left => rfl

/-- What has no part in private messages sends none. -/
theorem lettersOf_packets (s : Swarm ι) {e : Event ι} (he : e.posts = false) :
    lettersOf (s.packets e) = [] := by
  cases e with
  | told i w c => exact ((s.hubs i).posts_obey w c).sent_of_not_posts he
  | moved i w t m => exact lettersOf_moved t _
  | left i => rfl

end Swarm

namespace Relay

variable {ι : Type}

/-- Nodes at the start. -/
def new (members : ι → Swarm.Member) : Relay ι := ⟨.new members, [], [], []⟩

/-- Something happens. -/
inductive Event (ι : Type)
  /-- A client writes to a destination. -/
  | asked (node : ι) (w : Moment) (destination text : String)
  /-- A private message arrives. -/
  | came (node : ι) (w : Moment) (sender : PeerAddress) (letter : Letter)
  /-- The ways that a node knows change. -/
  | rerouted (node : ι) (routes : RoutingTable)
  /-- Anything else. -/
  | other (event : Swarm.Event ι)

/-- Only what is underway arrives. -/
def Allows (s : Relay ι) : Event ι → Prop
  | .asked _ _ _ _ => True
  | .came _ _ _ x => x ∈ s.underway
  | .rerouted _ _ => True
  | .other e => e.posts = false

instance decidableAllows (s : Relay ι) : (e : Event ι) → Decidable (s.Allows e)
  | .asked _ _ _ _ => inferInstanceAs (Decidable True)
  | .came _ _ _ x => inferInstanceAs (Decidable (x ∈ s.underway))
  | .rerouted _ _ => inferInstanceAs (Decidable True)
  | .other e => inferInstanceAs (Decidable (e.posts = false))

/-- What was sent of a request, oldest first. -/
def trail (s : Relay ι) (k : Nat) : List PrivateMessage :=
  (backTo k s.letters).map Letter.message

section Events

variable [DecidableEq ι]

/-- The relay after an event in its swarm.  What is sent goes back to the cause of the event. -/
def follow (s : Relay ι) (cause : Option Nat) (e : Swarm.Event ι) : Relay ι :=
  let sent := (lettersOf (s.swarm.packets e)).map (Letter.mk cause)
  { s with
    swarm := s.swarm.step e
    letters := s.letters ++ sent
    underway := s.underway ++ sent }

/-- The relay after an event. -/
def step (s : Relay ι) : Event ι → Relay ι
  | .asked i w destination text =>
      { s.follow (some s.requests.length) (.told i w (.client (.secret destination text))) with
        requests := s.requests ++ [⟨i, destination, text⟩] }
  | .came i w sender x =>
      { s with underway := s.underway.erase x }.follow x.cause
        (.told i w (.packet sender (.secret x.message)))
  | .rerouted i routes => { s with swarm := s.swarm.reroute i routes }
  | .other e => s.follow none e

/-- The relays that come about from nodes at the start. -/
inductive Reachable (members : ι → Swarm.Member) : Relay ι → Prop
  | start : Reachable members (new members)
  | step {s : Relay ι} {e : Event ι} : Reachable members s → s.Allows e →
      Reachable members (s.step e)

variable {members : ι → Swarm.Member} {s : Relay ι}

/-! ### The invariant -/

/-- The private message that a request makes. -/
def Makes (members : ι → Swarm.Member) (r : LetterRequest ι) (m : PrivateMessage) : Prop :=
  m.origin = (members r.node).name ∧ m.destination = r.destination ∧ m.text = r.text ∧
    m.hopLimit = (members r.node).settings.privateHopLimit

/-- **What was sent of each request are the first steps of the way down from the message that it
made, and only the last of them may be underway.** -/
structure Trails (members : ι → Swarm.Member) (s : Relay ι) : Prop where
  keeps : ∀ i, (s.swarm.hubs i).name = (members i).name ∧
    (s.swarm.hubs i).settings = (members i).settings
  caused : ∀ x ∈ s.letters, ∃ k < s.requests.length, x.cause = some k
  sent : ∀ x ∈ s.underway, x ∈ s.letters
  descends : ∀ k r, s.requests[k]? = some r → ∃ m, Makes members r m ∧ s.trail k <+: descent m ∧
    (backTo k s.underway = [] ∨
      ∃ x, backTo k s.underway = [x] ∧ (s.trail k).getLast? = some x.message)

omit [DecidableEq ι] in
theorem trails_new (members : ι → Swarm.Member) : (new members).Trails members where
  keeps _ := ⟨rfl, rfl⟩
  caused _ hx := nomatch hx
  sent _ hx := nomatch hx
  descends _ _ hr := nomatch hr

theorem trail_follow (s : Relay ι) (cause : Option Nat) (e : Swarm.Event ι) (k : Nat) :
    (s.follow cause e).trail k =
      s.trail k ++ if cause = some k then lettersOf (s.swarm.packets e) else [] := by
  show (backTo k (s.letters ++ (lettersOf (s.swarm.packets e)).map (Letter.mk cause))).map
    Letter.message = _
  rw [backTo_append, backTo_map_mk, List.map_append]
  split
  next =>
    rw [List.map_map]
    exact congrArg (s.trail k ++ ·) (List.map_id _)
  next => rfl

theorem backTo_underway_follow (s : Relay ι) (cause : Option Nat) (e : Swarm.Event ι) (k : Nat) :
    backTo k (s.follow cause e).underway = backTo k s.underway ++
      if cause = some k then (lettersOf (s.swarm.packets e)).map (Letter.mk cause) else [] := by
  show backTo k (s.underway ++ (lettersOf (s.swarm.packets e)).map (Letter.mk cause)) = _
  rw [backTo_append, backTo_map_mk]

/-- Whatever happens in the swarm, names and settings stay, and what is underway was sent. -/
theorem Trails.keeps_follow (hs : s.Trails members) (cause : Option Nat) (e : Swarm.Event ι) :
    (∀ i, ((s.follow cause e).swarm.hubs i).name = (members i).name ∧
      ((s.follow cause e).swarm.hubs i).settings = (members i).settings) ∧
    (∀ x ∈ (s.follow cause e).underway, x ∈ (s.follow cause e).letters) := by
  refine ⟨fun i => ?_, fun x hx => ?_⟩
  · obtain ⟨hname, hsettings⟩ := s.swarm.step_keeps e i
    obtain ⟨hname', hsettings'⟩ := hs.keeps i
    exact ⟨hname.trans hname', hsettings.trans hsettings'⟩
  · rcases List.mem_append.1 hx with hx | hx
    · exact List.mem_append_left _ (hs.sent x hx)
    · exact List.mem_append_right _ hx

/-- What has no part in private messages changes no trail. -/
theorem Trails.other (hs : s.Trails members) {e : Swarm.Event ι} (he : e.posts = false) :
    (s.step (.other e)).Trails members := by
  have hnone := s.swarm.lettersOf_packets he
  obtain ⟨hkeeps, hsent⟩ := hs.keeps_follow none e
  refine ⟨hkeeps, fun x hx => ?_, hsent, fun k r hr => ?_⟩
  · rcases List.mem_append.1 hx with hx | hx
    · exact hs.caused x hx
    · rw [hnone] at hx
      exact nomatch hx
  · show ∃ m, _ ∧ (s.follow none e).trail k <+: _ ∧ (backTo k (s.follow none e).underway = [] ∨
      ∃ x, backTo k (s.follow none e).underway = [x] ∧ ((s.follow none e).trail k).getLast? = _)
    rw [trail_follow, backTo_underway_follow, if_neg (by simp), if_neg (by simp), List.append_nil,
      List.append_nil]
    exact hs.descends k r hr

/-- Other ways change no trail. -/
theorem Trails.rerouted (hs : s.Trails members) (i : ι) (routes : RoutingTable) :
    (s.step (.rerouted i routes)).Trails members := by
  refine ⟨fun j => ?_, hs.caused, hs.sent, hs.descends⟩
  rw [← (hs.keeps j).1, ← (hs.keeps j).2]
  refine ⟨Swarm.change_keeps Hub.name ?_ j, Swarm.change_keeps Hub.settings ?_ j⟩
  · rfl
  · rfl

omit [DecidableEq ι] in
/-- Nothing goes back to a request that was not made. -/
theorem Trails.backTo_eq_nil (hs : s.Trails members) {k : Nat} (hk : s.requests.length ≤ k) :
    backTo k s.letters = [] ∧ backTo k s.underway = [] := by
  have hletters : ∀ x ∈ s.letters, ¬ decide (x.cause = some k) = true := by
    intro x hx
    obtain ⟨n, hn, hcause⟩ := hs.caused x hx
    rw [hcause, decide_eq_true_eq, Option.some.injEq]
    omega
  exact ⟨List.filter_eq_nil_iff.2 hletters,
    List.filter_eq_nil_iff.2 fun x hx => hletters x (hs.sent x hx)⟩

/-- **A request begins a trail**, with one message or none. -/
theorem Trails.asked (hs : s.Trails members) (i : ι) (w : Moment) (destination text : String) :
    (s.step (.asked i w destination text)).Trails members := by
  have hposts := (s.swarm.hubs i).posts_obey w (.client (.secret destination text))
  have hsends := hposts.sent_of_asked
  obtain ⟨hkeeps, hsent⟩ := hs.keeps_follow (some s.requests.length)
    (.told i w (.client (.secret destination text)))
  refine ⟨hkeeps, fun x hx => ?_, hsent, fun k r hr => ?_⟩
  · have hcount : (s.step (.asked i w destination text)).requests.length =
        s.requests.length + 1 := List.length_append
    rw [hcount]
    rcases List.mem_append.1 hx with hx | hx
    · obtain ⟨k, hk, hcause⟩ := hs.caused x hx
      exact ⟨k, by omega, hcause⟩
    · obtain ⟨m, -, rfl⟩ := List.mem_map.1 hx
      exact ⟨s.requests.length, by omega, rfl⟩
  · show ∃ m, _ ∧ (s.follow _ _).trail k <+: _ ∧ (backTo k (s.follow _ _).underway = [] ∨
      ∃ x, backTo k (s.follow _ _).underway = [x] ∧ ((s.follow _ _).trail k).getLast? = _)
    rw [trail_follow, backTo_underway_follow]
    by_cases hk : k < s.requests.length
    · have hne : some s.requests.length ≠ some k := by simp; omega
      rw [if_neg hne, if_neg hne, List.append_nil, List.append_nil]
      exact hs.descends k r (by rwa [← List.getElem?_append_left hk])
    · obtain ⟨hletters, hunderway⟩ := hs.backTo_eq_nil (Nat.not_lt.1 hk)
      obtain ⟨hname, hsettings⟩ := hs.keeps i
      have hlast : k = s.requests.length ∧ r = ⟨i, destination, text⟩ := by
        have hr' : (s.requests ++ [⟨i, destination, text⟩])[k]? = some r := hr
        rw [List.getElem?_append_right (Nat.not_lt.1 hk), List.getElem?_singleton] at hr'
        split at hr'
        next hzero => exact ⟨by omega, (Option.some.inj hr').symm⟩
        next => exact nomatch hr'
      obtain ⟨rfl, rfl⟩ := hlast
      rw [if_pos rfl, if_pos rfl, trail, hletters, hunderway]
      refine ⟨(s.swarm.hubs i).newLetter destination text,
        ⟨hname, rfl, rfl, congrArg GossipSettings.privateHopLimit hsettings⟩, ?_⟩
      rcases hsends with hnone | hone
      · have hsent : lettersOf (s.swarm.packets
            (.told i w (.client (.secret destination text)))) = [] := hnone
        rw [hsent]
        exact ⟨List.nil_prefix, Or.inl rfl⟩
      · have hsent : lettersOf (s.swarm.packets (.told i w (.client (.secret destination text)))) =
            [(s.swarm.hubs i).newLetter destination text] := hone
        rw [hsent]
        exact ⟨singleton_prefix_descent _, Or.inr ⟨_, rfl, rfl⟩⟩

omit [DecidableEq ι] in
/-- What is underway is the last that was sent of its request, and nothing else of it is. -/
theorem Trails.last_of_underway (hs : s.Trails members) {x : Letter} (hx : x ∈ s.underway) :
    ∃ k r m, s.requests[k]? = some r ∧ x.cause = some k ∧ Makes members r m ∧
      s.trail k <+: descent m ∧ (s.trail k).getLast? = some x.message ∧
      backTo k s.underway = [x] := by
  obtain ⟨k, hk, hcause⟩ := hs.caused x (hs.sent x hx)
  obtain ⟨m, hmakes, hbegins, hunderway⟩ := hs.descends k _ (List.getElem?_eq_getElem hk)
  have hmem : x ∈ backTo k s.underway := List.mem_filter.2 ⟨hx, by simpa using hcause⟩
  rcases hunderway with hnone | ⟨y, hone, hlast⟩
  · rw [hnone] at hmem
    exact nomatch hmem
  · rw [hone] at hmem
    obtain rfl := List.mem_singleton.1 hmem
    exact ⟨k, _, m, List.getElem?_eq_getElem hk, hcause, hmakes, hbegins, hlast, hone⟩

omit [DecidableEq ι] in
/-- The trails stay what they are when a message arrives. -/
theorem Trails.erase (hs : s.Trails members) (x : Letter) :
    ({ s with underway := s.underway.erase x } : Relay ι).Trails members := by
  refine ⟨hs.keeps, hs.caused, fun y hy => hs.sent y (List.mem_of_mem_erase hy), fun k r hr => ?_⟩
  obtain ⟨m, hmakes, hbegins, hunderway⟩ := hs.descends k r hr
  refine ⟨m, hmakes, hbegins, ?_⟩
  rw [backTo_erase]
  rcases hunderway with hnone | ⟨y, hone, hlast⟩
  · rw [hnone]
    exact Or.inl rfl
  · rw [hone, List.erase_cons, List.erase_nil]
    split
    next => exact Or.inl rfl
    next => exact Or.inr ⟨y, rfl, hlast⟩

/-- **A message that arrives makes its trail one step longer**, or ends it. -/
theorem Trails.came (hs : s.Trails members) (i : ι) (w : Moment) (sender : PeerAddress)
    {x : Letter} (hx : x ∈ s.underway) : (s.step (.came i w sender x)).Trails members := by
  have hposts := (s.swarm.hubs i).posts_obey w (.packet sender (.secret x.message))
  have hsends := hposts.sent_of_brought
  have harrived := hs.erase x
  obtain ⟨n, r, m, hr, hcause, hmakes, hbegins, hlast, hone⟩ := hs.last_of_underway hx
  obtain ⟨hkeeps, hsent⟩ := harrived.keeps_follow x.cause
    (.told i w (.packet sender (.secret x.message)))
  refine ⟨hkeeps, fun y hy => ?_, hsent, fun k r' hr' => ?_⟩
  · rcases List.mem_append.1 hy with hy | hy
    · exact hs.caused y hy
    · obtain ⟨m, -, rfl⟩ := List.mem_map.1 hy
      exact ⟨n, (List.getElem?_eq_some_iff.1 hr).1, hcause⟩
  · show ∃ m, _ ∧ (follow _ _ _).trail k <+: _ ∧ (backTo k (follow _ _ _).underway = [] ∨
      ∃ x, backTo k (follow _ _ _).underway = [x] ∧ ((follow _ _ _).trail k).getLast? = _)
    rw [trail_follow, backTo_underway_follow, hcause]
    by_cases hk : k = n
    · subst hk
      obtain rfl : r = r' := Option.some.inj (hr.symm.trans hr')
      have hgone : backTo k (s.underway.erase x) = [] := by
        rw [backTo_erase, hone, List.erase_cons_head]
      rw [if_pos rfl, if_pos rfl, hgone, List.nil_append]
      rcases hsends with hnone | ⟨hhops, hnext⟩
      · have hsent : lettersOf (s.swarm.packets
            (.told i w (.packet sender (.secret x.message)))) = [] := hnone
        rw [hsent, List.append_nil]
        exact ⟨m, hmakes, hbegins, Or.inl rfl⟩
      · have hsent : lettersOf (s.swarm.packets
            (.told i w (.packet sender (.secret x.message)))) =
              [{ x.message with hopLimit := x.message.hopLimit - 1 }] := hnext
        rw [hsent]
        exact ⟨m, hmakes, descent_next hbegins hlast hhops,
          Or.inr ⟨_, rfl, List.getLast?_concat⟩⟩
    · have hne : some n ≠ some k := by simp; omega
      rw [if_neg hne, if_neg hne, List.append_nil, List.append_nil]
      exact harrived.descends k r' hr'

/-- **What was sent of each request are the first steps of the way down from its message.** -/
theorem trails_of_reachable (hs : Reachable members s) : s.Trails members := by
  induction hs with
  | start => exact trails_new members
  | @step s e _ he ih =>
    cases e with
    | asked i w destination text => exact ih.asked i w destination text
    | came i w sender x => exact ih.came i w sender he
    | rerouted i routes => exact ih.rerouted i routes
    | other e => exact ih.other he

/-- Every private message that was sent is known as a letter. -/
theorem map_message_letters (hs : Reachable members s) :
    s.letters.map Letter.message = lettersOf s.swarm.sent := by
  have hfollow : ∀ (s : Relay ι) (cause : Option Nat) (e : Swarm.Event ι),
      s.letters.map Letter.message = lettersOf s.swarm.sent →
        (s.follow cause e).letters.map Letter.message = lettersOf (s.follow cause e).swarm.sent := by
    intro s cause e h
    show (s.letters ++ (lettersOf (s.swarm.packets e)).map (Letter.mk cause)).map Letter.message =
      lettersOf (s.swarm.step e).sent
    rw [s.swarm.step_sent e, lettersOf_append, List.map_append, h, List.map_map]
    exact congrArg (lettersOf s.swarm.sent ++ ·) (List.map_id _)
  induction hs with
  | start => rfl
  | @step s e _ _ ih =>
    cases e with
    | asked i w destination text => exact hfollow s _ _ ih
    | came i w sender x => exact hfollow _ _ _ ih
    | rerouted i routes =>
      show s.letters.map Letter.message = lettersOf (s.swarm.sent ++ [])
      rw [List.append_nil]
      exact ih
    | other e => exact hfollow s _ _ ih

/-! ### The bound -/

/-- **A private message is sent as often as it has hops, or once if it has none**, by all nodes
together, and each time with fewer hops.  Every private message that is sent goes back to the
request of a client, and nothing but its hops changes. -/
theorem sent_at_most_of_reachable (hs : Reachable members s) :
    s.letters.map Letter.message = lettersOf s.swarm.sent ∧
    (∀ x ∈ s.letters, ∃ k < s.requests.length, x.cause = some k) ∧
    ∀ k r, s.requests[k]? = some r →
      (s.trail k).length ≤ max 1 (members r.node).settings.privateHopLimit.toNat ∧
      ((s.trail k).Pairwise fun a b => b.hopLimit < a.hopLimit) ∧
      ∀ m ∈ s.trail k, m.origin = (members r.node).name ∧ m.destination = r.destination ∧
        m.text = r.text ∧ m.hopLimit ≤ (members r.node).settings.privateHopLimit := by
  have htrails := trails_of_reachable hs
  refine ⟨map_message_letters hs, htrails.caused, fun k r hr => ?_⟩
  obtain ⟨m, ⟨horigin, hdestination, htext, hlimit⟩, hbegins, -⟩ := htrails.descends k r hr
  rw [← hlimit]
  refine ⟨?_, ?_, fun x hx => ?_⟩
  · rw [← length_descent]
    exact hbegins.length_le
  · exact (pairwise_descent m).sublist hbegins.sublist
  · obtain ⟨n, hn⟩ := List.mem_iff_getElem?.1 (hbegins.subset hx)
    obtain ⟨-, rfl⟩ := getElem?_descent.1 hn
    refine ⟨horigin, hdestination, htext, UInt32.le_iff_toNat_le.2 ?_⟩
    rw [toNat_hopLimit_after]
    exact Nat.sub_le _ _

/-- The relay after a sequence of events. -/
def run (s : Relay ι) (es : List (Event ι)) : Relay ι := es.foldl step s

/-- Each event of a sequence is allowed when its turn comes. -/
def AllowsAll (s : Relay ι) : List (Event ι) → Prop
  | [] => True
  | e :: es => s.Allows e ∧ (s.step e).AllowsAll es

instance decidableAllowsAll : (s : Relay ι) → (es : List (Event ι)) → Decidable (s.AllowsAll es)
  | _, [] => .isTrue trivial
  | s, e :: es =>
      have := decidableAllowsAll (s.step e) es
      inferInstanceAs (Decidable (s.Allows e ∧ (s.step e).AllowsAll es))

theorem Reachable.run (hs : Reachable members s) {es : List (Event ι)} (hall : s.AllowsAll es) :
    Reachable members (s.run es) := by
  induction es generalizing s with
  | nil => exact hs
  | cons e es ih => exact ih (hs.step hall.1) hall.2

end Events

/-! ### Two nodes -/

namespace Circle

open Swarm.Pair (address moment)

/-- Two nodes, one with three hops and one with none. -/
def members (second : Bool) : Swarm.Member :=
  { Swarm.Pair.members second with settings := { privateHopLimit := if second then 0 else 3 } }

/-- A message of a client of the first node comes to the other node. -/
def hands (node : Bool) (hops : UInt32) : Event Bool :=
  .came node moment (address 1) ⟨some 0, ⟨"a", 1, "c", "text", hops⟩⟩

/-- Each node takes the other for the way to a third one.  A message for that one goes back and
forth until no hops are left. -/
def events : List (Event Bool) :=
  let there := RoutingTable.learn .empty "c" (address 2)
  let back := RoutingTable.learn .empty "c" (address 1)
  [.rerouted false there, .rerouted true back, .asked false moment "c" "text", hands true 3,
    hands false 2, hands true 1, .asked true moment "c" "text",
    .came false moment (address 2) ⟨some 1, ⟨"b", 1, "c", "text", 0⟩⟩]

/-- Three hops are enough for three messages, and no hops for one. -/
theorem sent_in_circle :
    (((new members).run events).trail 0).map PrivateMessage.hopLimit = [3, 2, 1] ∧
      (((new members).run events).trail 1).map PrivateMessage.hopLimit = [0] ∧
      ((new members).run events).underway = [] ∧
      (((new members).run events).trail 0).length ≤ max 1 3 ∧
      (((new members).run events).trail 1).length ≤ max 1 0 := by
  have hrun : (new members).AllowsAll events ∧
      (((new members).run events).trail 0).map PrivateMessage.hopLimit = [3, 2, 1] ∧
      (((new members).run events).trail 1).map PrivateMessage.hopLimit = [0] ∧
      ((new members).run events).underway = [] := by
    decide +kernel
  obtain ⟨hallowed, hthree, hone, hunderway⟩ := hrun
  obtain ⟨-, -, hbound⟩ := sent_at_most_of_reachable (Reachable.run .start hallowed)
  exact ⟨hthree, hone, hunderway, (hbound 0 ⟨false, "c", "text"⟩ (by rfl)).1,
    (hbound 1 ⟨true, "c", "text"⟩ (by rfl)).1⟩

end Circle

end Relay
end GossipLedger
