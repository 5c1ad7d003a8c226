import GossipLedger.Proofs.Rumor.Hub
import Mathlib.Logic.Function.Basic

/-!
# Nodes that gossip with each other

Any number of nodes with different names gossip.  What one of them sends may be lost, come
twice, come late or come from another address: a node can be told any rumor that was ever
sent, at any time, and every other packet, true or not.  Clients ask for what they like,
the timers tick when they like, and mongers move when they like.

Nobody makes up rumors, so every rumor on its way is in the log of the node that it comes
from.  That is the invariant, and all nodes agree because of it, until the numbers of 32 bits
run out and come again.

## Main definitions

* `Swarm` — the hubs of the nodes and the packets that were sent.
* `Swarm.Event`, `Swarm.step` — a hub is told something, a monger moves, or mongers leave.
* `Swarm.Reachable` — the swarms that come about from hubs at the start.
* `Swarm.Faithful` — the invariant.

## Main results

* `Swarm.Reachable.handle` — a command together with all that the mongers do afterwards is
  a sequence of events.
* `Swarm.faithful_of_reachable` — the invariant holds always.
* `Swarm.log_prefix_of_reachable` — **every node has a beginning of the log that each node
  has of itself**, as long as the numbers last.
* `Swarm.Pair.exists_log_not_prefix` — after that it need not be.
-/

namespace GossipLedger

/-- Nodes that gossip. -/
structure Swarm (ι : Type) where
  hubs : ι → Hub
  /-- Every packet that was ever sent. -/
  sent : List Packet

namespace Swarm

variable {ι : Type}

/-- A node before it starts. -/
structure Member where
  name : String
  address : PeerAddress
  settings : GossipSettings
  peers : PeerSet

/-- Hubs at the start. -/
def new (members : ι → Member) : Swarm ι where
  hubs i := .new (members i).name (members i).address (members i).settings (members i).peers
  sent := []

/-- Something happens. -/
inductive Event (ι : Type)
  /-- A hub is told something. -/
  | told (node : ι) (w : Moment) (command : HubCommand)
  /-- A monger makes a move. -/
  | moved (node : ι) (w : Moment) (task : Task) (move : Move)
  /-- The mongers that have stopped leave. -/
  | left (node : ι)

/-- No rumor comes that was not sent, and only mongers that are there move. -/
def Allows (s : Swarm ι) : Event ι → Prop
  | .told _ _ c => ∀ r ∈ c.rumor?, .rumor r ∈ s.sent
  | .moved i _ t _ => t ∈ (s.hubs i).crew.tasks
  | .left _ => True

instance decidableAllows (s : Swarm ι) : (e : Event ι) → Decidable (s.Allows e)
  | .told _ _ c => inferInstanceAs (Decidable (∀ r ∈ c.rumor?, .rumor r ∈ s.sent))
  | .moved i _ t _ => inferInstanceAs (Decidable (t ∈ (s.hubs i).crew.tasks))
  | .left _ => inferInstanceAs (Decidable True)

/-- The node that a rumor comes from has it in its own log. -/
def Genuine (s : Swarm ι) (r : Rumor) : Prop :=
  ∃ j, (s.hubs j).name = r.origin ∧ r ∈ (s.hubs j).rumors.log r.origin

/-- **All rumors that are stored, spread or on their way are genuine**, unless they only
make a way known. -/
structure Faithful (s : Swarm ι) : Prop where
  built : ∀ i, (s.hubs i).rumors.Built
  /-- What a node has of others ends where the numbers do. -/
  short : ∀ i o, o ≠ (s.hubs i).name → (s.hubs i).rumors.length o < 2 ^ 32
  stored : ∀ i o, ∀ r ∈ (s.hubs i).rumors.log o, s.Genuine r
  spread : ∀ i, ∀ r ∈ (s.hubs i).crew.rumors, r.isRoute = true ∨ s.Genuine r
  sent : ∀ r, .rumor r ∈ s.sent → r.isRoute = true ∨ s.Genuine r

section Events

variable [DecidableEq ι]

/-- The swarm after a hub changed and sent some packets. -/
def change (s : Swarm ι) (i : ι) (h : Hub) (packets : List Packet) : Swarm ι :=
  ⟨Function.update s.hubs i h, s.sent ++ packets⟩

/-- The swarm after an event. -/
def step (s : Swarm ι) : Event ι → Swarm ι
  | .told i w c =>
      s.change i ((s.hubs i).obey w c).1 (((s.hubs i).obey w c).2.filterMap Effect.packet?)
  | .moved i w t m =>
      let moved := t.run w (s.hubs i).settings.monger (s.hubs i).crew.peers m
      s.change i
        { s.hubs i with crew := ⟨moved.2.peers, (s.hubs i).crew.tasks.erase t ++ [moved.1]⟩ }
        (moved.2.sent.map fun _ => .rumor t.monger.rumor)
  | .left i => s.change i { s.hubs i with crew := (s.hubs i).crew.reap } []

/-- The swarms that come about from hubs at the start. -/
inductive Reachable (members : ι → Member) : Swarm ι → Prop
  | start : Reachable members (new members)
  | step {s : Swarm ι} {e : Event ι} : Reachable members s → s.Allows e →
      Reachable members (s.step e)

variable {members : ι → Member} {s : Swarm ι} {i : ι} {h : Hub} {packets : List Packet}

@[simp] theorem change_hubs_self : (s.change i h packets).hubs i = h := Function.update_self _ _ _

theorem change_hubs_of_ne {j : ι} (hji : j ≠ i) : (s.change i h packets).hubs j = s.hubs j :=
  Function.update_of_ne hji _ _

/-- What a hub keeps when it changes, all nodes keep. -/
theorem change_keeps {α : Type} (f : Hub → α) (hkeeps : f h = f (s.hubs i)) (j : ι) :
    f ((s.change i h packets).hubs j) = f (s.hubs j) := by
  by_cases hji : j = i
  · subst hji
    rw [change_hubs_self, hkeeps]
  · rw [change_hubs_of_ne hji]

theorem change_change (h' : Hub) (packets' : List Packet) :
    (s.change i h packets).change i h' packets' = s.change i h' (packets ++ packets') := by
  unfold change
  rw [Function.update_idem, List.append_assoc]

theorem change_self : s.change i (s.hubs i) [] = s := by
  unfold change
  rw [Function.update_eq_self, List.append_nil]

/-! ### Commands with all that follows -/

/-- Moves of the mongers in their turn are events. -/
theorem Reachable.stepUpTo (hs : Reachable members s) (i : ι) (w : Moment) (fuel : Nat) :
    Reachable members (s.change i
      { s.hubs i with
        crew := ((s.hubs i).crew.stepUpTo w (s.hubs i).settings.monger fuel).1 }
      (((s.hubs i).crew.stepUpTo w (s.hubs i).settings.monger fuel).2.map Outbound.packet)) := by
  induction fuel generalizing s with
  | zero =>
    show Reachable members (s.change i (s.hubs i) [])
    rw [change_self]
    exact hs
  | succ fuel ih =>
    rw [Crew.stepUpTo]
    cases hstep : (s.hubs i).crew.step? w (s.hubs i).settings.monger with
    | none =>
      show Reachable members (s.change i (s.hubs i) [])
      rw [change_self]
      exact hs
    | some next =>
      unfold Crew.step? at hstep
      split at hstep
      next t m hturn =>
        have hmoved := hs.step (e := .moved i w t m) (Crew.le_of_turn? hturn).1
        have hrest := ih hmoved
        obtain rfl := Option.some.inj hstep
        simp only [Swarm.step, change_hubs_self, change_change] at hrest
        simp only [List.map_append, List.map_map]
        exact hrest
      next => exact absurd hstep (by simp)

/-- **A command with all that the mongers do afterwards is a sequence of events.** -/
theorem Reachable.handle (hs : Reachable members s) {w : Moment} {c : HubCommand}
    (hc : s.Allows (.told i w c)) :
    Reachable members (s.change i ((s.hubs i).handle w c).1
      (((s.hubs i).handle w c).2.filterMap Effect.packet?)) := by
  have htold := hs.step hc
  have hsettled := htold.stepUpTo i w
    ((((s.hubs i).obey w c).1).crew.patience ((s.hubs i).obey w c).1.settings.monger)
  have hleft := hsettled.step (e := .left i) trivial
  simp only [Swarm.step, change_hubs_self, change_change, List.append_nil] at hleft
  unfold Hub.handle Hub.settle Crew.settle
  simp only [List.filterMap_append, List.filterMap_map]
  have hsends : (Effect.packet? ∘ Effect.send) = some ∘ Outbound.packet := rfl
  rw [hsends, List.filterMap_eq_map]
  exact hleft

/-! ### The invariant -/

omit [DecidableEq ι] in
theorem faithful_new (members : ι → Member) : (new members).Faithful where
  built _ := .empty
  short _ _ _ := Nat.two_pow_pos 32
  stored _ _ r hr := absurd hr (by simp [new, Hub.new])
  spread _ r hr := absurd hr (by simp [new, Hub.new, Crew.new, Crew.rumors])
  sent r hr := absurd hr (by simp [new])

/-- Logs only grow, so what is genuine stays so. -/
theorem Genuine.change {r : Rumor} (hr : s.Genuine r) (hname : h.name = (s.hubs i).name)
    (hgrow : ∀ o, (s.hubs i).rumors.log o <+: h.rumors.log o) :
    (s.change i h packets).Genuine r := by
  obtain ⟨j, hj, hmem⟩ := hr
  refine ⟨j, ?_⟩
  by_cases hji : j = i
  · subst hji
    rw [change_hubs_self]
    exact ⟨hname.trans hj, (hgrow _).subset hmem⟩
  · rw [change_hubs_of_ne hji]
    exact ⟨hj, hmem⟩

/-- **A hub that changes leaves a swarm faithful** if what it stores, spreads and sends is
genuine. -/
theorem Faithful.change (hs : s.Faithful) (hbuilt : h.rumors.Built)
    (hshort : ∀ o, o ≠ h.name → h.rumors.length o < 2 ^ 32)
    (hname : h.name = (s.hubs i).name)
    (hgrow : ∀ o, (s.hubs i).rumors.log o <+: h.rumors.log o)
    (hstored : ∀ o, ∀ r ∈ h.rumors.log o, (s.change i h packets).Genuine r)
    (hspread : ∀ r ∈ h.crew.rumors, r.isRoute = true ∨ (s.change i h packets).Genuine r)
    (hsent : ∀ r, .rumor r ∈ packets → r.isRoute = true ∨ (s.change i h packets).Genuine r) :
    (s.change i h packets).Faithful := by
  refine ⟨fun j => ?_, fun j => ?_, fun j => ?_, fun j => ?_, fun r hr => ?_⟩
  · by_cases hji : j = i
    · subst hji
      rw [change_hubs_self]
      exact hbuilt
    · rw [change_hubs_of_ne hji]
      exact hs.built j
  · by_cases hji : j = i
    · subst hji
      rw [change_hubs_self]
      exact hshort
    · rw [change_hubs_of_ne hji]
      exact hs.short j
  · by_cases hji : j = i
    · subst hji
      rw [change_hubs_self]
      exact hstored
    · rw [change_hubs_of_ne hji]
      intro o r hr
      exact (hs.stored j o r hr).change hname hgrow
  · by_cases hji : j = i
    · subst hji
      rw [change_hubs_self]
      exact hspread
    · rw [change_hubs_of_ne hji]
      intro r hr
      exact (hs.spread j r hr).imp_right fun hgenuine => hgenuine.change hname hgrow
  · rcases List.mem_append.1 hr with hr | hr
    · exact (hs.sent r hr).imp_right fun hgenuine => hgenuine.change hname hgrow
    · exact hsent r hr

/-- What a hub does with rumors leaves a swarm faithful, if what was brought to it was
sent. -/
theorem Faithful.handles (hs : s.Faithful) {brought : Option Rumor} {effects : List Effect}
    (hhandles : (s.hubs i).Handles brought h effects)
    (hbrought : ∀ r ∈ brought, .rumor r ∈ s.sent) :
    (s.change i h (effects.filterMap Effect.packet?)).Faithful := by
  have hgrow : ∀ o, (s.hubs i).rumors.log o <+: h.rumors.log o := by
    intro o
    rcases hhandles.stores with hsame | ⟨r, happend, -⟩
    · exact hsame ▸ List.prefix_rfl
    · exact MessageStore.prefix_log_append? happend o
  have hbuilt : h.rumors.Built := by
    rcases hhandles.stores with hsame | ⟨r, happend, -⟩
    · rw [hsame]
      exact hs.built i
    · exact (hs.built i).append happend
  have hshort : ∀ o, o ≠ h.name → h.rumors.length o < 2 ^ 32 := by
    intro o ho
    rw [hhandles.name] at ho
    rcases hhandles.stores with hsame | ⟨r, happend, horigin | ⟨-, hnumber⟩⟩
    · rw [hsame]
      exact hs.short i o ho
    · -- one of the hub's own is not of this origin
      rw [MessageStore.length_append? happend, if_neg fun heq => ho (heq.symm.trans horigin)]
      exact hs.short i o ho
    · exact MessageStore.length_append?_lt happend hnumber (hs.short i o ho)
  have hold : ∀ r, s.Genuine r →
      (s.change i h (effects.filterMap Effect.packet?)).Genuine r := fun r hr =>
    hr.change hhandles.name hgrow
  -- what the hub has stored in its own log is genuine by that
  have hown : ∀ r ∈ h.rumors.log (s.hubs i).name,
      (s.change i h (effects.filterMap Effect.packet?)).Genuine r := by
    intro r hr
    have horigin : r.origin = (s.hubs i).name := hbuilt.origin_eq hr
    refine ⟨i, ?_⟩
    rw [change_hubs_self, horigin]
    exact ⟨hhandles.name, hr⟩
  have hstored : ∀ o, ∀ r ∈ h.rumors.log o,
      (s.change i h (effects.filterMap Effect.packet?)).Genuine r := by
    intro o x hx
    rcases hhandles.stores with hsame | ⟨r, happend, hfrom⟩
    · rw [hsame] at hx
      exact hold x (hs.stored i o x hx)
    · rcases MessageStore.mem_log_append? happend hx with hx | rfl
      · exact hold x (hs.stored i o x hx)
      · rcases hfrom with horigin | ⟨hbring, hnumber⟩
        · have hmem : x ∈ h.rumors.log x.origin := MessageStore.mem_log_self happend
          rw [horigin] at hmem
          exact hown x hmem
        · -- a rumor that only makes a way known has number zero, and is not stored
          exact ((hs.sent x (hbrought x hbring)).resolve_left fun hroute =>
            hnumber (Hub.sequence_of_isRoute hroute)).change hhandles.name hgrow
  refine hs.change hbuilt hshort hhandles.name hgrow hstored (fun r hr => ?_) fun r hr => ?_
  · rcases hhandles.spreads r hr with hr | hbring | hr
    · exact (hs.spread i r hr).imp_right (hold r)
    · exact (hs.sent r (hbrought r hbring)).imp_right (hold r)
    · exact Or.inr (hown r hr)
  · obtain ⟨e, he, hpacket⟩ := List.mem_filterMap.1 hr
    rcases hhandles.sends e he r hpacket with rfl | ⟨o, hr⟩
    · exact Or.inl rfl
    · exact Or.inr (hold r (hs.stored i o r hr))

/-- Mongers that move or leave keep a swarm faithful: they spread what they spread before. -/
theorem Faithful.mongers (hs : s.Faithful) {crew : Crew}
    (hcrew : ∀ r ∈ crew.rumors, r ∈ (s.hubs i).crew.rumors)
    (hpackets : ∀ r, .rumor r ∈ packets → r ∈ (s.hubs i).crew.rumors) :
    (s.change i { s.hubs i with crew := crew } packets).Faithful := by
  have hold : ∀ r, s.Genuine r →
      (s.change i { s.hubs i with crew := crew } packets).Genuine r := fun r hr =>
    hr.change rfl fun _ => List.prefix_rfl
  refine hs.change (hs.built i) (hs.short i) rfl (fun _ => List.prefix_rfl) (fun o r hr => ?_)
    (fun r hr => ?_) fun r hr => ?_
  · exact hold r (hs.stored i o r hr)
  · exact (hs.spread i r (hcrew r hr)).imp_right (hold r)
  · exact (hs.spread i r (hpackets r hr)).imp_right (hold r)

/-- **Every event leaves a swarm faithful.** -/
theorem Faithful.step (hs : s.Faithful) {e : Event ι} (he : s.Allows e) : (s.step e).Faithful := by
  cases e with
  | told i w c => exact hs.handles ((s.hubs i).handles_obey w c) he
  | moved i w t m =>
    have ht : t ∈ (s.hubs i).crew.tasks := he
    have hrumor : t.monger.rumor ∈ (s.hubs i).crew.rumors := List.mem_map_of_mem ht
    have hkeeps := t.run_rumor w (s.hubs i).settings.monger (s.hubs i).crew.peers m
    refine hs.mongers (fun r hr => ?_) fun r hr => ?_
    · obtain ⟨u, hu, rfl⟩ := List.mem_map.1 hr
      rcases List.mem_append.1 hu with hu | hu
      · exact List.mem_map_of_mem (List.mem_of_mem_erase hu)
      · rw [List.mem_singleton.1 hu, hkeeps]
        exact hrumor
    · obtain ⟨p, -, heq⟩ := List.mem_map.1 hr
      rw [← Packet.rumor.inj heq]
      exact hrumor
  | left i =>
    refine hs.mongers (fun r hr => ?_) fun r hr => absurd hr List.not_mem_nil
    obtain ⟨u, hu, rfl⟩ := List.mem_map.1 hr
    exact List.mem_map_of_mem (List.mem_of_mem_filter hu)

theorem faithful_of_reachable (hs : Reachable members s) : s.Faithful := by
  induction hs with
  | start => exact faithful_new members
  | step _ he ih => exact ih.step he

/-- Nodes keep their names. -/
theorem name_of_reachable (hs : Reachable members s) (i : ι) :
    (s.hubs i).name = (members i).name := by
  induction hs with
  | start => rfl
  | @step s e _ _ ih =>
    rw [← ih]
    cases e with
    | told j w c => exact change_keeps Hub.name ((s.hubs j).handles_obey w c).name i
    | moved j w t m =>
      refine change_keeps Hub.name ?_ i
      rfl
    | left j =>
      refine change_keeps Hub.name ?_ i
      rfl

/-! ### Agreement -/

/-- **Every node has a beginning of the log that each node has of itself**, as long as that one
is not longer than there are numbers; so no two nodes have different rumors under one number.
Of names that no node has there is nothing.  Each log has the numbers from one on without a
gap, counted in 32 bits, and if they come again, what a node has of another is in the log of
that one at a place with the same number. -/
theorem log_prefix_of_reachable (hnames : Function.Injective fun i => (members i).name)
    (hs : Reachable members s) :
    (∀ j, (s.hubs j).rumors.length (members j).name ≤ 2 ^ 32 →
      (∀ i, (s.hubs i).rumors.log (members j).name <+:
        (s.hubs j).rumors.log (members j).name) ∧
      ∀ i i' q r r', (s.hubs i).rumors.message? (members j).name q = some r →
        (s.hubs i').rumors.message? (members j).name q = some r' → r = r') ∧
    (∀ i o, (∀ j, (members j).name ≠ o) → (s.hubs i).rumors.log o = []) ∧
    (∀ i o k r, ((s.hubs i).rumors.log o)[k]? = some r →
      r.origin = o ∧ r.sequence.toNat = (k + 1) % 2 ^ 32) ∧
    ∀ i j k r, ((s.hubs i).rumors.log (members j).name)[k]? = some r →
      ∃ n, ((s.hubs j).rumors.log (members j).name)[n]? = some r ∧ n % 2 ^ 32 = k % 2 ^ 32 := by
  have hfaithful := faithful_of_reachable hs
  have hgenuine : ∀ i o, ∀ r ∈ (s.hubs i).rumors.log o,
      ∃ j, (members j).name = o ∧ r ∈ (s.hubs j).rumors.log o := by
    intro i o r hr
    obtain ⟨j, hj, hmem⟩ := hfaithful.stored i o r hr
    have horigin : r.origin = o := (hfaithful.built i).origin_eq hr
    rw [name_of_reachable hs, horigin] at hj
    rw [horigin] at hmem
    exact ⟨j, hj, hmem⟩
  have hsubset : ∀ i j, ∀ r ∈ (s.hubs i).rumors.log (members j).name,
      r ∈ (s.hubs j).rumors.log (members j).name := by
    intro i j r hr
    obtain ⟨k, hk, hmem⟩ := hgenuine i _ r hr
    obtain rfl : k = j := hnames hk
    exact hmem
  have hbegins : ∀ j, (s.hubs j).rumors.length (members j).name ≤ 2 ^ 32 → ∀ i,
      (s.hubs i).rumors.log (members j).name <+: (s.hubs j).rumors.log (members j).name := by
    intro j hj i
    by_cases hij : i = j
    · exact hij ▸ List.prefix_rfl
    · -- what the one node has of the other is shorter still
      have hname : (members j).name ≠ (s.hubs i).name := by
        rw [name_of_reachable hs]
        exact fun heq => hij (hnames heq).symm
      exact (hfaithful.built i).log_prefix_of_subset (hfaithful.built j)
        (hfaithful.short i _ hname).le hj (hsubset i j)
  refine ⟨fun j hj => ⟨hbegins j hj, fun i i' q r r' hr hr' => ?_⟩, fun i o hnone => ?_,
    fun i o k r hr => ?_, fun i j k r hr => ?_⟩
  · -- both rumors are in the log of the node that they come from, at the same place
    have hfound := MessageStore.message?_of_prefix (hbegins j hj i) hr
    have hfound' := MessageStore.message?_of_prefix (hbegins j hj i') hr'
    exact Option.some.inj (hfound.symm.trans hfound')
  · refine List.eq_nil_iff_forall_not_mem.2 fun r hr => ?_
    obtain ⟨j, hj, -⟩ := hgenuine i o r hr
    exact hnone j hj
  · obtain ⟨horigin, hnumber⟩ := (hfaithful.built i).sequence_eq hr
    refine ⟨horigin, ?_⟩
    have hcount : r.sequence = UInt32.ofNat (k + 1) := hnumber
    rw [hcount, UInt32.toNat_ofNat']
  · exact (hfaithful.built i).mod_eq_of_mem (hfaithful.built j) hr
      (hsubset i j r (List.mem_of_getElem? hr))

/-! ### Two nodes -/

/-- The swarm after a sequence of events. -/
def run (s : Swarm ι) (es : List (Event ι)) : Swarm ι := es.foldl step s

/-- Each event of a sequence is allowed when its turn comes. -/
def AllowsAll (s : Swarm ι) : List (Event ι) → Prop
  | [] => True
  | e :: es => s.Allows e ∧ (s.step e).AllowsAll es

instance decidableAllowsAll : (s : Swarm ι) → (es : List (Event ι)) → Decidable (s.AllowsAll es)
  | _, [] => .isTrue trivial
  | s, e :: es =>
      have := decidableAllowsAll (s.step e) es
      inferInstanceAs (Decidable (s.Allows e ∧ (s.step e).AllowsAll es))

theorem Reachable.run (hs : Reachable members s) {es : List (Event ι)} (hall : s.AllowsAll es) :
    Reachable members (s.run es) := by
  induction es generalizing s with
  | nil => exact hs
  | cons e es ih => exact ih (hs.step hall.1) hall.2

end Events

namespace Pair

def address (port : UInt16) : PeerAddress := .v4 ⟨127, 0, 0, 1⟩ port

/-- Two nodes that know each other. -/
def members (second : Bool) : Member where
  name := if second then "b" else "a"
  address := address (if second then 2 else 1)
  settings := {}
  peers := .ofList [address (if second then 1 else 2)]

def moment : Moment := ⟨0, .first, true, true⟩

/-- The first node's rumor of a number. -/
def rumor (n : UInt32) : Rumor := ⟨"a", n, "text"⟩

/-- The second node hears a rumor of the first. -/
def hears (n : UInt32) : Event Bool := .told true moment (.packet (address 1) (.rumor (rumor n)))

/-- The first node spreads two rumors.  They come to the second one in the wrong order, and
one of them twice. -/
def events : List (Event Bool) :=
  let asks := .told false moment (.client (.rumor "text"))
  let spreads (n : Nat) := .moved false moment ⟨n, .new (rumor n.toUInt32) none, []⟩ .begin
  [asks, asks, spreads 1, spreads 2, hears 2, hears 1, hears 1]

/-- The second node has stored the first rumor, once, and not the second one. -/
theorem log_of_heard :
    (((new members).run events).hubs true).rumors.log "a" = [rumor 1] ∧
      (((new members).run events).hubs false).rumors.log "a" = [rumor 1, rumor 2] ∧
      (((new members).run events).hubs true).rumors.log "a" <+:
        (((new members).run events).hubs false).rumors.log "a" := by
  have hrun : (new members).AllowsAll events ∧
      (((new members).run events).hubs true).rumors.log "a" = [rumor 1] ∧
      (((new members).run events).hubs false).rumors.log "a" = [rumor 1, rumor 2] := by
    decide +kernel
  obtain ⟨hallowed, hsecond, hfirst⟩ := hrun
  have hnames : ∀ i j, (members i).name = (members j).name → i = j := by decide +kernel
  have hreachable : Reachable members ((new members).run events) := Reachable.run .start hallowed
  have hfew : (((new members).run events).hubs false).rumors.length "a" ≤ 2 ^ 32 := by
    rw [MessageStore.length, hfirst]
    decide
  exact ⟨hsecond, hfirst,
    ((log_prefix_of_reachable (fun i j => hnames i j) hreachable).1 false hfew).1 true⟩

/-- A client of the first node asks for a text for everyone. -/
def asks (text : String) : Event Bool := .told false moment (.client (.rumor text))

/-- The first node was asked for so many texts, and has sent none of them. -/
def unsent : Nat → Swarm Bool
  | 0 => new members
  | n + 1 => (unsent n).step (asks "early")

theorem reachable_unsent (n : Nat) : Reachable members (unsent n) := by
  induction n with
  | zero => exact .start
  | succ n ih => exact ih.step (e := asks "early") fun r hr => nomatch hr

/-- The first node was asked for these texts, and has sent none of them. -/
structure Unsent (texts : List String) (s : Swarm Bool) : Prop where
  name : (s.hubs false).name = "a"
  peers : (s.hubs false).crew.peers = .ofList [address 2]
  counter : (s.hubs false).rumorCounter = UInt32.ofNat texts.length
  log : ((s.hubs false).rumors.log "a").map Rumor.text = texts
  reader : s.hubs true = (new members).hubs true

/-- One more text is stored, and a monger is there to send it. -/
theorem Unsent.step {texts : List String} {s : Swarm Bool} (hs : Unsent texts s) (text : String) :
    Unsent (texts ++ [text]) (s.step (asks text)) ∧
      ∃ id, (⟨id, .new ⟨"a", UInt32.ofNat (texts.length + 1), text⟩ none, []⟩ : Task) ∈
        ((s.step (asks text)).hubs false).crew.tasks := by
  have hlength : (s.hubs false).rumors.length "a" = texts.length := by
    rw [MessageStore.length, ← List.length_map Rumor.text, hs.log]
  have hnumber : (s.hubs false).rumorCounter + 1 = UInt32.ofNat (texts.length + 1) := by
    rw [hs.counter, UInt32.ofNat_add]
    rfl
  -- the counter is the number of the last rumor, so the next one is appended
  obtain ⟨rumors, happend⟩ : ∃ rumors, (s.hubs false).rumors.append?
      ⟨"a", UInt32.ofNat (texts.length + 1), text⟩ = some rumors := by
    refine ⟨_, MessageStore.append?_eq_some_iff.2 ⟨?_, rfl⟩⟩
    show UInt32.ofNat (texts.length + 1) = (s.hubs false).rumors.last "a" + 1
    rw [MessageStore.last_add_one, hlength]
  have hstep : s.step (asks text) = s.change false
      ({ s.hubs false with
          rumorCounter := UInt32.ofNat (texts.length + 1), rumors := rumors, swept := [] }
        |>.startMonger ⟨"a", UInt32.ofNat (texts.length + 1), text⟩ none) [] := by
    show s.change false ((s.hubs false).onRumorRequest text) [] = _
    unfold Hub.onRumorRequest
    simp only [hs.name, hnumber, happend]
  rw [hstep]
  refine ⟨⟨?_, ?_, ?_, ?_, ?_⟩, (s.hubs false).mongers + 1, ?_⟩
  · rw [change_hubs_self]
    exact hs.name
  · rw [change_hubs_self]
    exact hs.peers
  · rw [change_hubs_self, List.length_append]
    rfl
  · rw [change_hubs_self]
    show (rumors.log "a").map Rumor.text = _
    rw [MessageStore.log_append? happend, ← hs.log]
    exact List.map_append
  · rw [change_hubs_of_ne (by decide)]
    exact hs.reader
  · rw [change_hubs_self]
    exact List.mem_append_right _ (List.mem_singleton_self _)

theorem unsent_spec (n : Nat) : Unsent (List.replicate n "early") (unsent n) := by
  induction n with
  | zero => exact ⟨rfl, rfl, rfl, rfl, rfl⟩
  | succ n ih =>
    rw [List.replicate_succ']
    exact (ih.step "early").1

/-- If none of the first rumors has been sent when the numbers come again, the next one is stored
in the place of the first. -/
theorem log_not_prefix_of_unsent {n : Nat} (hzero : UInt32.ofNat n = 0) (hpos : 0 < n) :
    ∃ s, Reachable members s ∧
      ¬ (s.hubs true).rumors.log "a" <+: (s.hubs false).rumors.log "a" ∧
      ∃ r r', (s.hubs true).rumors.message? "a" 1 = some r ∧
        (s.hubs false).rumors.message? "a" 1 = some r' ∧ r.text ≠ r'.text := by
  have hone : UInt32.ofNat ((List.replicate n "early").length + 1) = 1 := by
    rw [List.length_replicate, UInt32.ofNat_add, hzero]
    rfl
  obtain ⟨hlate, id, htask⟩ := (unsent_spec n).step "late"
  rw [hone] at htask
  have hstored : Reachable members ((unsent n).step (asks "late")) :=
    (reachable_unsent n).step (e := asks "late") fun r hr => nomatch hr
  revert hlate htask hstored
  generalize (unsent n).step (asks "late") = s
  intro hlate htask hstored
  -- the monger of the last rumor sends it, and it comes to the second node
  let late : Rumor := ⟨"a", 1, "late"⟩
  let spreads : Event Bool := .moved false moment ⟨id, .new late none, []⟩ .begin
  have hspread := hstored.step (e := spreads) htask
  have hpicks : (s.hubs false).crew.peers.pick moment.picker [] = some (address 2) := by
    rw [hlate.peers]
    decide +kernel
  have hsent : .rumor late ∈ (s.step spreads).sent := by
    refine List.mem_append_right _ (List.mem_map.2 ⟨address 2, ?_, rfl⟩)
    show address 2 ∈ (Monger.spread moment _ _ (.new late none)).sent
    unfold Monger.spread
    split
    next p hp =>
      obtain rfl := Option.some.inj (hpicks.symm.trans hp)
      exact List.mem_singleton_self _
    next hnone => exact nomatch hpicks.symm.trans hnone
  have hheard := hspread.step (e := .told true moment (.packet (address 1) (.rumor late)))
    fun r hr => Packet.rumor.inj (congrArg Packet.rumor (Option.mem_some_iff.1 hr)) ▸ hsent
  have hreader : (s.step spreads).hubs true = (new members).hubs true :=
    (change_hubs_of_ne (by decide)).trans hlate.reader
  have hkept : (((s.step spreads).step
      (.told true moment (.packet (address 1) (.rumor late)))).hubs true).rumors.log "a" =
        [late] := by
    show ((Swarm.change _ true (((s.step spreads).hubs true).obey _ _).1 _).hubs true).rumors.log
      "a" = _
    rw [change_hubs_self, hreader]
    decide +kernel
  have hwriter : (((s.step spreads).step
      (.told true moment (.packet (address 1) (.rumor late)))).hubs false).rumors =
        (s.hubs false).rumors := by
    show ((Swarm.change _ true _ _).hubs false).rumors = _
    rw [change_hubs_of_ne (by decide)]
    show ((Swarm.change _ false _ _).hubs false).rumors = _
    rw [change_hubs_self]
  -- the log of the first node begins with another text
  obtain ⟨k, rfl⟩ := Nat.exists_eq_succ_of_ne_zero (Nat.ne_of_gt hpos)
  have htexts := hlate.log
  rw [List.replicate_succ, List.cons_append] at htexts
  obtain ⟨first, rest, hlog, hfirst, -⟩ := List.map_eq_cons_iff.1 htexts
  refine ⟨_, hheard, ?_, late, first, ?_, ?_, ?_⟩
  · rw [hkept, hwriter, hlog, List.cons_prefix_cons]
    rintro ⟨hsame, -⟩
    rw [← hsame] at hfirst
    exact absurd hfirst (by decide)
  · rw [MessageStore.message?_of_ne_zero _ _ (by decide), hkept]
    rfl
  · rw [MessageStore.message?_of_ne_zero _ _ (by decide), hwriter, hlog]
    rfl
  · rw [hfirst]
    decide

/-- **Once the numbers of 32 bits come again** two nodes may have different rumors under one
number. -/
theorem exists_log_not_prefix : ∃ s, Reachable members s ∧
    ¬ (s.hubs true).rumors.log "a" <+: (s.hubs false).rumors.log "a" ∧
    ∃ r r', (s.hubs true).rumors.message? "a" 1 = some r ∧
      (s.hubs false).rumors.message? "a" 1 = some r' ∧ r.text ≠ r'.text :=
  log_not_prefix_of_unsent (n := 2 ^ 32) (by decide) (by decide)

end Pair

end Swarm
end GossipLedger
