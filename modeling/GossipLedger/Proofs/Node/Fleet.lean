import GossipLedger.Node.Registry
import GossipLedger.Proofs.Catalog
import GossipLedger.Proofs.Rumor.Peers
import Mathlib.Logic.Relation

/-!
# The nodes of a process

Nodes are started, found again, taken out and stopped in any order, and those that are
registered work meanwhile.  A registry has one key for each node, the name, but no two of its
nodes share an address either: whoever asks for an address in use gets the node that has it,
and the transport does not give out an address twice.

That holds because every registered node runs, so the transport knows of all of them.  The
nodes that were taken out are kept in view for this: they have stopped and hold no address.

## Main definitions

* `Node.Same`, `Node.Works` — what of a node stays the same, and what it does by and by.
* `Binder.Fair` — a transport that refuses exactly the addresses that are taken.
* `Registry.Started` — what comes of starting a node.
* `Fleet` — a registry and the nodes that were taken out of it, with its `Step`s.
* `Fleet.Orderly` — the invariant.

## Main results

* `Node.Works.same` — a node at work keeps its name and its address and runs on.
* `Registry.start_cases`, `Registry.stop_cases`, `Registry.tell_cases` — all that an operation
  can do.
* `Fleet.Orderly.step` — every step keeps the registry in order.
* `Fleet.orderly_of_reachable` — **the registry is always in order**, no node is lost unstopped,
  and what comes of starting a node.
-/

namespace GossipLedger

/-! ### Nodes at work -/

namespace Node

variable {n n' n'' : Node}

/-- A node as it is later: what does not change while it works. -/
structure Same (n n' : Node) : Prop where
  name : n'.name = n.name
  address : n'.address = n.address
  running : n'.running = n.running

theorem Same.refl (n : Node) : Same n n := ⟨rfl, rfl, rfl⟩

theorem Same.trans (hab : Same n n') (hbc : Same n' n'') : Same n n'' :=
  ⟨hbc.name.trans hab.name, hbc.address.trans hab.address, hbc.running.trans hab.running⟩

theorem Same.with_desk (hsame : Same n n') (desk : Desk) : Same n { n' with desk := desk } :=
  ⟨hsame.name, hsame.address, hsame.running⟩

/-- The keeper and the transport get the effects of the hub; neither changes who the node is. -/
theorem Same.carryOut (hsame : Same n n') (o : Occasion) (effects : List Effect) :
    Same n (n'.carryOut o effects).1 := by
  induction effects generalizing n' with
  | nil => exact hsame
  | cons e rest ih =>
    cases e with
    | send packet => exact ih hsame
    | delegate command => exact ih (hsame.with_desk _)

theorem Same.handle (hsame : Same n n') (o : Occasion) (c : HubCommand) :
    Same n (n'.handle o c).1 := by
  have hname := (n'.hub.handles_obey o.toMoment c).name
  have haddress := (n'.hub.knows_obey o.toMoment c).address
  -- what the mongers do afterwards changes the crew only
  have hhub : Same n' { n' with hub := (n'.hub.handle o.toMoment c).1 } := ⟨hname, haddress, rfl⟩
  exact (hsame.trans hhub).carryOut o _

theorem Same.sweep (hsame : Same n n') (o : Occasion) : Same n (n'.sweep o).1 := by
  unfold Node.sweep
  split
  next =>
    refine Same.handle ?_ o _
    exact ⟨hsame.name, hsame.address, hsame.running⟩
  next => exact hsame

theorem Same.probe (hsame : Same n n') (o : Occasion) : Same n (n'.probe o).1 := by
  unfold Node.probe
  split
  next =>
    refine Same.handle ?_ o _
    exact ⟨hsame.name, hsame.address, hsame.running⟩
  next => exact hsame

/-- What the mongers send and what the keeper publishes come first, then the two timers. -/
theorem elapse_eq (o : Occasion) (hrunning : n.running = true) :
    (n.elapse o).1 =
      let spread := ({ n with hub := (n.hub.settle o.toMoment).1 }.carryOut o
        (n.hub.settle o.toMoment).2).1
      (({ spread with desk := (spread.desk.release o.now).1 }.sweep o).1.probe o).1 := by
  rw [elapse, if_pos hrunning]

theorem same_elapse (o : Occasion) (n : Node) : Same n (n.elapse o).1 := by
  cases hrunning : n.running with
  | false =>
    rw [elapse, hrunning]
    exact .refl n
  | true =>
    have hsettled : Same n { n with hub := (n.hub.settle o.toMoment).1 } := ⟨rfl, rfl, rfl⟩
    have hspread := hsettled.carryOut o (n.hub.settle o.toMoment).2
    rw [elapse_eq o hrunning]
    exact ((hspread.with_desk _).sweep o).probe o

/-- What a node does by and by: it handles a command, time passes, it mines. -/
inductive Works (n : Node) : Node → Prop
  | told {o : Occasion} {c : HubCommand} {n' : Node} {sent : List Outbound}
      (htold : n.tell? o c = some (n', sent)) : Works n n'
  | elapsed (o : Occasion) : Works n (n.elapse o).1
  | mined (o : Occasion) (fuel : Nat) (height : Option Nat) : Works n (n.mine o fuel height).1

/-- **A node at work keeps its name and its address and runs on.** -/
theorem Works.same (hworks : n.Works n') : Same n n' := by
  cases hworks with
  | @told o c _ sent htold =>
    unfold tell? at htold
    split at htold
    next =>
      have heq : (n.handle o c).1 = n' := congrArg Prod.fst (Option.some.inj htold)
      rw [← heq]
      exact (Same.refl n).handle o c
    next => cases htold
  | elapsed o => exact same_elapse o n
  | mined o fuel height => exact ⟨rfl, rfl, rfl⟩

@[simp] theorem stop_name (n : Node) : n.stop.name = n.name := by
  unfold stop
  split <;> rfl

@[simp] theorem stop_address (n : Node) : n.stop.address = n.address := by
  unfold stop
  split <;> rfl

@[simp] theorem stop_running (n : Node) : n.stop.running = false := by
  unfold stop
  split
  next => rfl
  next hstopped => simpa using hstopped

end Node

/-! ### The transport -/

/-- A transport that refuses exactly the addresses that are taken, gets the address that is
asked for, and finds a port that is not taken where any port will do. -/
structure Binder.Fair (bind : Binder) (taken : PeerAddress → Prop) : Prop where
  refuses : ∀ p, bind p = none ↔ p.port ≠ 0 ∧ taken p
  binds : ∀ p bound, bind p = some bound → p.port ≠ 0 → bound = p
  chooses : ∀ p bound, bind p = some bound → p.port = 0 →
    ∃ port, port ≠ 0 ∧ bound = p.withPort port ∧ ¬taken bound

/-- What a fair transport gives was not taken. -/
theorem Binder.Fair.free {bind : Binder} {taken : PeerAddress → Prop} (hfair : Fair bind taken)
    {p bound : PeerAddress} (hbind : bind p = some bound) : ¬taken bound := by
  intro htaken
  by_cases hport : p.port = 0
  · obtain ⟨-, -, -, hfree⟩ := hfair.chooses p bound hbind hport
    exact hfree htaken
  -- the transport would have refused an address that is taken
  · have heq := hfair.binds p bound hbind hport
    have hnone := (hfair.refuses p).2 ⟨hport, heq ▸ htaken⟩
    rw [hnone] at hbind
    cases hbind

/-- A transport that knows the addresses that are taken, and a port that is free. -/
def Binder.beside (taken : List PeerAddress) (port : UInt16) : Binder := fun p =>
  if p.port = 0 then some (p.withPort port) else if p ∈ taken then none else some p

theorem PeerAddress.port_withPort (port : UInt16) (p : PeerAddress) :
    (p.withPort port).port = port := by
  cases p <;> rfl

theorem Binder.fair_beside {addresses : List PeerAddress} {port : UInt16}
    {taken : PeerAddress → Prop} (hport : port ≠ 0) (hfree : ∀ p ∈ addresses, p.port ≠ port)
    (htaken : ∀ p, taken p ↔ p ∈ addresses) : Fair (beside addresses port) taken where
  refuses p := by
    rw [beside, htaken]
    by_cases hzero : p.port = 0
    · simp [hzero]
    · by_cases hmem : p ∈ addresses <;> simp [hzero, hmem]
  binds p bound hbind hzero := by
    rw [beside, if_neg hzero] at hbind
    split at hbind
    next => cases hbind
    next => exact (Option.some.inj hbind).symm
  chooses p bound hbind hzero := by
    rw [beside, if_pos hzero] at hbind
    cases hbind
    refine ⟨port, hport, rfl, fun hmem => ?_⟩
    exact hfree _ ((htaken _).1 hmem) (p.port_withPort port)

/-! ### Operations on a registry -/

namespace Registry

variable {r : Registry} {name : String} {address : PeerAddress} {n : Node}

theorem node?_put (r : Registry) (name other : String) (n : Node) :
    (r.put name n).node? other = if name = other then some n else r.node? other :=
  r.nodes.get?_set name other n

theorem mem_values_iff : n ∈ r.values ↔ ∃ k, r.node? k = some n := by
  unfold values node?
  simp only [List.mem_map, NameMap.get?_eq_some_iff, Prod.exists, exists_eq_right]

theorem mem_similar_iff :
    n ∈ r.similar name address ↔ n ∈ r.values ∧ (n.name = name ∨ n.address = address) := by
  simp [similar]

theorem ne_of_similar_eq_nil (hnil : r.similar name address = []) (hn : n ∈ r.values) :
    n.name ≠ name ∧ n.address ≠ address := by
  refine not_or.1 fun hlike => ?_
  have hmem := mem_similar_iff.2 ⟨hn, hlike⟩
  rw [hnil] at hmem
  cases hmem

/-- All that starting a node can do: a node is found, or the address cannot be had, or the node
is started and registered. -/
theorem start_cases (bind : Binder) (among : Picker Node) (identity : Digest) (now : Nat)
    (r : Registry) (name : String) (address : PeerAddress) (peers : List PeerAddress) :
    (∃ n ∈ r.similar name address,
      r.start bind among identity now name address peers = (.ok n, r)) ∨
    (r.similar name address = [] ∧ bind address = none ∧
      r.start bind among identity now name address peers = (.error (.cannotBind address), r)) ∨
    ∃ bound, r.similar name address = [] ∧ bind address = some bound ∧
      r.start bind among identity now name address peers =
        (.ok (.start r.settings identity now name bound peers),
          r.put name (.start r.settings identity now name bound peers)) := by
  unfold start
  cases hpick : among.pick (r.similar name address) with
  | some n => exact Or.inl ⟨n, among.mem_of_pick hpick, rfl⟩
  | none =>
    have hnil := among.pick_eq_none_iff.1 hpick
    cases hbind : bind address with
    | none => exact Or.inr (Or.inl ⟨hnil, rfl, rfl⟩)
    | some bound => exact Or.inr (Or.inr ⟨bound, hnil, rfl, rfl⟩)

/-- All that taking a node out can do. -/
theorem stop_cases (r : Registry) (name : String) :
    (r.node? name = none ∧ r.stop name = (.error (.unknown name), r)) ∨
    ∃ n, r.node? name = some n ∧
      r.stop name = (.ok n.stop, { r with nodes := r.nodes.erase name }) := by
  unfold stop node
  cases r.node? name with
  | none => exact Or.inl ⟨rfl, rfl⟩
  | some n => exact Or.inr ⟨n, rfl, rfl⟩

/-- All that telling a node something can do. -/
theorem tell_cases (o : Occasion) (r : Registry) (name : String) (c : HubCommand) :
    (∃ n, r.node? name = some n ∧ n.running = true ∧
      r.tell o name c = (.ok (n.handle o c).2, r.put name (n.handle o c).1)) ∨
    ((∀ n, r.node? name = some n → n.running = false) ∧
      ∃ fault, r.tell o name c = (.error fault, r)) := by
  unfold tell node
  cases r.node? name with
  | none => exact Or.inr ⟨fun n hn => (by cases hn), _, rfl⟩
  | some n =>
    cases hrunning : n.running with
    | true => exact Or.inl ⟨n, rfl, hrunning, by simp [Node.tell?, hrunning]⟩
    | false =>
      refine Or.inr ⟨fun m hm => Option.some.inj hm ▸ hrunning, .stopped n.name, ?_⟩
      simp [Node.tell?, hrunning]

/-- What comes of starting a node of a given name at a given address: a registered node that has
one of the two is found, or one of the name, which nobody had, is registered, or the address
is taken `elsewhere`. -/
inductive Started (r : Registry) (elsewhere : PeerAddress → Prop) (name : String)
    (address : PeerAddress) : Outcome Node → Prop
  | found {n : Node} (hmem : n ∈ r.values) (hlike : n.name = name ∨ n.address = address) :
      Started r elsewhere name address (.ok n, r)
  | added {n : Node} (hname : n.name = name) (hfree : r.node? name = none)
      (hsize : (r.put name n).size = r.size + 1) :
      Started r elsewhere name address (.ok n, r.put name n)
  | refused (htaken : elsewhere address) :
      Started r elsewhere name address (.error (.cannotBind address), r)

end Registry

/-! ### Registries over time -/

/-- A registry, and the nodes that were taken out of it, the last one first. -/
structure Fleet where
  registry : Registry
  retired : List Node

namespace Fleet

open Registry (Started)

variable {f f' : Fleet} {settings : Settings} {name : String} {n : Node}

/-- Whether one of the nodes runs and takes packets at an address. -/
def Holds (f : Fleet) (p : PeerAddress) : Prop :=
  ∃ n, (n ∈ f.registry.values ∨ n ∈ f.retired) ∧ n.running = true ∧ n.address = p

/-- A node is started, which the transport allows unless the address is taken, be it
`elsewhere`; or one is taken out, or all are; or one works. -/
inductive Step (f : Fleet) : Fleet → Prop
  | start {bind : Binder} {elsewhere : PeerAddress → Prop}
      (hfair : bind.Fair fun p => f.Holds p ∨ elsewhere p) (among : Picker Node)
      (identity : Digest) (now : Nat) (name : String) (address : PeerAddress)
      (peers : List PeerAddress) :
      Step f ⟨(f.registry.start bind among identity now name address peers).2, f.retired⟩
  | stop (name : String) :
      Step f ⟨(f.registry.stop name).2, (f.registry.stop name).1.toOption.toList ++ f.retired⟩
  | stopAll : Step f ⟨f.registry.stopAll.1, f.registry.stopAll.2 ++ f.retired⟩
  | work {name : String} {n n' : Node} (hnode : f.registry.node? name = some n)
      (hworks : n.Works n') : Step f ⟨f.registry.put name n', f.retired⟩

/-- What becomes of a registry without nodes. -/
def Reachable (settings : Settings) : Fleet → Prop :=
  Relation.ReflTransGen Step ⟨.new settings, []⟩

/-- **A registry in order**: a node is registered under its own name and runs, no two nodes have
one address, and the nodes that were taken out have stopped. -/
structure Orderly (f : Fleet) : Prop where
  named : ∀ k n, f.registry.node? k = some n → n.name = k
  apart : ∀ k n, f.registry.node? k = some n → ∀ k' n', f.registry.node? k' = some n' →
    n.address = n'.address → k = k'
  running : ∀ k n, f.registry.node? k = some n → n.running = true
  stopped : ∀ n ∈ f.retired, n.running = false

/-- A registered node stays registered as it is but for its work, or it is taken out and
stopped. -/
def Accounts (f f' : Fleet) : Prop :=
  ∀ k n, f.registry.node? k = some n →
    (∃ n', f'.registry.node? k = some n' ∧ n.Same n') ∨
    (f'.registry.node? k = none ∧ ∃ n' ∈ f'.retired,
      n'.name = n.name ∧ n'.address = n.address ∧ n'.running = false)

theorem orderly_new (settings : Settings) : Orderly ⟨.new settings, []⟩ where
  named k n hnode := by cases hnode
  apart k n hnode := by cases hnode
  running k n hnode := by cases hnode
  stopped n hn := by cases hn

/-- A running node may be put under its name if nobody else has its address. -/
theorem Orderly.put (horderly : f.Orderly) (hname : n.name = name) (hrunning : n.running = true)
    (hother : ∀ k m, f.registry.node? k = some m → m.address = n.address → k = name) :
    Orderly ⟨f.registry.put name n, f.retired⟩ where
  named k m hnode := by
    rw [Registry.node?_put] at hnode
    split at hnode
    next hk => cases hnode; exact hname.trans hk
    next => exact horderly.named k m hnode
  apart k m hnode k' m' hnode' haddress := by
    rw [Registry.node?_put] at hnode hnode'
    split at hnode
    next hk =>
      cases hnode
      split at hnode'
      next hk' => exact hk.symm.trans hk'
      next => exact hk.symm.trans (hother k' m' hnode' haddress.symm).symm
    next =>
      split at hnode'
      next hk' =>
        cases hnode'
        exact (hother k m hnode haddress).trans hk'
      next => exact horderly.apart k m hnode k' m' hnode' haddress
  running k m hnode := by
    rw [Registry.node?_put] at hnode
    split at hnode
    next => cases hnode; exact hrunning
    next => exact horderly.running k m hnode
  stopped := horderly.stopped

/-- A registered node may be replaced by what its work makes of it. -/
theorem Orderly.work (horderly : f.Orderly) {n' : Node} (hnode : f.registry.node? name = some n)
    (hsame : n.Same n') : Orderly ⟨f.registry.put name n', f.retired⟩ := by
  refine horderly.put (hsame.name.trans (horderly.named name n hnode))
    (hsame.running.trans (horderly.running name n hnode)) fun k m hm haddress => ?_
  exact horderly.apart k m hm name n hnode (haddress.trans hsame.address)

/-- Fewer nodes are in order if those that were taken out have stopped. -/
theorem Orderly.fewer (horderly : f.Orderly)
    (hfewer : ∀ k n, f'.registry.node? k = some n → f.registry.node? k = some n)
    (hstopped : ∀ n ∈ f'.retired, n.running = false) : f'.Orderly where
  named k n hnode := horderly.named k n (hfewer k n hnode)
  apart k n hnode k' n' hnode' :=
    horderly.apart k n (hfewer k n hnode) k' n' (hfewer k' n' hnode')
  running k n hnode := horderly.running k n (hfewer k n hnode)
  stopped := hstopped

/-- What comes of starting a node while the registry is in order.  All addresses in use belong
to registered nodes, so the transport only refuses one that is taken elsewhere. -/
theorem Orderly.started (horderly : f.Orderly) {bind : Binder} {elsewhere : PeerAddress → Prop}
    (hfair : bind.Fair fun p => f.Holds p ∨ elsewhere p) (among : Picker Node)
    (identity : Digest) (now : Nat) (name : String) (address : PeerAddress)
    (peers : List PeerAddress) :
    Started f.registry elsewhere name address
      (f.registry.start bind among identity now name address peers) := by
  rcases Registry.start_cases bind among identity now f.registry name address peers with
    ⟨n, hmem, heq⟩ | ⟨hnil, hbind, heq⟩ | ⟨bound, hnil, hbind, heq⟩
  · rw [heq]
    obtain ⟨hvalue, hlike⟩ := Registry.mem_similar_iff.1 hmem
    exact .found hvalue hlike
  · rw [heq]
    refine .refused ?_
    rcases ((hfair.refuses address).1 hbind).2 with ⟨n, hn | hn, hrunning, haddress⟩ | htaken
    · exact absurd haddress (Registry.ne_of_similar_eq_nil hnil hn).2
    · rw [horderly.stopped n hn] at hrunning
      cases hrunning
    · exact htaken
  · rw [heq]
    have hfree : f.registry.node? name = none := by
      cases hnode : f.registry.node? name with
      | none => rfl
      | some n =>
        have hn := Registry.mem_values_iff.2 ⟨name, hnode⟩
        exact absurd (horderly.named name n hnode) (Registry.ne_of_similar_eq_nil hnil hn).1
    -- nobody has the name, so the new node takes nobody's place
    refine .added rfl hfree (Catalog.size_put ?_)
    rw [NameMap.contains_eq]
    exact Option.isSome_eq_false_iff.2 (Option.isNone_iff_eq_none.2 hfree)

/-- **Every step keeps the registry in order.** -/
theorem Orderly.step (horderly : f.Orderly) (hstep : Step f f') : f'.Orderly := by
  cases hstep with
  | @start bind elsewhere hfair among identity now name address peers =>
    rcases Registry.start_cases bind among identity now f.registry name address peers with
      ⟨n, -, heq⟩ | ⟨-, -, heq⟩ | ⟨bound, -, hbind, heq⟩
    · rw [heq]
      exact horderly
    · rw [heq]
      exact horderly
    · rw [heq]
      refine horderly.put rfl rfl fun k m hm haddress => ?_
      -- the transport does not give out the address of a registered node
      refine absurd (Or.inl ⟨m, Or.inl ?_, horderly.running k m hm, haddress⟩) (hfair.free hbind)
      exact Registry.mem_values_iff.2 ⟨k, hm⟩
  | stop name =>
    rcases f.registry.stop_cases name with ⟨-, heq⟩ | ⟨n, hnode, heq⟩
    · rw [heq]
      exact horderly
    · rw [heq]
      refine horderly.fewer (fun k m hm => ?_) fun m hm => ?_
      · rw [Registry.node?, NameMap.get?_erase] at hm
        split at hm
        next => cases hm
        next => exact hm
      · rcases List.mem_cons.1 hm with rfl | hm
        · exact n.stop_running
        · exact horderly.stopped m hm
  | stopAll =>
    refine horderly.fewer (fun k m hm => by cases hm) fun m hm => ?_
    rcases List.mem_append.1 hm with hm | hm
    · obtain ⟨n, -, rfl⟩ := List.mem_map.1 hm
      exact n.stop_running
    · exact horderly.stopped m hm
  | work hnode hworks => exact horderly.work hnode hworks.same

/-- **No node is lost unstopped.** -/
theorem Orderly.accounts (horderly : f.Orderly) (hstep : Step f f') : f.Accounts f' := by
  intro k n hnode
  cases hstep with
  | @start bind elsewhere hfair among identity now name address peers =>
    refine Or.inl ⟨n, ?_, .refl n⟩
    have hstarted := horderly.started hfair among identity now name address peers
    generalize f.registry.start bind among identity now name address peers = outcome at hstarted
    cases hstarted with
    | found hmem hlike => exact hnode
    | added hname hfree hsize =>
      rw [Registry.node?_put, if_neg, hnode]
      rintro rfl
      rw [hfree] at hnode
      cases hnode
    | refused htaken => exact hnode
  | stop name =>
    rcases f.registry.stop_cases name with ⟨-, heq⟩ | ⟨m, hm, heq⟩
    · rw [heq]
      exact Or.inl ⟨n, hnode, .refl n⟩
    · rw [heq]
      by_cases hk : name = k
      · subst hk
        cases hm.symm.trans hnode
        refine Or.inr ⟨?_, n.stop, List.mem_cons_self, n.stop_name, n.stop_address, n.stop_running⟩
        rw [Registry.node?, NameMap.get?_erase, if_pos rfl]
      · refine Or.inl ⟨n, ?_, .refl n⟩
        rw [Registry.node?, NameMap.get?_erase, if_neg hk]
        exact hnode
  | stopAll =>
    have hmem := List.mem_map_of_mem (f := Node.stop) (Registry.mem_values_iff.2 ⟨k, hnode⟩)
    exact Or.inr ⟨rfl, n.stop, List.mem_append_left _ hmem, n.stop_name, n.stop_address,
      n.stop_running⟩
  | @work name m m' hm hworks =>
    refine Or.inl ?_
    by_cases hk : name = k
    · subst hk
      cases hm.symm.trans hnode
      exact ⟨m', by rw [Registry.node?_put, if_pos rfl], hworks.same⟩
    · exact ⟨n, by rw [Registry.node?_put, if_neg hk, hnode], .refl n⟩

/-- No two registered nodes have one name or one address. -/
theorem Orderly.pairwise_values (horderly : f.Orderly) :
    f.registry.values.Pairwise fun n m => n.name ≠ m.name ∧ n.address ≠ m.address := by
  refine List.pairwise_map.2 (f.registry.nodes.sorted.imp_of_mem ?_)
  rintro ⟨k, n⟩ ⟨k', m⟩ hn hm (hlt : k < k')
  have hnode : f.registry.node? k = some n := NameMap.get?_eq_some_iff.2 hn
  have hnode' : f.registry.node? k' = some m := NameMap.get?_eq_some_iff.2 hm
  have hne : k ≠ k' := fun heq => String.lt_irrefl k' (heq ▸ hlt)
  constructor
  · rw [horderly.named k n hnode, horderly.named k' m hnode']
    exact hne
  · exact fun haddress => hne (horderly.apart k n hnode k' m hnode' haddress)

/-- **The registry is always in order**: every node is registered under its own name and runs,
no two have one name or one address, and those that were taken out have stopped.  A step takes
no node out without stopping it.  Starting a node gives one that has the name or the address;
unless it is registered already or cannot be had, it is the only one that is added. -/
theorem orderly_of_reachable (hreach : Reachable settings f) :
    f.Orderly ∧
    (f.registry.values.Pairwise fun n m => n.name ≠ m.name ∧ n.address ≠ m.address) ∧
    (∀ f', Step f f' → f.Accounts f') ∧
    ∀ (bind : Binder) (elsewhere : PeerAddress → Prop),
      (bind.Fair fun p => f.Holds p ∨ elsewhere p) →
      ∀ (among : Picker Node) (identity : Digest) (now : Nat) (name : String)
        (address : PeerAddress) (peers : List PeerAddress),
        Started f.registry elsewhere name address
          (f.registry.start bind among identity now name address peers) := by
  have horderly : f.Orderly := by
    induction hreach with
    | refl => exact orderly_new settings
    | tail hreach hstep ih => exact ih.step hstep
  refine ⟨horderly, horderly.pairwise_values, fun f' hstep => horderly.accounts hstep, ?_⟩
  intro bind elsewhere hfair among identity now name address peers
  exact horderly.started hfair among identity now name address peers

/-! ### A run -/

/-- In an orderly fleet the addresses in use are those of the registered nodes. -/
theorem Orderly.holds_iff (horderly : f.Orderly) {p : PeerAddress} :
    f.Holds p ↔ p ∈ f.registry.values.map Node.address := by
  rw [List.mem_map]
  constructor
  · rintro ⟨n, hn | hn, hrunning, haddress⟩
    · exact ⟨n, hn, haddress⟩
    · rw [horderly.stopped n hn] at hrunning
      cases hrunning
  · rintro ⟨n, hn, haddress⟩
    obtain ⟨k, hnode⟩ := Registry.mem_values_iff.1 hn
    exact ⟨n, Or.inl hn, horderly.running k n hnode, haddress⟩

/-- A transport that knows the addresses in use and a free port is fair. -/
theorem Orderly.fair_beside (horderly : f.Orderly) (port : UInt16) (hport : port ≠ 0)
    (hfree : ∀ p ∈ f.registry.values.map Node.address, p.port ≠ port) :
    (Binder.beside (f.registry.values.map Node.address) port).Fair fun p =>
      f.Holds p ∨ False := by
  refine Binder.fair_beside hport hfree fun p => ?_
  rw [or_false]
  exact horderly.holds_iff

/-- Any port of this machine. -/
def anyPort : PeerAddress := .v4 ⟨127, 0, 0, 1⟩ 0

/-- A node is started in a fleet, at a given port if any will do. -/
def started (f : Fleet) (port : UInt16) (name : String) (address : PeerAddress) : Fleet :=
  let bind := Binder.beside (f.registry.values.map Node.address) port
  ⟨(f.registry.start bind .first .zero 0 name address []).2, f.retired⟩

/-- Two nodes that were started one after the other. -/
def pair : Fleet := (started ⟨.new {}, []⟩ 5000 "b" anyPort).started 5001 "a" anyPort

theorem reachable_pair : Reachable {} pair := by
  have hempty : Orderly ⟨.new {}, []⟩ := orderly_new {}
  have hone : Step ⟨.new {}, []⟩ (started ⟨.new {}, []⟩ 5000 "b" anyPort) :=
    .start (hempty.fair_beside 5000 (by decide) (by decide)) .first .zero 0 "b" anyPort []
  have hfree : ∀ p ∈ (started ⟨.new {}, []⟩ 5000 "b" anyPort).registry.values.map Node.address,
      p.port ≠ 5001 := by
    decide +kernel
  have htwo : Step (started ⟨.new {}, []⟩ 5000 "b" anyPort) pair :=
    .start ((hempty.step hone).fair_beside 5001 (by decide) hfree) .first .zero 0 "a" anyPort []
  exact (Relation.ReflTransGen.single hone).tail htwo

/-- Somebody asks for a node at the address of the first of two, and gets that one. -/
theorem found_beside_pair :
    pair.registry.names = ["a", "b"] ∧ pair.Orderly ∧
    Started pair.registry (fun _ => False) "c" (anyPort.withPort 5000)
      (pair.registry.start (.beside (pair.registry.values.map Node.address) 5002) .first .zero 0
        "c" (anyPort.withPort 5000) []) ∧
    (pair.registry.start (.beside (pair.registry.values.map Node.address) 5002) .first .zero 0
      "c" (anyPort.withPort 5000) []).1.toOption.map Node.name = some "b" := by
  have horder := orderly_of_reachable reachable_pair
  have hfair := horder.1.fair_beside 5002 (by decide) (by decide +kernel)
  refine ⟨by decide +kernel, horder.1, ?_, by decide +kernel⟩
  exact horder.2.2.2 _ _ hfair .first .zero 0 "c" (anyPort.withPort 5000) []

end Fleet

end GossipLedger
