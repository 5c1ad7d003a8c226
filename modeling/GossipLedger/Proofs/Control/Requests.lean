import GossipLedger.Control.Service
import GossipLedger.Proofs.Net.PeerList
import GossipLedger.Proofs.Node.Fleet

/-!
# Requests that fail

A request that fails leaves no trace: every node is as it was, nothing was queued and nothing
goes out.  It is not that what a handler did is undone.  A handler looks, reads and checks
first and touches a node last, and what it does last either happens or not.

Only the peers of a node are made known one after the other.  If the first of them can be
queued, the node runs, and goes on running while it learns of the others.

## Main definitions

* `Handler.outcome` — what comes of a handler, and the session afterwards.
* `Handler.Looks`, `Handler.AllOrNothing`, `Handler.Succeeds` — a handler that never changes the
  session, one that does not if it fails, and one that does not fail in a session.
* `Handler.Needs` — a handler that succeeds under a condition and else changes nothing.
* `listed` — the addresses in a text, not read yet.
* `Granted` — what a demand needs in order to be met.

## Main results

* `needs_addPeers` — all peers are made known or none.
* `allOrNothing_fulfil` — **a demand that is not met changes nothing.**
* `succeeds_fulfil_iff` — a demand is met exactly if it is granted.
* `unchanged_of_failure` — **a request that fails changes nothing**, and which requests fail.
-/

namespace GossipLedger

variable {α β : Type}

/-! ### Handlers -/

namespace Handler

/-- What comes of a handler, and the session afterwards. -/
def outcome (h : Handler α) (t : Session) : Except ControlFault α × Session := h.run.run t

theorem outcome_bind (h : Handler α) (k : α → Handler β) (t : Session) :
    outcome (h >>= k) t =
      match outcome h t with
      | (.ok a, t') => outcome (k a) t'
      | (.error f, t') => (.error f, t') := by
  unfold outcome
  rw [ExceptT.run_bind, StateT.run_bind]
  generalize h.run.run t = x
  obtain ⟨result, t'⟩ := x
  cases result <;> rfl

@[simp] theorem outcome_lift (e : Except ControlFault α) (t : Session) :
    outcome (liftM e) t = (e, t) := rfl

@[simp] theorem outcome_look (f : Registry → α) (t : Session) :
    outcome (look f) t = (.ok (f t.registry), t) := rfl

theorem outcome_withNodes (f : Registry → Registry.Outcome α) (t : Session) :
    outcome (withNodes f) t =
      ((f t.registry).1.mapError .node, { t with registry := (f t.registry).2 }) := by
  have hget : outcome get t = (.ok t, t) := rfl
  have hset (u : Session) : outcome (set u) t = (.ok ⟨⟩, u) := rfl
  unfold withNodes
  rw [outcome_bind, hget]
  dsimp only
  rw [outcome_bind, hset]
  dsimp only
  cases (f t.registry).1 <;> rfl

theorem outcome_lookUp (name : String) (t : Session) :
    outcome (lookUp name) t = ((t.registry.node name).mapError .node, t) :=
  outcome_withNodes _ t

/-- A handler that never changes the session. -/
def Looks (h : Handler α) : Prop := ∀ t, (outcome h t).2 = t

/-- A handler that leaves the session as it is if it fails. -/
def AllOrNothing (h : Handler α) : Prop := ∀ t f, (outcome h t).1 = .error f → (outcome h t).2 = t

/-- A handler does not fail in a session. -/
def Succeeds (h : Handler α) (t : Session) : Prop := ∃ a, (outcome h t).1 = .ok a

variable {h : Handler α} {k : α → Handler β} {t : Session}

/-- What only looks may come first. -/
theorem Looks.then (hlooks : Looks h) (hk : ∀ a, AllOrNothing (k a)) : AllOrNothing (h >>= k) := by
  intro t f hfail
  have ht := hlooks t
  rw [outcome_bind] at hfail ⊢
  cases heq : outcome h t with
  | mk result t' =>
    rw [heq] at ht hfail
    cases result with
    | ok a => exact (hk a t' f hfail).trans ht
    | error f' => exact ht

/-- What never fails may come last. -/
theorem AllOrNothing.then (hall : AllOrNothing h) (hk : ∀ a t, Succeeds (k a) t) :
    AllOrNothing (h >>= k) := by
  intro t f hfail
  have ht := hall t
  rw [outcome_bind] at hfail ⊢
  cases heq : outcome h t with
  | mk result t' =>
    rw [heq] at ht hfail
    cases result with
    | ok a =>
      obtain ⟨b, hb⟩ := hk a t'
      cases hb.symm.trans hfail
    | error f' => exact ht f' rfl

theorem looks_pure (a : α) : Looks (pure a : Handler α) := fun _ => rfl

theorem looks_lift (e : Except ControlFault α) : Looks (liftM e : Handler α) := fun _ => rfl

theorem looks_look (f : Registry → α) : Looks (look f) := fun _ => rfl

theorem looks_lookUp (name : String) : Looks (lookUp name) := by
  intro t
  rw [outcome_lookUp]

theorem Looks.allOrNothing (hlooks : Looks h) : AllOrNothing h := fun t _ _ => hlooks t

theorem succeeds_pure (a : α) (t : Session) : Succeeds (pure a : Handler α) t := ⟨a, rfl⟩

theorem succeeds_note (name : String) (c : NodeCommand) (sent : List Outbound) (t : Session) :
    Succeeds (note name c sent) t := ⟨(), rfl⟩

/-! ### When a handler succeeds -/

theorem succeeds_bind_iff :
    Succeeds (h >>= k) t ↔ ∃ a t', outcome h t = (.ok a, t') ∧ Succeeds (k a) t' := by
  unfold Succeeds
  rw [outcome_bind]
  cases outcome h t with
  | mk result t' => cases result <;> simp

theorem succeeds_lift_bind (e : Except ControlFault α) :
    Succeeds (liftM e >>= k) t ↔ ∃ a, e = .ok a ∧ Succeeds (k a) t := by
  rw [succeeds_bind_iff]
  simp

theorem succeeds_lookUp_bind (name : String) {k : Node → Handler β} :
    Succeeds (lookUp name >>= k) t ↔ ∃ n, t.registry.node? name = some n ∧ Succeeds (k n) t := by
  rw [succeeds_bind_iff, outcome_lookUp, Registry.node]
  cases t.registry.node? name with
  | none => simp [Except.mapError]
  | some n => simp [Except.mapError]

/-- What never fails does not matter at the end. -/
theorem succeeds_bind_of_succeeds (hk : ∀ a t, Succeeds (k a) t) :
    Succeeds (h >>= k) t ↔ Succeeds h t := by
  rw [succeeds_bind_iff]
  constructor
  · rintro ⟨a, t', heq, -⟩
    exact ⟨a, by rw [heq]⟩
  · rintro ⟨a, ha⟩
    exact ⟨a, (outcome h t).2, Prod.ext ha rfl, hk a _⟩

/-! ### What a handler needs -/

/-- A handler that succeeds where a condition holds, and changes nothing where it does not. -/
structure Needs (h : Handler α) (P : Session → Prop) : Prop where
  succeeds : ∀ t, P t → Succeeds h t
  refuses : ∀ t, ¬P t → ∃ f, outcome h t = (.error f, t)

section Needs

variable {P : Session → Prop}

theorem Needs.allOrNothing (hneeds : Needs h P) : AllOrNothing h := by
  intro t f hfail
  by_cases ht : P t
  · obtain ⟨a, ha⟩ := hneeds.succeeds t ht
    cases ha.symm.trans hfail
  · obtain ⟨f', heq⟩ := hneeds.refuses t ht
    rw [heq]

theorem Needs.succeeds_iff (hneeds : Needs h P) : Succeeds h t ↔ P t := by
  refine ⟨fun ⟨a, ha⟩ => by_contra fun ht => ?_, hneeds.succeeds t⟩
  obtain ⟨f, heq⟩ := hneeds.refuses t ht
  rw [heq] at ha
  cases ha

/-- What never fails needs nothing more. -/
theorem Needs.then (hneeds : Needs h P) (hk : ∀ a t, Succeeds (k a) t) : Needs (h >>= k) P where
  succeeds t ht := (succeeds_bind_of_succeeds hk).2 (hneeds.succeeds t ht)
  refuses t ht := by
    obtain ⟨f, heq⟩ := hneeds.refuses t ht
    exact ⟨f, by rw [outcome_bind, heq]⟩

/-- A look needs nothing. -/
theorem needs_look_bind (f : Registry → α) (hk : ∀ a, Needs (k a) P) : Needs (look f >>= k) P where
  succeeds t ht := (hk (f t.registry)).succeeds t ht
  refuses t ht := (hk (f t.registry)).refuses t ht

/-- An operation on the nodes that leaves them as they are if it fails. -/
theorem needs_withNodes {f : Registry → Registry.Outcome α} {R : Registry → Prop}
    (hok : ∀ r, R r → ∃ a, (f r).1 = .ok a)
    (herror : ∀ r, ¬R r → ∃ fault, f r = (.error fault, r)) :
    Needs (withNodes f) fun t => R t.registry where
  succeeds t ht := by
    obtain ⟨a, ha⟩ := hok t.registry ht
    exact ⟨a, by rw [outcome_withNodes, ha]; rfl⟩
  refuses t ht := by
    obtain ⟨fault, heq⟩ := herror t.registry ht
    exact ⟨.node fault, by rw [outcome_withNodes, heq]; rfl⟩

end Needs

end Handler

open Handler

/-! ### Telling a node -/

/-- A node of a given name takes commands. -/
def Attends (name : String) (r : Registry) : Prop :=
  ∃ n, r.node? name = some n ∧ n.running = true

section Telling

variable {s : Surroundings} {name : String} {t : Session}

/-- A node is told something if it runs. -/
theorem needs_inject (s : Surroundings) (name : String) (c : ClientRequest) :
    Needs (inject s name c) fun t => Attends name t.registry := by
  refine Needs.then (needs_withNodes ?_ ?_) fun sent => succeeds_note name (.client c) sent
  · rintro r ⟨n, hnode, hrunning⟩
    rcases r.tell_cases s.occasion name (.client c) with ⟨m, -, -, heq⟩ | ⟨hstopped, -⟩
    · exact ⟨_, by rw [heq]⟩
    · rw [hstopped n hnode] at hrunning
      cases hrunning
  · intro r hnot
    rcases r.tell_cases s.occasion name (.client c) with ⟨n, hnode, hrunning, -⟩ | ⟨-, hfault⟩
    · exact absurd ⟨n, hnode, hrunning⟩ hnot
    · exact hfault

/-- A node that is told something runs on. -/
theorem inject_of_attends (hattends : Attends name t.registry) (c : ClientRequest) :
    ∃ t', outcome (inject s name c) t = (.ok (), t') ∧ Attends name t'.registry := by
  obtain ⟨n, hnode, hrunning⟩ := hattends
  unfold inject
  rw [outcome_bind, outcome_withNodes]
  rcases t.registry.tell_cases s.occasion name (.client c) with ⟨m, hm, -, heq⟩ | ⟨hstopped, -⟩
  · cases hm.symm.trans hnode
    rw [heq]
    refine ⟨_, rfl, (n.handle s.occasion (.client c)).1, ?_, ?_⟩
    · exact (t.registry.node?_put name name _).trans (if_pos rfl)
    · exact ((Node.Same.refl n).handle s.occasion (.client c)).running.trans hrunning
  · rw [hstopped n hnode] at hrunning
    cases hrunning

/-- A node that runs learns of all peers. -/
theorem addPeers_of_attends (peers : List PeerAddress) (hattends : Attends name t.registry) :
    Succeeds (addPeers s name peers) t := by
  induction peers generalizing t with
  | nil => exact succeeds_pure () t
  | cons p peers ih =>
    obtain ⟨t', heq, hattends'⟩ := inject_of_attends (s := s) hattends (.addPeer p)
    -- the node runs on, so it hears of the others as well
    exact succeeds_bind_iff.2 ⟨(), t', heq, ih hattends'⟩

/-- **All peers are made known or none**: the first of them decides. -/
theorem needs_addPeers (s : Surroundings) (name : String) (peers : List PeerAddress) :
    Needs (addPeers s name peers) fun t => peers = [] ∨ Attends name t.registry where
  succeeds t ht := by
    rcases ht with rfl | hattends
    · exact succeeds_pure () t
    · exact addPeers_of_attends peers hattends
  refuses t ht := by
    obtain ⟨hne, hnot⟩ := not_or.1 ht
    cases peers with
    | nil => exact absurd rfl hne
    | cons p peers =>
      obtain ⟨f, heq⟩ := (needs_inject s name (.addPeer p)).refuses t hnot
      exact ⟨f, by rw [addPeers, outcome_bind, heq]⟩

end Telling

/-! ### Starting and stopping -/

/-- A node can be started, or found, unless there is none like it and the address cannot be
had. -/
theorem needs_start (s : Surroundings) (name : String) (address : PeerAddress)
    (peers : List PeerAddress) :
    Needs (withNodes fun r => r.start s.bind s.among s.identity s.occasion.now name address peers)
      fun t => t.registry.similar name address = [] → s.bind address ≠ none := by
  refine needs_withNodes (R := fun r => r.similar name address = [] → s.bind address ≠ none) ?_ ?_
  · intro r hhad
    rcases r.start_cases s.bind s.among s.identity s.occasion.now name address peers with
      ⟨n, -, heq⟩ | ⟨hnil, hbind, -⟩ | ⟨bound, -, -, heq⟩
    · exact ⟨n, by rw [heq]⟩
    · exact absurd hbind (hhad hnil)
    · exact ⟨_, by rw [heq]⟩
  · intro r hnot
    rcases r.start_cases s.bind s.among s.identity s.occasion.now name address peers with
      ⟨n, hmem, -⟩ | ⟨-, -, heq⟩ | ⟨bound, -, hbind, -⟩
    · refine absurd (fun hnil => ?_) hnot
      rw [hnil] at hmem
      cases hmem
    · exact ⟨_, heq⟩
    · exact absurd (fun _ => by simp [hbind]) hnot

theorem succeeds_shutdown (name : String) (running : Bool) (t : Session) :
    Succeeds (if running = true then note name .shutdown [] else pure ()) t := by
  cases running with
  | true => exact succeeds_note name .shutdown [] t
  | false => exact succeeds_pure () t

/-- A node is taken out if there is one. -/
theorem needs_remove (name : String) :
    Needs (remove name) fun t => ∃ n, t.registry.node? name = some n := by
  refine needs_look_bind _ fun running => Needs.then ?_ fun _ => succeeds_shutdown name running
  refine needs_withNodes (R := fun r => ∃ n, r.node? name = some n) ?_ ?_
  · rintro r ⟨n, hnode⟩
    rcases r.stop_cases name with ⟨hnone, -⟩ | ⟨m, -, heq⟩
    · cases hnone.symm.trans hnode
    · exact ⟨_, by rw [heq]⟩
  · intro r hnot
    rcases r.stop_cases name with ⟨-, heq⟩ | ⟨n, hnode, -⟩
    · exact ⟨_, heq⟩
    · exact absurd ⟨n, hnode⟩ hnot

/-! ### Demands -/

/-- **A demand that is not met changes nothing**: whatever is read and looked up comes before
the one thing that is done. -/
theorem allOrNothing_fulfil (s : Surroundings) (q : Request) (d : Demand String) :
    AllOrNothing (fulfil s q d) := by
  cases d with
  | checkHealth => exact (looks_look _).then fun _ => (looks_pure _).allOrNothing
  | listNodes => exact (looks_look _).then fun _ => (looks_pure _).allOrNothing
  | startNode =>
    refine (looks_lift _).then fun f => (looks_lift _).then fun name => ?_
    refine (looks_lift _).then fun text => (looks_lift _).then fun address => ?_
    refine (looks_lift _).then fun peers => ?_
    exact (needs_start s name address peers).allOrNothing.then fun n => succeeds_pure _
  | showNode name => exact (looks_lookUp name).then fun n => (looks_pure _).allOrNothing
  | stopNode name => exact (needs_remove name).allOrNothing.then fun _ => succeeds_pure _
  | sendMessage name =>
    refine (looks_lift _).then fun f => (looks_lookUp name).then fun n => ?_
    refine (looks_lift _).then fun text => ?_
    exact (needs_inject s name _).allOrNothing.then fun _ => succeeds_pure _
  | sendTransaction name =>
    refine (looks_lift _).then fun f => (looks_lookUp name).then fun n => ?_
    refine (looks_lift _).then fun input => (looks_lift _).then fun output => ?_
    refine (looks_lift _).then fun amount => ?_
    exact (needs_inject s name _).allOrNothing.then fun _ => succeeds_pure _
  | addPeers name =>
    refine (looks_lift _).then fun f => (looks_lookUp name).then fun n => ?_
    refine (looks_lift _).then fun text => (looks_lift _).then fun peers => ?_
    exact (needs_addPeers s name peers).allOrNothing.then fun _ => succeeds_pure _
  | showBalance name label => exact (looks_lookUp name).then fun n => (looks_pure _).allOrNothing

/-! ### What a demand needs -/

/-- The addresses in a text with commas, not read yet. -/
def listed (text : String) : List (List Char) :=
  ((fields ',' text.toList).map trimBlank).filter (· ≠ [])

/-- All of several things can be done exactly if each of them can. -/
theorem exists_mapM_eq_ok_iff {ε : Type} {f : α → Except ε β} {as : List α} :
    (∃ bs, as.mapM f = .ok bs) ↔ ∀ a ∈ as, ∃ b, f a = .ok b := by
  simp only [mapM_eq_ok_iff, exists_forall₂_iff]

theorem eq_nil_iff_of_mapM_eq_ok {ε : Type} {f : α → Except ε β} {as : List α} {bs : List β}
    (hok : as.mapM f = .ok bs) : bs = [] ↔ as = [] := by
  have hlength := (mapM_eq_ok_iff.1 hok).length_eq
  rw [← List.length_eq_zero_iff, ← List.length_eq_zero_iff, hlength]

/-- What a demand needs in order to be met: a body that can be read, every field, good
addresses, also each of those in a list, a node of the name, that runs where it is told
something, and an address that can be had where no node has it or the name. -/
def Granted (s : Surroundings) (r : Registry) (q : Request) : Demand String → Prop
  | .checkHealth | .listNodes => True
  | .startNode => ∃ f name text address, readBody StartForm.form q = .ok f ∧
      f.name = some name ∧ f.address = some text ∧ PeerAddress.parse text = .ok address ∧
      (∀ item ∈ listed (f.peers.getD ""), ∃ p, PeerAddress.parse (String.ofList item) = .ok p) ∧
      (r.similar name address = [] → s.bind address ≠ none)
  | .showNode name | .stopNode name | .showBalance name _ => ∃ n, r.node? name = some n
  | .sendMessage name => ∃ f, readBody MessageForm.form q = .ok f ∧ Attends name r ∧
      f.text.isSome
  | .sendTransaction name => ∃ f, readBody TransactionForm.form q = .ok f ∧ Attends name r ∧
      f.input.isSome ∧ f.output.isSome ∧ f.amount.isSome
  | .addPeers name => ∃ f text, readBody PeersForm.form q = .ok f ∧ f.peers = some text ∧
      (∀ item ∈ listed text, ∃ p, PeerAddress.parse (String.ofList item) = .ok p) ∧
      (Attends name r ∨ (∃ n, r.node? name = some n) ∧ listed text = [])

theorem require_eq_ok_iff {name : String} {x : Option α} {a : α} :
    require name x = .ok a ↔ x = some a := by
  cases x <;> simp [require]

theorem withAddress_eq_ok_iff {e : Except AddressFault α} {a : α} :
    withAddress e = .ok a ↔ e = .ok a := by
  cases e <;> simp [withAddress]

theorem exists_parseList_eq_ok_iff {text : String} :
    (∃ peers, PeerAddress.parseList text = .ok peers) ↔
      ∀ item ∈ listed text, ∃ p, PeerAddress.parse (String.ofList item) = .ok p :=
  exists_mapM_eq_ok_iff

/-- **A demand is met exactly if it is granted.** -/
theorem succeeds_fulfil_iff {s : Surroundings} {q : Request} {d : Demand String} {t : Session} :
    Succeeds (fulfil s q d) t ↔ Granted s t.registry q d := by
  cases d with
  | checkHealth => exact iff_of_true ⟨_, rfl⟩ trivial
  | listNodes => exact iff_of_true ⟨_, rfl⟩ trivial
  | startNode =>
    simp only [fulfil, Granted, succeeds_lift_bind, require_eq_ok_iff, withAddress_eq_ok_iff,
      succeeds_bind_of_succeeds fun _ => succeeds_pure _, (needs_start s _ _ _).succeeds_iff,
      ← exists_parseList_eq_ok_iff]
    constructor
    · rintro ⟨f, hread, name, hname, text, htext, address, haddress, peers, hpeers, hhad⟩
      exact ⟨f, name, text, address, hread, hname, htext, haddress, ⟨peers, hpeers⟩, hhad⟩
    · rintro ⟨f, name, text, address, hread, hname, htext, haddress, ⟨peers, hpeers⟩, hhad⟩
      exact ⟨f, hread, name, hname, text, htext, address, haddress, peers, hpeers, hhad⟩
  | showNode name => simp only [fulfil, Granted, succeeds_lookUp_bind, succeeds_pure, and_true]
  | stopNode name =>
    simp only [fulfil, Granted, succeeds_bind_of_succeeds fun _ => succeeds_pure _,
      (needs_remove name).succeeds_iff]
  | sendMessage name =>
    simp only [fulfil, Granted, succeeds_lift_bind, succeeds_lookUp_bind, require_eq_ok_iff,
      succeeds_bind_of_succeeds fun _ => succeeds_pure _, (needs_inject s name _).succeeds_iff,
      Option.isSome_iff_exists]
    constructor
    · rintro ⟨f, hread, -, -, text, htext, hattends⟩
      exact ⟨f, hread, hattends, text, htext⟩
    · rintro ⟨f, hread, ⟨n, hnode, hrunning⟩, text, htext⟩
      exact ⟨f, hread, n, hnode, text, htext, n, hnode, hrunning⟩
  | sendTransaction name =>
    simp only [fulfil, Granted, succeeds_lift_bind, succeeds_lookUp_bind, require_eq_ok_iff,
      succeeds_bind_of_succeeds fun _ => succeeds_pure _, (needs_inject s name _).succeeds_iff,
      Option.isSome_iff_exists]
    constructor
    · rintro ⟨f, hread, -, -, input, hinput, output, houtput, amount, hamount, hattends⟩
      exact ⟨f, hread, hattends, ⟨input, hinput⟩, ⟨output, houtput⟩, amount, hamount⟩
    · rintro ⟨f, hread, ⟨n, hnode, hrunning⟩, ⟨input, hinput⟩, ⟨output, houtput⟩, amount, hamount⟩
      exact ⟨f, hread, n, hnode, input, hinput, output, houtput, amount, hamount, n, hnode,
        hrunning⟩
  | addPeers name =>
    simp only [fulfil, Granted, succeeds_lift_bind, succeeds_lookUp_bind, require_eq_ok_iff,
      withAddress_eq_ok_iff, succeeds_bind_of_succeeds fun _ => succeeds_pure _,
      (needs_addPeers s name _).succeeds_iff, ← exists_parseList_eq_ok_iff]
    constructor
    · rintro ⟨f, hread, n, hnode, text, htext, peers, hpeers, hnil | hattends⟩
      -- an empty list asks nothing of a node, not even that it runs
      · have hlisted := (eq_nil_iff_of_mapM_eq_ok hpeers).1 hnil
        exact ⟨f, text, hread, htext, ⟨peers, hpeers⟩, Or.inr ⟨⟨n, hnode⟩, hlisted⟩⟩
      · exact ⟨f, text, hread, htext, ⟨peers, hpeers⟩, Or.inl hattends⟩
    · rintro ⟨f, text, hread, htext, ⟨peers, hpeers⟩, ⟨n, hnode, hrunning⟩ | ⟨⟨n, hnode⟩, hlisted⟩⟩
      · exact ⟨f, hread, n, hnode, text, htext, peers, hpeers, Or.inr ⟨n, hnode, hrunning⟩⟩
      · have hnil := (eq_nil_iff_of_mapM_eq_ok hpeers).2 hlisted
        exact ⟨f, hread, n, hnode, text, htext, peers, hpeers, Or.inl hnil⟩
  | showBalance name label =>
    simp only [fulfil, Granted, succeeds_lookUp_bind, succeeds_pure, and_true]

/-! ### Requests -/

/-- Whether a status says that all went well. -/
def ResponseStatus.Success (status : ResponseStatus) : Prop :=
  200 ≤ status.code ∧ status.code < 300

instance decidableSuccess (status : ResponseStatus) : Decidable status.Success :=
  inferInstanceAs (Decidable (_ ∧ _))

theorem ResponseStatus.success_iff {status : ResponseStatus} : status.Success ↔ status = .ok := by
  cases status <;> decide

/-- No fault comes with a status of success. -/
theorem ControlFault.not_success (f : ControlFault) : ¬f.status.Success := by
  rw [ResponseStatus.success_iff]
  intro hok
  cases f with
  | refused status failed => exact failed hok
  | missingField name => cases hok
  | badAddress fault => cases hok
  | node fault => cases fault <;> cases hok

theorem status_forMethod (a : Response) (m : Method) : (a.forMethod m).status = a.status := by
  unfold Response.forMethod
  split <;> rfl

theorem success_response_iff {q : Request} {result : Except ControlFault Json.Document} :
    (q.response result).status.Success ↔ ∃ body, result = .ok body := by
  cases result with
  | ok body =>
    rw [Request.response, status_forMethod]
    exact iff_of_true (ResponseStatus.success_iff.2 rfl) ⟨body, rfl⟩
  | error f =>
    rw [Request.response, status_forMethod]
    refine iff_of_false f.not_success ?_
    rintro ⟨body, hbody⟩
    cases hbody

theorem success_respond_iff {s : Surroundings} {r : Registry} {q : Request} :
    (respond s r q).1.status.Success ↔ Succeeds (handle s q) (.new r) :=
  success_response_iff

theorem allOrNothing_handle (s : Surroundings) (q : Request) : AllOrNothing (handle s q) :=
  (looks_lift q.demand).then fun d => allOrNothing_fulfil s q d

/-- **A request that fails changes nothing**: the nodes are as they were, nothing was queued to
any of them and nothing goes out.  A request goes well exactly if it makes a demand that is
granted, so it fails for any field that is missing, for a body that cannot be read, for one bad
address in a list, for a name that no node has and for an address that cannot be had. -/
theorem unchanged_of_failure (s : Surroundings) (r : Registry) (q : Request) :
    (¬(respond s r q).1.status.Success → (respond s r q).2 = .new r) ∧
    ((respond s r q).1.status.Success ↔ ∃ d, q.demand = .ok d ∧ Granted s r q d) := by
  constructor
  · intro hfail
    rw [success_respond_iff] at hfail
    cases hresult : (outcome (handle s q) (.new r)).1 with
    | ok body => exact absurd ⟨body, hresult⟩ hfail
    | error f => exact allOrNothing_handle s q (.new r) f hresult
  · rw [success_respond_iff]
    refine (succeeds_lift_bind q.demand).trans ?_
    simp only [succeeds_fulfil_iff]
    rfl

/-- Nothing happens besides, and every address can be had. -/
def quiet : Surroundings where
  occasion :=
    { now := 0, picker := .first, coin := false, online := true, blocks := .first, time := .epoch }
  bind := some
  among := .first
  identity := .zero
  seconds := 0

/-- One node, named `a`. -/
def loneNode : Registry := (Registry.new {}).put "a" (.start {} .zero 0 "a" Fleet.anyPort [])

/-- A request to make peers known to the node. -/
def askFor (peers : String) : Request where
  method := .post
  target := "/api/v1/nodes/a/peers"
  contentType := some "application/json"
  body := utf8 ("\x7b\"peers\":\"" ++ peers ++ "\"\x7d")

/-- A peer becomes known on its own, but not together with one that has no address. -/
theorem unchanged_after_bad_address :
    ¬(respond quiet loneNode (askFor "127.0.0.1:5001,nowhere")).1.status.Success ∧
      (respond quiet loneNode (askFor "127.0.0.1:5001,nowhere")).2 = .new loneNode ∧
      (respond quiet loneNode (askFor "127.0.0.1:5001")).2.told =
        [("a", .client (.addPeer (.v4 ⟨127, 0, 0, 1⟩ 5001)))] := by
  have hfail : ¬(respond quiet loneNode (askFor "127.0.0.1:5001,nowhere")).1.status.Success := by
    decide +kernel
  exact ⟨hfail, (unchanged_of_failure _ _ _).1 hfail, by decide +kernel⟩

end GossipLedger
