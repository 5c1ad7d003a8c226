import GossipLedger.Proofs.Rumor.Peers
import GossipLedger.Proofs.Swarm
import Mathlib.Data.List.Induction

/-!
# Peers that are given up

A node gives a peer up when a monger or the route timer has waited for it too often.  Until the
peer sends something again or a client names it, it is not known, and neither a monger nor a
sweep addresses it.  The route timer may: a peer that it probes can be given up by a monger in
the meantime, and it is then probed until the timer gives it up as well.

## Main definitions

* `Swarm.addressed` — the peers that a node addresses unasked.
* `Swarm.Evicted` — a peer was given up and has not become known again.
* `Swarm.EvictsForGood` — no peer that was given up is addressed in a run.

## Main results

* `Swarm.evicted_iff` — a peer was given up if it was known once and is not known now.
* `Swarm.addressed_mem` — whom a node addresses it knows, apart from a peer that it probes again.
* `Swarm.evictsForGood_iff` — **peers stay given up exactly in the runs in which no peer is
  probed again that is not known any more.**
* `Swarm.Silent.probes_evicted` — a run in which one is.
-/

namespace GossipLedger
namespace Swarm

variable {ι : Type}

/-- The node that an event happens to. -/
def Event.node : Event ι → ι
  | .told i _ _ => i
  | .moved i _ _ _ => i
  | .left i => i

/-- The peers that a node addresses unasked: those that mongers send to, the one that gets a
status of a sweep, and the one that is probed. -/
def addressed (s : Swarm ι) : Event ι → List PeerAddress
  | .told i w .antiEntropy => Hub.targets ((s.hubs i).antiEntropy w).2
  | .told i w .routeTick => Hub.targets ((s.hubs i).routeTick w).2
  | .told _ _ _ => []
  | .moved i w t m => (t.run w (s.hubs i).settings.monger (s.hubs i).crew.peers m).2.sent
  | .left _ => []

section Events

variable [DecidableEq ι]

/-- The peer that an event makes known to a node, unless it is the node itself. -/
def Event.names? (i : ι) : Event ι → Option PeerAddress
  | .told j _ c => if j = i then c.names? else none
  | _ => none

/-- A peer becomes known to a node by traffic or by a client. -/
def Event.Adds (members : ι → Member) (i : ι) (p : PeerAddress) (e : Event ι) : Prop :=
  e.names? i = some p ∧ p ≠ (members i).address

/-- The peers that a node knows after a sequence of events. -/
def known (members : ι → Member) (es : List (Event ι)) (i : ι) : PeerSet :=
  (((new members).run es).hubs i).peers

/-- A peer was given up and has not become known by traffic or by a client since. -/
def Evicted (members : ι → Member) (es : List (Event ι)) (i : ι) (p : PeerAddress) : Prop :=
  ∃ before e later, es = before ++ e :: later ∧ p ∈ known members before i ∧
    p ∉ known members (before ++ [e]) i ∧ ∀ a ∈ later, ¬ a.Adds members i p

/-- No peer that was given up is addressed. -/
def EvictsForGood (members : ι → Member) (es : List (Event ι)) : Prop :=
  ∀ before e later, es = before ++ e :: later →
    ∀ p ∈ ((new members).run before).addressed e, ¬ Evicted members (before ++ [e]) e.node p

variable {members : ι → Member} {s : Swarm ι} {es : List (Event ι)} {i : ι} {p : PeerAddress}

/-! ### Steps and runs -/

/-- **Who is known after an event.** -/
theorem knows_step (s : Swarm ι) (e : Event ι) (i : ι) :
    (s.hubs i).Knows (e.names? i) ((s.step e).hubs i) := by
  have hidle : (s.hubs i).Knows none (s.hubs i) := Hub.SamePeers.knows (.refl _)
  cases e with
  | told j w c =>
    show (s.hubs i).Knows (if j = i then c.names? else none) ((s.change j _ _).hubs i)
    by_cases hji : j = i
    · subst hji
      rw [if_pos rfl, change_hubs_self]
      exact (s.hubs j).knows_obey w c
    · rw [if_neg hji, change_hubs_of_ne (Ne.symm hji)]
      exact hidle
  | moved j w t m =>
    show (s.hubs i).Knows none ((s.change j _ _).hubs i)
    by_cases hji : j = i
    · subst hji
      rw [change_hubs_self]
      have hturn := t.run_sent w (s.hubs j).settings.monger (s.hubs j).crew.peers m
      exact ⟨rfl, fun p hp => (nomatch hp), fun p hp => Or.inl (hturn.peers p hp),
        fun p hp => Or.inl hp⟩
    · rw [change_hubs_of_ne (Ne.symm hji)]
      exact hidle
  | left j =>
    show (s.hubs i).Knows none ((s.change j _ _).hubs i)
    by_cases hji : j = i
    · subst hji
      rw [change_hubs_self]
      exact Hub.SamePeers.knows ⟨rfl, rfl, rfl⟩
    · rw [change_hubs_of_ne (Ne.symm hji)]
      exact hidle

theorem run_append (s : Swarm ι) (es es' : List (Event ι)) :
    s.run (es ++ es') = (s.run es).run es' := List.foldl_append

theorem run_concat (s : Swarm ι) (es : List (Event ι)) (e : Event ι) :
    s.run (es ++ [e]) = (s.run es).step e := run_append s es [e]

/-- Nodes stay where they are. -/
theorem address_run (members : ι → Member) (es : List (Event ι)) (i : ι) :
    (((new members).run es).hubs i).address = (members i).address := by
  induction es using List.reverseRecOn with
  | nil => rfl
  | append_singleton es e ih =>
    rw [run_concat]
    exact (knows_step _ e i).address.trans ih

/-- A peer that an event adds is known. -/
theorem known_of_adds {e : Event ι} (he : e.Adds members i p) :
    p ∈ known members (es ++ [e]) i := by
  unfold known
  rw [run_concat]
  exact (knows_step _ e i).knows p he.1 (address_run members es i ▸ he.2)

/-- A peer becomes known only by an event that adds it. -/
theorem known_or_adds {e : Event ι} (hp : p ∈ known members (es ++ [e]) i) :
    p ∈ known members es i ∨ e.Adds members i p := by
  unfold known at hp
  rw [run_concat] at hp
  refine ((knows_step _ e i).peers p hp).imp_right fun hadds => ?_
  rw [address_run] at hadds
  exact hadds

/-- A peer that is not known stays so until it is added. -/
theorem not_known_of_not_adds (hp : p ∉ known members es i) {later : List (Event ι)}
    (hlater : ∀ a ∈ later, ¬ a.Adds members i p) : p ∉ known members (es ++ later) i := by
  induction later using List.reverseRecOn with
  | nil => rwa [List.append_nil]
  | append_singleton later e ih =>
    intro hknown
    rw [← List.append_assoc] at hknown
    rcases known_or_adds hknown with hknown | hadds
    · exact ih (fun a ha => hlater a (List.mem_append_left _ ha)) hknown
    · exact hlater e (List.mem_append_right _ (List.mem_singleton_self e)) hadds

/-- **A peer was given up if it was known once and is not known now.** -/
theorem evicted_iff : Evicted members es i p ↔
    p ∉ known members es i ∧ ∃ before, before <+: es ∧ p ∈ known members before i := by
  constructor
  · rintro ⟨before, e, later, rfl, hknown, hgone, hlater⟩
    refine ⟨?_, before, List.prefix_append _ _, hknown⟩
    have hstays := not_known_of_not_adds hgone hlater
    rwa [List.append_assoc, List.singleton_append] at hstays
  · induction es using List.reverseRecOn with
    | nil =>
      rintro ⟨hgone, before, hbefore, hknown⟩
      rw [List.prefix_nil.1 hbefore] at hknown
      exact absurd hknown hgone
    | append_singleton es e ih =>
      rintro ⟨hgone, before, hbefore, hknown⟩
      by_cases hlast : p ∈ known members es i
      · exact ⟨es, e, [], rfl, hlast, hgone, fun a ha => nomatch ha⟩
      · -- it was given up before, and the last event has not added it
        rcases List.prefix_concat_iff.1 hbefore with rfl | hbefore
        · exact absurd hknown hgone
        · obtain ⟨first, a, later, rfl, hthere, hleft, hlater⟩ := ih ⟨hlast, before, hbefore, hknown⟩
          refine ⟨first, a, later ++ [e], by rw [List.append_assoc, List.cons_append], hthere, hleft,
            fun b hb => ?_⟩
          rcases List.mem_append.1 hb with hb | hb
          · exact hlater b hb
          · rw [List.mem_singleton.1 hb]
            exact fun hadds => hgone (known_of_adds hadds)

/-- A peer that is probed was known once. -/
theorem known_of_probed (hp : (((new members).run es).hubs i).probe.peer = some p) :
    ∃ before, before <+: es ∧ p ∈ known members before i := by
  induction es using List.reverseRecOn with
  | nil => exact nomatch hp
  | append_singleton es e ih =>
    rw [run_concat] at hp
    rcases (knows_step _ e i).probed p hp with hprobed | hknown
    · obtain ⟨before, hbefore, hthere⟩ := ih hprobed
      exact ⟨before, hbefore.trans (List.prefix_append _ _), hthere⟩
    · refine ⟨es ++ [e], List.prefix_rfl, ?_⟩
      unfold known
      rw [run_concat]
      exact hknown

/-! ### Whom a node addresses -/

/-- **Whom a node addresses it knows**, also after the event, apart from a peer that it probes
again. -/
theorem addressed_mem {e : Event ι} (hp : p ∈ s.addressed e) :
    p ∈ ((s.step e).hubs e.node).peers ∨
      (∃ w, e = .told e.node w .routeTick) ∧ (s.hubs e.node).Reprobes p ∧
        ((s.step e).hubs e.node).peers = (s.hubs e.node).peers := by
  cases e with
  | told i w c =>
    have hself : (s.step (.told i w c)).hubs i = ((s.hubs i).obey w c).1 := change_hubs_self
    show p ∈ ((s.step (.told i w c)).hubs i).peers ∨ _ ∧ _ ∧
      ((s.step (.told i w c)).hubs i).peers = _
    rw [hself]
    cases c with
    | packet sender packet => exact nomatch hp
    | client request => exact nomatch hp
    | antiEntropy =>
      obtain ⟨hsame, htargets⟩ := (s.hubs i).targets_antiEntropy w
      exact Or.inl (hsame.peers ▸ htargets p hp)
    | routeTick =>
      obtain ⟨-, ⟨q, hagain, hsame, htargets⟩ | ⟨-, htargets⟩⟩ := (s.hubs i).targets_routeTick w
      · have hpq : p ∈ Hub.targets ((s.hubs i).routeTick w).2 := hp
        rw [htargets] at hpq
        obtain rfl := List.mem_singleton.1 hpq
        exact Or.inr ⟨⟨w, rfl⟩, hagain, hsame⟩
      · exact Or.inl (htargets p hp)
  | moved i w t m =>
    have hturn := t.run_sent w (s.hubs i).settings.monger (s.hubs i).crew.peers m
    have hself : ((s.step (.moved i w t m)).hubs i).peers =
        (t.run w (s.hubs i).settings.monger (s.hubs i).crew.peers m).2.peers :=
      congrArg Hub.peers change_hubs_self
    left
    show p ∈ ((s.step (.moved i w t m)).hubs i).peers
    rw [hself]
    exact hturn.sent p hp
  | left i => exact nomatch hp

/-- A peer that is probed again is addressed. -/
theorem addressed_of_reprobes {w : Moment} (hp : (s.hubs i).Reprobes p) :
    p ∈ s.addressed (.told i w .routeTick) ∧
      ((s.step (.told i w .routeTick)).hubs i).peers = (s.hubs i).peers := by
  have hself : (s.step (.told i w .routeTick)).hubs i = ((s.hubs i).routeTick w).1 :=
    change_hubs_self
  obtain ⟨-, ⟨q, hagain, hsame, htargets⟩ | ⟨hnone, -⟩⟩ := (s.hubs i).targets_routeTick w
  · obtain rfl : p = q := Option.some.inj (hp.1.symm.trans hagain.1)
    refine ⟨?_, hself ▸ hsame⟩
    show p ∈ Hub.targets ((s.hubs i).routeTick w).2
    rw [htargets]
    exact List.mem_singleton_self p
  · exact absurd hp (hnone p)

/-- **Peers stay given up exactly in the runs in which no peer is probed again that is not known
any more.**  Mongers and sweeps address known peers in every run.  A monger that looks for a peer
sends to it in the same event here, as it does if the transport has room; a `Shift` shows one that
is held up in between, and then the peer may be given up before the rumor is on its way. -/
theorem evictsForGood_iff (members : ι → Member) (es : List (Event ι)) :
    (∀ before e later, es = before ++ e :: later → (∀ w, e ≠ .told e.node w .routeTick) →
      ∀ p ∈ ((new members).run before).addressed e,
        p ∈ known members (before ++ [e]) e.node ∧ ¬ Evicted members (before ++ [e]) e.node p) ∧
    (EvictsForGood members es ↔
      ∀ before i w later, es = before ++ .told i w .routeTick :: later →
        ∀ p, (((new members).run before).hubs i).Reprobes p → p ∈ known members before i) := by
  have hknown : ∀ before e p, p ∈ ((new members).run before).addressed e →
      p ∈ known members (before ++ [e]) e.node ∨
        (∃ w, e = .told e.node w .routeTick) ∧
          (((new members).run before).hubs e.node).Reprobes p ∧
          known members (before ++ [e]) e.node = known members before e.node := by
    intro before e p hp
    unfold known
    rw [run_concat]
    exact addressed_mem hp
  refine ⟨fun before e later _ hother p hp => ?_, ⟨fun hgood before i w later hes p hagain => ?_,
    fun hprobes before e later hes p hp => ?_⟩⟩
  · rcases hknown before e p hp with hthere | ⟨⟨w, htick⟩, -⟩
    · exact ⟨hthere, fun hevicted => (evicted_iff.1 hevicted).1 hthere⟩
    · exact absurd htick (hother w)
  · -- a peer that is probed was known, so it was given up if it is not known now
    obtain ⟨haddressed, hsame⟩ := addressed_of_reprobes (w := w) hagain
    by_contra hgone
    obtain ⟨first, hfirst, hthere⟩ := known_of_probed hagain.1
    have hstays : p ∉ known members (before ++ [.told i w .routeTick]) i := by
      unfold known
      rw [run_concat, hsame]
      exact hgone
    exact hgood before _ later hes p haddressed
      (evicted_iff.2 ⟨hstays, first, hfirst.trans (List.prefix_append _ _), hthere⟩)
  · intro hevicted
    obtain ⟨hgone, -⟩ := evicted_iff.1 hevicted
    rcases hknown before e p hp with hthere | ⟨⟨w, htick⟩, hagain, hsame⟩
    · exact hgone hthere
    · rw [hsame] at hgone
      rw [htick] at hes
      exact hgone (hprobes before e.node w later hes p hagain)

end Events

/-! ### A silent peer -/

namespace Silent

/-- A node with one peer, which never answers. -/
def members (_ : Unit) : Member where
  name := "a"
  address := Pair.address 1
  settings := { maxRetries := 2 }
  peers := .ofList [Pair.address 2]

def moment (now : Nat) : Moment := ⟨now, .first, true, true⟩

/-- The monger of the node's only rumor, waiting for the peer. -/
def waiting (retries deadline : Nat) : Task :=
  ⟨1, ⟨⟨"a", 1, "text"⟩, none, [Pair.address 2], some (Pair.address 2), retries,
    .waiting deadline⟩, []⟩

/-- The peer is probed and gets a rumor.  The monger sends the rumor again and then gives the
peer up. -/
def givesUp : List (Event Unit) :=
  [.told () (moment 0) .routeTick, .told () (moment 0) (.client (.rumor "text")),
    .moved () (moment 0) ⟨1, .new ⟨"a", 1, "text"⟩ none, []⟩ .begin,
    .moved () (moment 1000) (waiting 0 1000) .expire,
    .moved () (moment 2000) (waiting 1 2000) .expire]

/-- **The peer is probed after it was given up.** -/
theorem probes_evicted :
    (new members).AllowsAll (givesUp ++ [.told () (moment 3000) .routeTick]) ∧
      ¬ EvictsForGood members (givesUp ++ [.told () (moment 3000) .routeTick]) := by
  refine ⟨by decide +kernel, fun hgood => ?_⟩
  refine hgood givesUp (.told () (moment 3000) .routeTick) [] rfl (Pair.address 2)
    (by decide +kernel) ?_
  refine ⟨givesUp.take 4, .moved () (moment 2000) (waiting 1 2000) .expire,
    [.told () (moment 3000) .routeTick], rfl, by decide +kernel, by decide +kernel, fun a ha => ?_⟩
  rw [List.mem_singleton.1 ha]
  exact fun hadds => nomatch hadds.1

end Silent

end Swarm
end GossipLedger
