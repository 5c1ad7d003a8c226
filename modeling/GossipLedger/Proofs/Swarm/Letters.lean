import GossipLedger.Proofs.Rumor.Privates
import GossipLedger.Proofs.Swarm

/-!
# Private messages between nodes

Any number of nodes with different names write to each other.  A private message may be lost,
come twice, come late, come to any node and come from any address: a node can be told any
private message that was ever sent, at any time, and everything else, true or not.  The ways
that the nodes know may change at any time.

Nobody makes up private messages, so every one on its way was written by the node that it comes
from.  A node keeps those that are meant for it in the order of their numbers, and the numbers of
a node count its messages to each destination.  So what is kept is what was written, in order,
until the numbers of 32 bits run out and come again.

## Main definitions

* `Swarm.Posted` — the swarms that come about when nobody makes up private messages.
* `Swarm.Postal` — the invariant.

## Main results

* `Swarm.postal_of_posted` — the invariant holds always.
* `Swarm.kept_prefix_of_posted` — **what a node keeps from another is the beginning of what that
  one wrote to it**, as long as the numbers last.
* `Swarm.Pair.exists_out_of_order` — after that it need not be.
-/

namespace GossipLedger
namespace Swarm

variable {ι : Type}

/-- The node that a message comes from has written it, whatever hops are left. -/
def Wrote (s : Swarm ι) (m : PrivateMessage) : Prop :=
  ∃ i, (s.hubs i).name = m.origin ∧
    ∃ x ∈ (s.hubs i).sentTo m.destination, x.contents = m.contents

/-- **What was written is numbered, and what is kept or on its way was written.** -/
structure Postal (s : Swarm ι) : Prop where
  numbers : ∀ i, (s.hubs i).Numbers
  built : ∀ i, (s.hubs i).privates.Built
  /-- A node keeps what is meant for it; to itself it writes without sending. -/
  kept : ∀ i o, ∀ m ∈ (s.hubs i).privates.log o,
    m.destination = (s.hubs i).name ∧ (m.origin = (s.hubs i).name ∨ s.Wrote m)
  sent : ∀ m, .secret m ∈ s.sent → s.Wrote m

/-- No private message comes that was not sent. -/
def Delivers (s : Swarm ι) : Event ι → Prop
  | .told _ _ (.packet _ (.secret m)) => .secret m ∈ s.sent
  | _ => True

section Events

variable [DecidableEq ι]

/-- The swarm when the ways that a node knows have changed. -/
def reroute (s : Swarm ι) (i : ι) (routes : RoutingTable) : Swarm ι :=
  s.change i { s.hubs i with routes := routes } []

/-- The swarms that come about when nobody makes up private messages. -/
inductive Posted (members : ι → Member) : Swarm ι → Prop
  | start : Posted members (new members)
  | step {s : Swarm ι} {e : Event ι} : Posted members s → s.Delivers e → Posted members (s.step e)
  | reroute {s : Swarm ι} (i : ι) (routes : RoutingTable) : Posted members s →
      Posted members (s.reroute i routes)

variable {members : ι → Member} {s : Swarm ι} {i : ι} {h : Hub} {packets : List Packet}
  {c : HubCommand}

/-! ### The invariant -/

omit [DecidableEq ι] in
theorem postal_new (members : ι → Member) : (new members).Postal where
  numbers _ := ⟨fun _ _ _ hm => (nomatch hm), fun _ _ => rfl⟩
  built _ := .empty
  kept _ _ _ hm := nomatch hm
  sent _ hm := nomatch hm

/-- What was written stays so. -/
theorem Wrote.change {m : PrivateMessage} (hm : s.Wrote m) (hname : h.name = (s.hubs i).name)
    (hgrow : ∀ d, (s.hubs i).sentTo d <+: h.sentTo d) : (s.change i h packets).Wrote m := by
  obtain ⟨j, hj, x, hx, hsame⟩ := hm
  refine ⟨j, ?_⟩
  by_cases hji : j = i
  · subst hji
    rw [change_hubs_self]
    exact ⟨hname.trans hj, x, (hgrow _).subset hx, hsame⟩
  · rw [change_hubs_of_ne hji]
    exact ⟨hj, x, hx, hsame⟩

omit [DecidableEq ι] in
/-- Who wrote a message wrote every message with the same contents. -/
theorem Wrote.of_contents {m x : PrivateMessage} (hx : s.Wrote x)
    (hsame : m.contents = x.contents) : s.Wrote m := by
  obtain ⟨j, hj, y, hy, hyx⟩ := hx
  obtain ⟨horigin, -, hdestination, -⟩ := PrivateMessage.of_contents_eq hsame
  refine ⟨j, hj.trans horigin.symm, y, ?_, hyx.trans hsame.symm⟩
  rw [hdestination]
  exact hy

/-- **What a hub does with private messages keeps the invariant**, if what was brought to it
was sent. -/
theorem Postal.change (hs : s.Postal) (hposts : (s.hubs i).Posts c h (lettersOf packets))
    (hbrought : ∀ sender m, c = .packet sender (.secret m) → .secret m ∈ s.sent) :
    (s.change i h packets).Postal := by
  have hold : ∀ m, s.Wrote m → (s.change i h packets).Wrote m := fun m hm =>
    hm.change hposts.name hposts.sentTo_prefix
  refine ⟨fun j => ?_, fun j => ?_, fun j => ?_, fun m hm => ?_⟩
  · by_cases hji : j = i
    · subst hji
      rw [change_hubs_self]
      exact (hs.numbers j).posts hposts
    · rw [change_hubs_of_ne hji]
      exact hs.numbers j
  · by_cases hji : j = i
    · subst hji
      rw [change_hubs_self]
      exact hposts.built (hs.built j)
    · rw [change_hubs_of_ne hji]
      exact hs.built j
  · by_cases hji : j = i
    · subst hji
      rw [change_hubs_self, hposts.name]
      intro o m hm
      rcases hposts.mem_log hm with hm | ⟨hown, horigin | ⟨sender, hc⟩⟩
      · exact (hs.kept j o m hm).imp_right fun hfrom => hfrom.imp_right (hold m)
      · exact ⟨hown, Or.inl horigin⟩
      · exact ⟨hown, Or.inr (hold m (hs.sent m (hbrought sender m hc)))⟩
    · rw [change_hubs_of_ne hji]
      intro o m hm
      exact (hs.kept j o m hm).imp_right fun hfrom => hfrom.imp_right (hold m)
  · rcases List.mem_append.1 hm with hm | hm
    · exact hold m (hs.sent m hm)
    · rcases hposts.mem_sent (mem_lettersOf.2 hm) with ⟨horigin, hmem⟩ | ⟨sender, x, hc, hsame⟩
      · refine ⟨i, ?_⟩
        rw [change_hubs_self]
        exact ⟨hposts.name.trans horigin.symm, m, hmem, rfl⟩
      · exact (hold x (hs.sent x (hbrought sender x hc))).of_contents hsame

/-- What mongers do, and that ways change, has no part in private messages. -/
theorem Postal.idle (hs : s.Postal) (hsame : (s.hubs i).SamePrivates h)
    (hnone : lettersOf packets = []) : (s.change i h packets).Postal := by
  refine hs.change (c := .antiEntropy) ?_ fun _ _ hc => nomatch hc
  rw [hnone]
  exact .idle hsame

omit [DecidableEq ι] in
/-- Mongers send rumors only. -/
theorem lettersOf_moved (t : Task) (ps : List PeerAddress) :
    lettersOf (ps.map fun _ => .rumor t.monger.rumor) = [] := by
  induction ps with
  | nil => rfl
  | cons p ps ih => exact ih

theorem postal_of_posted (hs : Posted members s) : s.Postal := by
  induction hs with
  | start => exact postal_new members
  | @step s e _ he ih =>
    cases e with
    | told i w c =>
      refine ih.change ((s.hubs i).posts_obey w c) fun sender m hc => ?_
      subst hc
      exact he
    | moved i w t m => exact ih.idle ⟨rfl, rfl, rfl, rfl, rfl⟩ (lettersOf_moved t _)
    | left i => exact ih.idle ⟨rfl, rfl, rfl, rfl, rfl⟩ rfl
  | reroute i routes _ ih => exact ih.idle ⟨rfl, rfl, rfl, rfl, rfl⟩ rfl

/-- Nodes keep their names and settings. -/
theorem step_keeps (s : Swarm ι) (e : Event ι) (i : ι) :
    ((s.step e).hubs i).name = (s.hubs i).name ∧
      ((s.step e).hubs i).settings = (s.hubs i).settings := by
  cases e with
  | told j w c =>
    have hposts := (s.hubs j).posts_obey w c
    exact ⟨change_keeps Hub.name hposts.name i, change_keeps Hub.settings hposts.settings i⟩
  | moved j w t m =>
    refine ⟨change_keeps Hub.name ?_ i, change_keeps Hub.settings ?_ i⟩
    · rfl
    · rfl
  | left j =>
    refine ⟨change_keeps Hub.name ?_ i, change_keeps Hub.settings ?_ i⟩
    · rfl
    · rfl

/-- Nodes keep their names. -/
theorem name_of_posted (hs : Posted members s) (i : ι) :
    (s.hubs i).name = (members i).name := by
  induction hs with
  | start => rfl
  | @step s e _ _ ih => exact (s.step_keeps e i).1.trans ih
  | reroute j routes _ ih =>
    rw [← ih]
    refine change_keeps Hub.name ?_ i
    rfl

/-! ### Order -/

omit [DecidableEq ι] in
/-- What a node keeps from another was written by that one, at a place that has its number. -/
theorem Postal.written_of_kept (hs : s.Postal)
    (hnames : Function.Injective fun i => (s.hubs i).name) {i j : ι} (hij : i ≠ j) {k : Nat} {m : PrivateMessage}
    (hm : ((s.hubs j).privates.log (s.hubs i).name)[k]? = some m) :
    ∃ n x, ((s.hubs i).sentTo (s.hubs j).name)[n]? = some x ∧ x.contents = m.contents ∧
      n % 2 ^ 32 = k % 2 ^ 32 := by
  obtain ⟨horigin, hnumber⟩ := (hs.built j).sequence_eq hm
  obtain ⟨hdestination, hown | ⟨i', hi', x, hx, hsame⟩⟩ :=
    hs.kept j _ m (List.mem_of_getElem? hm)
  · exact absurd (hnames (horigin.symm.trans hown)) hij
  · obtain rfl : i' = i := hnames (hi'.trans horigin)
    rw [hdestination] at hx
    obtain ⟨n, hn⟩ := List.mem_iff_getElem?.1 hx
    obtain ⟨-, -, hsequence⟩ := (hs.numbers i').numbered _ n x hn
    have hsequences : x.sequence = m.sequence := (PrivateMessage.of_contents_eq hsame).2.1
    have hcount : UInt32.ofNat (n + 1) = UInt32.ofNat (k + 1) := by
      rw [← hsequence, hsequences]
      exact hnumber
    exact ⟨n, x, hn, hsame, MessageStore.ofNat_succ_eq_iff.1 hcount⟩

/-- **What a node keeps from another is the beginning of what that one wrote to it**, apart from
the hop limits, as long as the numbers of 32 bits last: until then the messages to each
destination are numbered from one on and the last number counts them.  Afterwards the numbers
come again, and a message is kept at a place with its number. -/
theorem kept_prefix_of_posted (hnames : Function.Injective fun i => (members i).name)
    (hs : Posted members s) {i j : ι} (hij : i ≠ j) :
    (∀ k m, ((s.hubs i).sentTo (members j).name)[k]? = some m →
      m.origin = (members i).name ∧ m.destination = (members j).name ∧
        m.sequence = UInt32.ofNat (k + 1)) ∧
    (s.hubs i).numberedTo (members j).name =
      UInt32.ofNat ((s.hubs i).sentTo (members j).name).length ∧
    (∀ k m, ((s.hubs j).privates.log (members i).name)[k]? = some m →
      ∃ n x, ((s.hubs i).sentTo (members j).name)[n]? = some x ∧ x.contents = m.contents ∧
        n % 2 ^ 32 = k % 2 ^ 32) ∧
    (((s.hubs i).sentTo (members j).name).length < 2 ^ 32 →
      ((s.hubs j).privates.log (members i).name).map PrivateMessage.contents <+:
          ((s.hubs i).sentTo (members j).name).map PrivateMessage.contents ∧
        (∀ k m, ((s.hubs i).sentTo (members j).name)[k]? = some m → m.sequence.toNat = k + 1) ∧
        ((s.hubs i).numberedTo (members j).name).toNat =
          ((s.hubs i).sentTo (members j).name).length) := by
  have hpostal := postal_of_posted hs
  have hname := name_of_posted hs
  have hinjective : Function.Injective fun i => (s.hubs i).name := by
    simpa only [hname] using hnames
  have hnumbered := (hpostal.numbers i).numbered (members j).name
  rw [hname] at hnumbered
  have hcounted := (hpostal.numbers i).counted (members j).name (by
    rw [hname]
    exact fun heq => hij (hnames heq).symm)
  have hwritten : ∀ k m, ((s.hubs j).privates.log (members i).name)[k]? = some m →
      ∃ n x, ((s.hubs i).sentTo (members j).name)[n]? = some x ∧ x.contents = m.contents ∧
        n % 2 ^ 32 = k % 2 ^ 32 := by
    intro k m hm
    rw [← hname i] at hm
    rw [← hname j]
    exact hpostal.written_of_kept hinjective hij hm
  refine ⟨hnumbered, hcounted, hwritten, fun hfew => ⟨?_, fun k m hm => ?_, ?_⟩⟩
  · -- the last number was not written, so the log has not come to it
    have hshort : ((s.hubs j).privates.log (members i).name).length < 2 ^ 32 := by
      by_contra hlong
      have hk : 2 ^ 32 - 1 < ((s.hubs j).privates.log (members i).name).length := by omega
      obtain ⟨n, x, hx, -, hplace⟩ := hwritten _ _ (List.getElem?_eq_getElem hk)
      have hn : n < ((s.hubs i).sentTo (members j).name).length :=
        (List.getElem?_eq_some_iff.1 hx).1
      omega
    rw [List.prefix_iff_getElem?]
    intro k hk
    rw [List.getElem_map]
    rw [List.length_map] at hk
    obtain ⟨n, x, hx, hsame, hplace⟩ := hwritten k _ (List.getElem?_eq_getElem hk)
    have hn : n < ((s.hubs i).sentTo (members j).name).length := (List.getElem?_eq_some_iff.1 hx).1
    obtain rfl : n = k := by omega
    rw [List.getElem?_map, hx, Option.map_some, hsame]
  · have hk : k < ((s.hubs i).sentTo (members j).name).length :=
      (List.getElem?_eq_some_iff.1 hm).1
    rw [(hnumbered k m hm).2.2, UInt32.toNat_ofNat', Nat.mod_eq_of_lt (by omega)]
  · rw [hcounted, UInt32.toNat_ofNat', Nat.mod_eq_of_lt hfew]

end Events

/-! ### Two nodes -/

namespace Pair

/-- The two nodes when the first one knows the way to the second. -/
def routed : Swarm Bool := (new members).reroute false (RoutingTable.learn .empty "b" (address 2))

/-- A client of the first node writes to the second. -/
def writes (text : String) : Event Bool := .told false moment (.client (.secret "b" text))

/-- The first node's message of a number. -/
def letter (n : UInt32) (text : String) : PrivateMessage := ⟨"a", n, "b", text, 10⟩

/-- The second node gets a message of the first. -/
def gets (n : UInt32) (text : String) : Event Bool :=
  .told true moment (.packet (address 1) (.secret (letter n text)))

/-- Two messages come in the wrong order, and one of them twice. -/
def reordered : Swarm Bool :=
  routed.run [writes "one", writes "two", gets 2 "two", gets 1 "one", gets 1 "one"]

/-- The second node has kept the first message, once, and not the second one. -/
theorem kept_of_reordered :
    ((reordered.hubs true).privates.log "a").map PrivateMessage.contents <+:
        ((reordered.hubs false).sentTo "b").map PrivateMessage.contents ∧
      (reordered.hubs true).privates.log "a" = [letter 1 "one"] ∧
      (reordered.hubs false).sentTo "b" = [letter 1 "one", letter 2 "two"] := by
  have hnames : ∀ i j, (members i).name = (members j).name → i = j := by decide +kernel
  have hwrote : Posted members (routed.run [writes "one", writes "two"]) :=
    ((Posted.start.reroute false _).step (e := writes "one") trivial).step
      (e := writes "two") trivial
  have hsecond : .secret (letter 2 "two") ∈ (routed.run [writes "one", writes "two"]).sent := by
    decide +kernel
  have hfirst : .secret (letter 1 "one") ∈
      (routed.run [writes "one", writes "two", gets 2 "two"]).sent := by
    decide +kernel
  have hagain : .secret (letter 1 "one") ∈
      (routed.run [writes "one", writes "two", gets 2 "two", gets 1 "one"]).sent := by
    decide +kernel
  have hposted : Posted members reordered :=
    ((hwrote.step (e := gets 2 "two") hsecond).step (e := gets 1 "one") hfirst).step
      (e := gets 1 "one") hagain
  have hwritten : (reordered.hubs false).sentTo "b" = [letter 1 "one", letter 2 "two"] := by
    decide +kernel
  have hfew : ((reordered.hubs false).sentTo "b").length < 2 ^ 32 := by
    rw [hwritten]
    decide
  exact ⟨((kept_prefix_of_posted (fun i j => hnames i j) hposted (i := false) (j := true)
    (by decide)).2.2.2 hfew).1, by decide +kernel, hwritten⟩

/-- The first node has written to the second so many times, and nothing has come. -/
def unheard : Nat → Swarm Bool
  | 0 => routed
  | n + 1 => (unheard n).step (writes "early")

theorem posted_unheard (n : Nat) : Posted members (unheard n) := by
  induction n with
  | zero => exact Posted.start.reroute false _
  | succ n ih => exact ih.step trivial

/-- The first node has written these texts to the second, and nothing has come. -/
structure Unheard (texts : List String) (s : Swarm Bool) : Prop where
  name : (s.hubs false).name = "a"
  settings : (s.hubs false).settings = {}
  route : (s.hubs false).routes.get? "b" = some (address 2)
  written : ((s.hubs false).sentTo "b").map PrivateMessage.text = texts
  reader : s.hubs true = routed.hubs true

/-- One more text is written and sent. -/
theorem Unheard.step {texts : List String} {s : Swarm Bool} (hs : Unheard texts s)
    (text : String) : Unheard (texts ++ [text]) (s.step (writes text)) ∧
      .secret ((s.hubs false).newLetter "b" text) ∈ (s.step (writes text)).sent := by
  have hother : "b" ≠ (s.hubs false).name := by
    rw [hs.name]
    decide
  obtain ⟨h', hsame, hroutes, heq⟩ := Hub.onPrivateRequest_of_ne hother text
  have hroute : (s.hubs false).routes.get? ((s.hubs false).newLetter "b" text).destination =
      some (address 2) := hs.route
  have hsent : (s.hubs false).forwardPrivate ((s.hubs false).newLetter "b" text) =
      [Hub.unicast (address 2) (.secret ((s.hubs false).newLetter "b" text))] := by
    rw [Hub.forwardPrivate, hroute]
  have hstep : s.step (writes text) =
      s.change false h' [.secret ((s.hubs false).newLetter "b" text)] := by
    show s.change false ((s.hubs false).onPrivateRequest "b" text).1
      (((s.hubs false).onPrivateRequest "b" text).2.filterMap Effect.packet?) = _
    rw [heq, hsent]
    rfl
  have hwritten : h'.sentTo "b" =
      (s.hubs false).sentTo "b" ++ [(s.hubs false).newLetter "b" text] := by
    rw [Hub.sentTo_of_set hsame.sentPrivates, if_pos rfl]
  rw [hstep]
  refine ⟨⟨?_, ?_, ?_, ?_, ?_⟩, List.mem_append_right _ (List.mem_singleton_self _)⟩
  · rw [change_hubs_self]
    exact hsame.name.trans hs.name
  · rw [change_hubs_self]
    exact hsame.settings.trans hs.settings
  · rw [change_hubs_self, hroutes]
    exact hs.route
  · rw [change_hubs_self, hwritten, List.map_append, hs.written]
    rfl
  · rw [change_hubs_of_ne (by decide)]
    exact hs.reader

theorem unheard_spec (n : Nat) : Unheard (List.replicate n "early") (unheard n) := by
  induction n with
  | zero => exact ⟨rfl, rfl, by decide +kernel, rfl, rfl⟩
  | succ n ih =>
    rw [List.replicate_succ']
    exact (ih.step "early").1

/-- The next text after so many that the numbers come again has number one. -/
theorem newLetter_unheard {n : Nat} (hn : UInt32.ofNat n = 0) (text : String) :
    ((unheard n).hubs false).newLetter "b" text = letter 1 text := by
  have hspec := unheard_spec n
  have hlength : (((unheard n).hubs false).sentTo "b").length = n := by
    rw [← List.length_map PrivateMessage.text, hspec.written, List.length_replicate]
  have hcounted := ((postal_of_posted (posted_unheard n)).numbers false).counted "b" (by
    rw [hspec.name]
    decide)
  rw [hlength, hn] at hcounted
  unfold Hub.newLetter letter
  rw [hspec.name, hspec.settings, hcounted]
  rfl

/-- **Once the numbers of 32 bits come again** the last number does not count the messages any
more, and if none of them has come, the next one is kept in the place of the first. -/
theorem exists_out_of_order : ∃ s, Posted members s ∧
    ((s.hubs false).numberedTo "b").toNat ≠ ((s.hubs false).sentTo "b").length ∧
    ¬ ((s.hubs true).privates.log "a").map PrivateMessage.contents <+:
      ((s.hubs false).sentTo "b").map PrivateMessage.contents := by
  have hzero : UInt32.ofNat (2 ^ 32) = 0 := by decide
  have hpos : 0 < 2 ^ 32 := by decide
  revert hzero hpos
  generalize 2 ^ 32 = n
  intro hzero hpos
  obtain ⟨hlate, hsent⟩ := (unheard_spec n).step "late"
  rw [newLetter_unheard hzero] at hsent
  have hwrote : Posted members ((unheard n).step (writes "late")) :=
    (posted_unheard n).step trivial
  have hposted := hwrote.step (e := gets 1 "late") hsent
  have hwriter : (((unheard n).step (writes "late")).step (gets 1 "late")).hubs false =
      ((unheard n).step (writes "late")).hubs false := change_hubs_of_ne (by decide)
  have hreader : (((unheard n).step (writes "late")).step (gets 1 "late")).hubs true =
      ((routed.step (gets 1 "late")).hubs true) := by
    show (Swarm.change _ true
        ((((unheard n).step (writes "late")).hubs true).obey _ _).1 _).hubs true
      = (Swarm.change _ true ((routed.hubs true).obey _ _).1 _).hubs true
    rw [change_hubs_self, change_hubs_self, hlate.reader]
  have hkept : ((routed.step (gets 1 "late")).hubs true).privates.log "a" = [letter 1 "late"] := by
    decide +kernel
  refine ⟨_, hposted, ?_, ?_⟩
  · have hlength : ((((unheard n).step (writes "late")).hubs false).sentTo "b").length = n + 1 := by
      rw [← List.length_map PrivateMessage.text, hlate.written, List.length_append,
        List.length_replicate, List.length_singleton]
    have hcounted := ((postal_of_posted hwrote).numbers false).counted "b" (by
      rw [hlate.name]
      decide)
    rw [hwriter, hcounted, hlength, UInt32.ofNat_add, hzero]
    show 1 ≠ n + 1
    omega
  · rw [hwriter, hreader, hkept]
    intro hbegins
    have htexts := hbegins.map PrivateMessage.text
    rw [List.map_map, List.map_map] at htexts
    have hlate' : ["late"] <+:
        ((((unheard n).step (writes "late")).hubs false).sentTo "b").map PrivateMessage.text :=
      htexts
    obtain ⟨k, rfl⟩ := Nat.exists_eq_succ_of_ne_zero (Nat.ne_of_gt hpos)
    rw [hlate.written, List.replicate_succ, List.cons_append] at hlate'
    exact absurd (List.cons_prefix_cons.1 hlate').1 (by decide)

end Pair

end Swarm
end GossipLedger
