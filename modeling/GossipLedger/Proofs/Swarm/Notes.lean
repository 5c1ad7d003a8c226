import GossipLedger.Proofs.Rumor.Privates
import GossipLedger.Proofs.Swarm.Numbering

/-!
# Messages of a node to itself

A client may have a node write a private message to the node itself, here a note.  Notes are
numbered like the messages to every other node, and each is appended to the log under the node's
own name.  But a peer may bring a private message from the node to the node that the node never
wrote.  If it has the next number it is appended too, and the counter of the notes does not
follow.  The next note then has a number that is taken, and is lost.

So a note is kept exactly if there are as many messages in the log as notes were asked for, counted
in 32 bits.  As long as the log has a number for each message, all notes of a run are kept exactly
if none comes after such a forged message.

## Main definitions

* `Hub.addressed?` — the private message that a command hands to a hub for itself.
* `Swarm.note`, `Swarm.noted` — a request for a note, and how many there were.
* `Swarm.KeepsNote` — a note goes to the end of its log, and nothing else changes.
* `Swarm.Forges` — a peer brings a message in the name of a node, which the node takes.

## Main results

* `Hub.privates_obey` — what a hub keeps.
* `Swarm.numberedTo_hubAfter` — the counter of the notes counts the requests.
* `Swarm.keepsNote_iff` — **when a note is kept.**
* `Swarm.noted_le_ownLength` — the log is never shorter than the number of requests.
* `Swarm.notes_kept_iff` — **when all notes of a run are kept.**
* `Swarm.Pair.note_lost` — a note that is lost.
-/

namespace GossipLedger

/-- Whether a client asks for a private message to a destination. -/
def HubCommand.writesTo (d : String) : HubCommand → Bool
  | .client (.secret destination _) => destination = d
  | _ => false

theorem HubCommand.writesTo_iff {d : String} {c : HubCommand} :
    c.writesTo d = true ↔ ∃ text, c = .client (.secret d text) := by
  constructor
  · intro hc
    cases c with
    | client request =>
      cases request with
      | secret destination text => exact ⟨text, by rw [of_decide_eq_true hc]⟩
      | _ => exact nomatch hc
    | _ => exact nomatch hc
  · rintro ⟨text, rfl⟩
    exact decide_eq_true rfl

namespace MessageStore

variable {α : Type} [Sequenced α] {t : MessageStore α}

/-- A message that is offered is appended to the log of its origin if it has the next number. -/
theorem log_getD_append? (m : α) (o : String) : ((t.append? m).getD t).log o =
    t.log o ++
      if Sequenced.origin m = o ∧ Sequenced.sequence m = t.last o + 1 then [m] else [] := by
  cases happend : t.append? m with
  | none =>
    rw [if_neg, List.append_nil]
    · rfl
    · rintro ⟨rfl, hnext⟩
      exact nomatch happend.symm.trans (append?_eq_some_iff.2 ⟨hnext, rfl⟩)
  | some t' =>
    have hnext := (append?_eq_some_iff.1 happend).1
    rw [Option.getD_some, log_append? happend]
    by_cases ho : Sequenced.origin m = o
    · subst ho
      rw [if_pos rfl, if_pos ⟨rfl, hnext⟩]
    · rw [if_neg ho, if_neg (mt And.left ho), List.append_nil]

theorem length_getD_append? (m : α) (o : String) : ((t.append? m).getD t).length o =
    t.length o +
      if Sequenced.origin m = o ∧ Sequenced.sequence m = t.last o + 1 then 1 else 0 := by
  rw [length, log_getD_append?, List.length_append, apply_ite List.length]
  rfl

end MessageStore

namespace Hub

variable {h h' : Hub} {c : HubCommand} {sent : List PrivateMessage}

/-! ### What a hub keeps -/

/-- The private message that a command hands to a hub for itself. -/
def addressed? (h : Hub) : HubCommand → Option PrivateMessage
  | .client (.secret destination text) =>
      if destination = h.name then some (h.newLetter destination text) else none
  | .packet _ (.secret m) => if m.destination = h.name then some m else none
  | _ => none

/-- A command that has a part in private messages asks for one or brings one. -/
theorem posts_eq_true (hc : c.posts = true) :
    (∃ destination text, c = .client (.secret destination text)) ∨
      ∃ sender m, c = .packet sender (.secret m) := by
  cases c with
  | client request =>
    cases request with
    | secret destination text => exact Or.inl ⟨destination, text, rfl⟩
    | _ => exact nomatch hc
  | packet sender packet =>
    cases packet with
    | secret m => exact Or.inr ⟨sender, m, rfl⟩
    | _ => exact nomatch hc
  | _ => exact nomatch hc

theorem addressed?_eq_some {m : PrivateMessage} (hm : h.addressed? c = some m) :
    (∃ text, c = .client (.secret h.name text)) ∨
      ∃ sender, m.destination = h.name ∧ c = .packet sender (.secret m) := by
  unfold addressed? at hm
  split at hm
  next destination text =>
    split at hm
    next hown => exact Or.inl ⟨text, by rw [hown]⟩
    next => exact nomatch hm
  next sender m' =>
    split at hm
    next hown =>
      obtain rfl := Option.some.inj hm
      exact Or.inr ⟨sender, hown, rfl⟩
    next => exact nomatch hm
  next => exact nomatch hm

theorem addressed?_of_not_posts (hc : c.posts = false) : h.addressed? c = none := by
  cases c with
  | client request =>
    cases request with
    | secret => exact nomatch hc
    | _ => rfl
  | packet sender packet =>
    cases packet with
    | secret => exact nomatch hc
    | _ => rfl
  | _ => rfl

/-- Other commands leave private messages alone. -/
theorem Posts.samePrivates (hposts : Posts h c h' sent) (hc : c.posts = false) :
    SamePrivates h h' := by
  cases hposts with
  | idle hsame => exact hsame
  | noted => exact nomatch hc
  | asked => exact nomatch hc
  | kept => exact nomatch hc
  | passed => exact nomatch hc

theorem privates_onPrivateRequest (h : Hub) (destination text : String) :
    (h.onPrivateRequest destination text).1.privates =
      if destination = h.name then
        (h.privates.append? (h.newLetter destination text)).getD h.privates
      else h.privates := by
  unfold onPrivateRequest
  dsimp only
  split
  next => rfl
  next => rfl

theorem privates_onPrivate (h : Hub) (sender : PeerAddress) (m : PrivateMessage) :
    (h.onPrivate sender m).1.privates =
      if m.destination = h.name then (h.privates.append? m).getD h.privates else h.privates := by
  have hlearned := (h.sameRest_learnRoute m.origin sender).toSamePrivates
  rw [← hlearned.name, ← hlearned.privates]
  unfold onPrivate
  dsimp only
  split
  next => rfl
  next => split <;> rfl

/-- **What a hub keeps** when it is told something: the message that is handed to it for itself,
if it has the next number. -/
theorem privates_obey (w : Moment) (h : Hub) (c : HubCommand) : (h.obey w c).1.privates =
    ((h.addressed? c).bind h.privates.append?).getD h.privates := by
  have hpack : ∀ (p : Prop) [Decidable p] (m : PrivateMessage),
      (if p then (h.privates.append? m).getD h.privates else h.privates) =
        ((if p then some m else none).bind h.privates.append?).getD h.privates := by
    intro p _ m
    split
    next => rfl
    next => rfl
  cases hc : c.posts with
  | false =>
    rw [addressed?_of_not_posts hc]
    exact ((h.posts_obey w c).samePrivates hc).privates
  | true =>
    rcases posts_eq_true hc with ⟨destination, text, rfl⟩ | ⟨sender, m, rfl⟩
    · exact (h.privates_onPrivateRequest destination text).trans (hpack _ _)
    · have hmet := h.samePrivates_meet sender
      refine (privates_onPrivate _ sender m).trans ?_
      rw [hmet.name, hmet.privates]
      exact hpack _ _

/-! ### What a hub counts -/

theorem Posts.numberedTo_of_not_writesTo (hposts : Posts h c h' sent) {d : String}
    (hc : c.writesTo d = false) : h'.numberedTo d = h.numberedTo d := by
  cases hposts with
  | idle hsame => exact hsame.numberedTo d
  | noted _ hsame => rw [numberedTo_of_set hsame.counters, if_neg (of_decide_eq_false hc)]
  | asked _ hsame _ => rw [numberedTo_of_set hsame.counters, if_neg (of_decide_eq_false hc)]
  | kept _ hsame => exact hsame.numberedTo d
  | passed _ _ hsame => exact hsame.numberedTo d

/-- **The counter for a destination goes up with each request**, and not otherwise. -/
theorem numberedTo_obey (w : Moment) (h : Hub) (c : HubCommand) (d : String) :
    (h.obey w c).1.numberedTo d = h.numberedTo d + if c.writesTo d then 1 else 0 := by
  cases hc : c.writesTo d with
  | false =>
    rw [(h.posts_obey w c).numberedTo_of_not_writesTo hc, if_neg Bool.false_ne_true]
    exact (UInt32.add_zero _).symm
  | true =>
    obtain ⟨text, rfl⟩ := HubCommand.writesTo_iff.1 hc
    have hset : (h.onPrivateRequest d text).1.privateCounters =
        h.privateCounters.set d (h.numberedTo d + 1) := by
      unfold onPrivateRequest
      dsimp only
      split <;> rfl
    rw [if_pos rfl]
    exact (numberedTo_of_set hset).trans (if_pos rfl)

end Hub

namespace Swarm

section Events

variable {ι : Type} [DecidableEq ι] {members : ι → Member} {es : List (Event ι)} {e : Event ι}
  {i : ι}

/-! ### Requests and forged messages -/

/-- A client asks a node for a note. -/
def note (members : ι → Member) (i : ι) (w : Moment) (text : String) : Event ι :=
  .told i w (.client (.secret (members i).name text))

/-- Whether a client asks a node for a note. -/
def isNote (members : ι → Member) (i : ι) : Event ι → Bool
  | .told j _ c => decide (j = i) && c.writesTo (members i).name
  | _ => false

/-- How many notes a node was asked for. -/
def noted (members : ι → Member) (es : List (Event ι)) (i : ι) : Nat := es.countP (isNote members i)

/-- The length of the log of a node's messages to itself. -/
def ownLength (members : ι → Member) (es : List (Event ι)) (i : ι) : Nat :=
  (hubAfter members es i).privates.length (members i).name

/-- A note that a node is asked for goes to the end of the log under the node's name, and the
other logs stay as they are. -/
def KeepsNote (members : ι → Member) (es : List (Event ι)) (i : ι) (w : Moment) (text : String) :
    Prop :=
  let h := hubAfter members es i
  let h' := hubAfter members (es ++ [note members i w text]) i
  h'.privates.log h.name = h.privates.log h.name ++ [h.newLetter h.name text] ∧
    ∀ o, o ≠ h.name → h'.privates.log o = h.privates.log o

/-- A peer brings a private message from a node to that node, and it is the next in the log. -/
def Forges (members : ι → Member) (es : List (Event ι)) (i : ι) (e : Event ι) : Prop :=
  ∃ w sender m, e = .told i w (.packet sender (.secret m)) ∧ m.origin = (members i).name ∧
    m.destination = (members i).name ∧
    m.sequence = (hubAfter members es i).privates.last (members i).name + 1

theorem isNote_told {w : Moment} {c : HubCommand} :
    isNote members i (.told i w c) = c.writesTo (members i).name := by
  show (decide (i = i) && c.writesTo (members i).name) = c.writesTo (members i).name
  rw [decide_eq_true rfl, Bool.true_and]

theorem isNote_iff : isNote members i e = true ↔ ∃ w text, e = note members i w text := by
  constructor
  · intro he
    cases e with
    | told j w c =>
      obtain ⟨hj, hc⟩ := Bool.and_eq_true_iff.1 he
      obtain rfl := of_decide_eq_true hj
      obtain ⟨text, rfl⟩ := HubCommand.writesTo_iff.1 hc
      exact ⟨w, text, rfl⟩
    | moved => exact nomatch he
    | left => exact nomatch he
  · rintro ⟨w, text, rfl⟩
    exact isNote_told.trans (decide_eq_true rfl)

theorem noted_concat : noted members (es ++ [e]) i =
    noted members es i + if isNote members i e then 1 else 0 := by
  rw [noted, List.countP_append, List.countP_singleton]
  rfl

/-- The counter of the notes counts the requests, in 32 bits. -/
theorem numberedTo_hubAfter (members : ι → Member) (es : List (Event ι)) (i : ι) :
    (hubAfter members es i).numberedTo (members i).name = UInt32.ofNat (noted members es i) := by
  induction es using List.reverseRecOn with
  | nil => rfl
  | append_singleton es e ih =>
    rw [noted_concat, UInt32.ofNat_add, ← ih]
    rcases hub_cases ((new members).run es) e i with ⟨hother, crew, heq⟩ | ⟨w, c, rfl, -⟩
    · have hnot : ¬isNote members i e = true := fun he =>
        have ⟨w, _, he⟩ := isNote_iff.1 he
        hother w _ he
      rw [if_neg hnot, hubAfter, run_concat, heq]
      exact (UInt32.add_zero _).symm
    · rw [hubAfter_told, Hub.numberedTo_obey, isNote_told]
      split <;> rfl

/-! ### The log of the notes -/

theorem privates_hubAfter_told (w : Moment) (c : HubCommand) :
    (hubAfter members (es ++ [.told i w c]) i).privates =
      (((hubAfter members es i).addressed? c).bind (hubAfter members es i).privates.append?).getD
        (hubAfter members es i).privates := by
  rw [hubAfter_told, Hub.privates_obey]

/-- The number of the next note. -/
theorem sequence_newLetter (members : ι → Member) (es : List (Event ι)) (i : ι) (text : String) :
    ((hubAfter members es i).newLetter (members i).name text).sequence =
      UInt32.ofNat (noted members es i + 1) := by
  show (hubAfter members es i).numberedTo (members i).name + 1 = _
  rw [numberedTo_hubAfter]
  exact (UInt32.ofNat_add _ 1).symm

/-- It is the next one in the log if there are as many messages as notes were asked for. -/
theorem sequence_newLetter_eq_iff (text : String) :
    ((hubAfter members es i).newLetter (members i).name text).sequence =
        (hubAfter members es i).privates.last (members i).name + 1 ↔
      ownLength members es i % 2 ^ 32 = noted members es i % 2 ^ 32 := by
  rw [sequence_newLetter, MessageStore.last_add_one, MessageStore.ofNat_succ_eq_iff]
  exact eq_comm

theorem privates_note (w : Moment) (text : String) :
    (hubAfter members (es ++ [note members i w text]) i).privates =
      ((hubAfter members es i).privates.append?
        ((hubAfter members es i).newLetter (members i).name text)).getD
          (hubAfter members es i).privates := by
  rw [note, privates_hubAfter_told, Hub.addressed?, if_pos (hubAfter_name members es i).symm]
  rfl

/-- A note that is not kept changes nothing in the log. -/
theorem privates_note_of_ne (w : Moment) (text : String)
    (hne : ownLength members es i % 2 ^ 32 ≠ noted members es i % 2 ^ 32) :
    (hubAfter members (es ++ [note members i w text]) i).privates =
      (hubAfter members es i).privates := by
  have hnone : (hubAfter members es i).privates.append?
      ((hubAfter members es i).newLetter (members i).name text) = none := by
    rw [Option.eq_none_iff_forall_ne_some]
    intro t happend
    have hnext : ((hubAfter members es i).newLetter (members i).name text).sequence =
        (hubAfter members es i).privates.last (hubAfter members es i).name + 1 :=
      (MessageStore.append?_eq_some_iff.1 happend).1
    rw [hubAfter_name] at hnext
    exact hne ((sequence_newLetter_eq_iff text).1 hnext)
  rw [privates_note, hnone]
  rfl

/-- **When a note is kept**: if as many messages are in the log as notes were asked for. -/
theorem keepsNote_iff {w : Moment} {text : String} : KeepsNote members es i w text ↔
    ownLength members es i % 2 ^ 32 = noted members es i % 2 ^ 32 := by
  have hname := hubAfter_name members es i
  rw [← sequence_newLetter_eq_iff text]
  unfold KeepsNote
  dsimp only
  rw [privates_note, hname]
  simp only [MessageStore.log_getD_append?]
  constructor
  · rintro ⟨hlog, -⟩
    split at hlog
    next hnext => exact hnext.2
    next => exact absurd (congrArg List.length hlog) (by simp)
  · intro hnext
    refine ⟨?_, fun o ho => ?_⟩
    · rw [if_pos ⟨hname, hnext⟩]
    · rw [if_neg, List.append_nil]
      exact fun h => ho (h.1.symm.trans hname)

/-- A note that is kept makes the log longer, and any other leaves it alone. -/
theorem ownLength_note (w : Moment) (text : String) :
    ownLength members (es ++ [note members i w text]) i = ownLength members es i +
      if ownLength members es i % 2 ^ 32 = noted members es i % 2 ^ 32 then 1 else 0 := by
  by_cases hnext : ownLength members es i % 2 ^ 32 = noted members es i % 2 ^ 32
  · have hlog := (keepsNote_iff.2 hnext : KeepsNote members es i w text).1
    rw [hubAfter_name] at hlog
    rw [if_pos hnext, ownLength, MessageStore.length, hlog, List.length_append]
    rfl
  · rw [if_neg hnext, ownLength, privates_note_of_ne w text hnext]
    rfl

/-- A forged message makes the log longer, and it is no request. -/
theorem Forges.ownLength_concat (he : Forges members es i e) :
    ownLength members (es ++ [e]) i = ownLength members es i + 1 ∧
      noted members (es ++ [e]) i = noted members es i := by
  obtain ⟨w, sender, m, rfl, horigin, hdestination, hnext⟩ := he
  refine ⟨?_, ?_⟩
  · have hown : m.destination = (hubAfter members es i).name :=
      hdestination.trans (hubAfter_name members es i).symm
    have haddressed : (hubAfter members es i).addressed? (.packet sender (.secret m)) = some m :=
      if_pos hown
    rw [ownLength, privates_hubAfter_told, haddressed]
    refine (MessageStore.length_getD_append? m _).trans ?_
    rw [if_pos ⟨horigin, hnext⟩]
    rfl
  · rw [noted_concat, isNote_told]
    rfl

/-- Nothing else has a part in the log. -/
theorem ownLength_concat_of_not (hnote : ¬isNote members i e = true)
    (hforges : ¬Forges members es i e) :
    ownLength members (es ++ [e]) i = ownLength members es i := by
  rcases hub_cases ((new members).run es) e i with ⟨-, crew, heq⟩ | ⟨w, c, rfl, -⟩
  · rw [ownLength, hubAfter, run_concat, heq]
    rfl
  · rw [ownLength, privates_hubAfter_told]
    cases haddressed : (hubAfter members es i).addressed? c with
    | none => rfl
    | some m =>
      refine (MessageStore.length_getD_append? m _).trans ?_
      rw [if_neg]
      · rfl
      · rintro ⟨horigin, hnext⟩
        rcases Hub.addressed?_eq_some haddressed with ⟨text, rfl⟩ | ⟨sender, hdestination, rfl⟩
        · rw [hubAfter_name] at hnote
          exact hnote (isNote_iff.2 ⟨w, text, rfl⟩)
        · rw [hubAfter_name] at hdestination
          exact hforges ⟨w, sender, m, rfl, horigin, hdestination, hnext⟩

theorem ownLength_le_concat (members : ι → Member) (es : List (Event ι)) (e : Event ι) (i : ι) :
    ownLength members es i ≤ ownLength members (es ++ [e]) i := by
  by_cases hnote : isNote members i e = true
  · obtain ⟨w, text, rfl⟩ := isNote_iff.1 hnote
    rw [ownLength_note]
    exact Nat.le_add_right _ _
  · by_cases hforges : Forges members es i e
    · rw [hforges.ownLength_concat.1]
      exact Nat.le_succ _
    · rw [ownLength_concat_of_not hnote hforges]

/-! ### Notes that are lost -/

/-- **The log is never shorter than the number of requests**, as long as it has a number for each
message. -/
theorem noted_le_ownLength (hshort : ownLength members es i < 2 ^ 32) :
    noted members es i ≤ ownLength members es i := by
  induction es using List.reverseRecOn with
  | nil => exact Nat.zero_le _
  | append_singleton es e ih =>
    have hgrow := ownLength_le_concat members es e i
    have hle := ih (by omega)
    rw [noted_concat]
    by_cases hnote : isNote members i e = true
    · rw [if_pos hnote]
      obtain ⟨w, text, rfl⟩ := isNote_iff.1 hnote
      rw [ownLength_note]
      split
      next => omega
      next => omega
    · rw [if_neg hnote]
      exact hle.trans hgrow

/-- As long as no message was forged, the log has the notes and nothing else. -/
theorem ownLength_eq_noted
    (hnone : ∀ es₁ f es₂, es = es₁ ++ f :: es₂ → ¬Forges members es₁ i f) :
    ownLength members es i = noted members es i := by
  induction es using List.reverseRecOn with
  | nil => rfl
  | append_singleton es e ih =>
    have hbefore : ∀ es₁ f es₂, es = es₁ ++ f :: es₂ → ¬Forges members es₁ i f := by
      rintro es₁ f es₂ rfl
      exact hnone es₁ f (es₂ ++ [e]) (by rw [List.append_assoc, List.cons_append])
    rw [noted_concat]
    by_cases hnote : isNote members i e = true
    · rw [if_pos hnote]
      obtain ⟨w, text, rfl⟩ := isNote_iff.1 hnote
      rw [ownLength_note, ih hbefore, if_pos rfl]
    · rw [if_neg hnote]
      rw [ownLength_concat_of_not hnote (hnone es e [] rfl), ih hbefore]
      rfl

/-- A log does not get shorter. -/
theorem ownLength_le_append (members : ι → Member) (es es' : List (Event ι)) (i : ι) :
    ownLength members es i ≤ ownLength members (es ++ es') i := by
  induction es' using List.reverseRecOn with
  | nil => rw [List.append_nil]
  | append_singleton es' e ih =>
    rw [← List.append_assoc]
    exact ih.trans (ownLength_le_concat members _ e i)

/-- After a forged message the log is longer than the number of requests until a note is lost. -/
theorem Forges.noted_lt_ownLength {es' : List (Event ι)} (he : Forges members es i e)
    (hquiet : ∀ f ∈ es', isNote members i f = false) (hshort : ownLength members es i < 2 ^ 32) :
    noted members (es ++ e :: es') i = noted members es i ∧
      noted members es i < ownLength members (es ++ e :: es') i := by
  induction es' using List.reverseRecOn with
  | nil =>
    obtain ⟨hlast, hnoted⟩ := he.ownLength_concat
    refine ⟨hnoted, ?_⟩
    rw [hlast]
    exact Nat.lt_succ_of_le (noted_le_ownLength hshort)
  | append_singleton es' f ih =>
    obtain ⟨hnoted, hlt⟩ := ih fun g hg => hquiet g (List.mem_append_left _ hg)
    have hf := hquiet f (List.mem_append_right _ (List.mem_singleton_self f))
    rw [← List.cons_append, ← List.append_assoc, noted_concat, hnoted, hf]
    exact ⟨rfl, hlt.trans_le (ownLength_le_concat members _ f i)⟩

/-- **When the notes of a node are kept.**  After any requests, ticks and packets a note goes to the
end of its log, and nothing else changes, exactly if the log is as long as the number of notes that
were asked for, counted in 32 bits; otherwise the note is lost, and the log stays as it is.  As long
as the log has a number for each message, all notes of a run are kept exactly if none is asked for
after a peer brought a message in the node's name that was the next in the log. -/
theorem notes_kept_iff (members : ι → Member) (es : List (Event ι)) (i : ι) :
    (∀ w text, KeepsNote members es i w text ↔
      (hubAfter members es i).privates.length (members i).name % 2 ^ 32 =
        noted members es i % 2 ^ 32) ∧
    (∀ w text, ¬KeepsNote members es i w text →
      (hubAfter members (es ++ [note members i w text]) i).privates =
        (hubAfter members es i).privates) ∧
    ((hubAfter members es i).privates.length (members i).name < 2 ^ 32 →
      ((∀ es₁ w text es₂, es = es₁ ++ note members i w text :: es₂ →
          KeepsNote members es₁ i w text) ↔
        ∀ es₁ f es₂, es = es₁ ++ f :: es₂ → Forges members es₁ i f →
          ∀ e ∈ es₂, isNote members i e = false)) := by
  refine ⟨fun w text => keepsNote_iff, fun w text hlost => ?_, fun hshort => ?_⟩
  · exact privates_note_of_ne w text (mt keepsNote_iff.2 hlost)
  · constructor
    · intro hkept es₁ f es₂ hes hforges e he
      -- the first note after the forged message is lost
      cases hfind : es₂.find? (isNote members i) with
      | none => exact Bool.eq_false_iff.2 (List.find?_eq_none.1 hfind e he)
      | some g =>
        obtain ⟨hnote, as, bs, rfl, hquiet⟩ := List.find?_eq_some_iff_append.1 hfind
        obtain ⟨w, text, rfl⟩ := isNote_iff.1 hnote
        have hsplit : es = (es₁ ++ f :: as) ++ note members i w text :: bs := by
          rw [hes, List.append_assoc, List.cons_append]
        have hlast := keepsNote_iff.1 (hkept _ w text bs hsplit)
        have hbefore := ownLength_le_append members es₁ (f :: as) i
        have hafter := ownLength_le_append members (es₁ ++ f :: as) (note members i w text :: bs) i
        rw [← hsplit] at hafter
        have hlength : ownLength members es i < 2 ^ 32 := hshort
        obtain ⟨hnoted, hlonger⟩ := hforges.noted_lt_ownLength
          (fun a ha => by simpa using hquiet a ha) (by omega)
        rw [hnoted] at hlast
        omega
    · intro hlate es₁ w text es₂ hes
      have hnone : ∀ as f bs, es₁ = as ++ f :: bs → ¬Forges members as i f := by
        rintro as f bs rfl hforges
        have hes' : es = as ++ f :: (bs ++ note members i w text :: es₂) := by
          rw [hes, List.append_assoc, List.cons_append]
        have hnot := hlate as f _ hes' hforges (note members i w text)
          (List.mem_append_right _ List.mem_cons_self)
        exact nomatch (isNote_iff.2 ⟨w, text, rfl⟩).symm.trans hnot
      rw [keepsNote_iff, ownLength_eq_noted hnone]

end Events

namespace Pair

/-- A stranger brings the first node a message in its own name. -/
def forged : Event Bool :=
  .told false moment (.packet (address 3) (.secret ⟨"a", 1, "a", "forged", 10⟩))

/-- **A note that is lost**: after a forged message the first note of a node leaves no trace. -/
theorem note_lost : ¬KeepsNote members [forged] false moment "hi" ∧
    (hubAfter members [forged, note members false moment "hi"] false).privates.log "a" =
      [⟨"a", 1, "a", "forged", 10⟩] := by
  refine ⟨?_, ?_⟩
  · rw [keepsNote_iff]
    decide +kernel
  · decide +kernel

end Pair

end Swarm
end GossipLedger
