import GossipLedger.Proofs.Rumor.Frame

/-!
# What a hub does with private messages

A client asks for a private message, and the hub numbers it, keeps it and hands it to the next
hop.  A private message of a peer is kept by the hub that it is meant for, and every other hub
hands it on, unless no hops are left or no way is known.  No other command has a part in private
messages, and none makes one up.

## Main definitions

* `PrivateMessage.contents` — a message apart from its hop limit.
* `Hub.sentTo`, `Hub.numberedTo` — the own messages to a destination and the last number.
* `Packet.letter?`, `lettersOf` — the private messages among packets.
* `Hub.Posts` — all that a command can do with private messages.

## Main results

* `Hub.posts_obey` — **what a hub does with private messages when it is told something.**
-/

namespace GossipLedger

/-- What a message says and who to, whatever hops are left. -/
def PrivateMessage.contents (m : PrivateMessage) : PrivateMessage := { m with hopLimit := 0 }

theorem PrivateMessage.of_contents_eq {m x : PrivateMessage} (h : m.contents = x.contents) :
    m.origin = x.origin ∧ m.sequence = x.sequence ∧ m.destination = x.destination ∧
      m.text = x.text := by
  obtain ⟨horigin, hsequence, hdestination, htext, -⟩ := PrivateMessage.mk.inj h
  exact ⟨horigin, hsequence, hdestination, htext⟩

/-- A private message in a packet. -/
def Packet.letter? : Packet → Option PrivateMessage
  | .secret m => some m
  | _ => none

/-- The private messages among packets. -/
def lettersOf (packets : List Packet) : List PrivateMessage := packets.filterMap Packet.letter?

theorem mem_lettersOf {packets : List Packet} {m : PrivateMessage} :
    m ∈ lettersOf packets ↔ .secret m ∈ packets := by
  unfold lettersOf
  rw [List.mem_filterMap]
  constructor
  · rintro ⟨packet, hmem, hletter⟩
    cases packet with
    | secret m' =>
      obtain rfl := Option.some.inj hletter
      exact hmem
    | _ => exact nomatch hletter
  · intro hmem
    exact ⟨.secret m, hmem, rfl⟩

theorem lettersOf_append (before after : List Packet) :
    lettersOf (before ++ after) = lettersOf before ++ lettersOf after := List.filterMap_append

/-- Whether a command asks for a private message or brings one. -/
def HubCommand.posts : HubCommand → Bool
  | .packet _ (.secret _) => true
  | .client (.secret _ _) => true
  | _ => false

namespace Hub

variable {h h' h'' : Hub} {effects : List Effect}

/-- The own private messages to a destination, oldest first. -/
def sentTo (h : Hub) (destination : String) : List PrivateMessage :=
  (h.sentPrivates.get? destination).getD []

/-- The number of the last own private message to a destination. -/
def numberedTo (h : Hub) (destination : String) : UInt32 :=
  (h.privateCounters.get? destination).getD 0

/-- The private messages that a hub sends. -/
def letters (effects : List Effect) : List PrivateMessage :=
  lettersOf (effects.filterMap Effect.packet?)

/-- The private message that a client asks for. -/
def newLetter (h : Hub) (destination text : String) : PrivateMessage :=
  ⟨h.name, h.numberedTo destination + 1, destination, text, h.settings.privateHopLimit⟩

theorem SamePrivates.sentTo (hsame : SamePrivates h h') (destination : String) :
    h'.sentTo destination = h.sentTo destination := by
  rw [Hub.sentTo, hsame.sentPrivates]
  rfl

theorem SamePrivates.numberedTo (hsame : SamePrivates h h') (destination : String) :
    h'.numberedTo destination = h.numberedTo destination := by
  rw [Hub.numberedTo, hsame.counters]
  rfl

/-- **All that a command can do with private messages**: the state afterwards, and the messages
that are sent. -/
inductive Posts (h : Hub) : HubCommand → Hub → List PrivateMessage → Prop
  /-- The command has no part in private messages, or a message is given up. -/
  | idle {c : HubCommand} {h' : Hub} : SamePrivates h h' → Posts h c h' []
  /-- A client writes to its own node. -/
  | noted {destination text : String} {h' : Hub} : destination = h.name →
      SamePrivates { h with
        privateCounters := h.privateCounters.set destination (h.numberedTo destination + 1)
        privates := (h.privates.append? (h.newLetter destination text)).getD h.privates } h' →
      Posts h (.client (.secret destination text)) h' []
  /-- A client writes to another node. -/
  | asked {destination text : String} {h' : Hub} {sent : List PrivateMessage} :
      destination ≠ h.name →
      SamePrivates { h with
        privateCounters := h.privateCounters.set destination (h.numberedTo destination + 1)
        sentPrivates := h.sentPrivates.set destination
          (h.sentTo destination ++ [h.newLetter destination text]) } h' →
      sent = [] ∨ sent = [h.newLetter destination text] →
      Posts h (.client (.secret destination text)) h' sent
  /-- A message has come to its destination. -/
  | kept {sender : PeerAddress} {m : PrivateMessage} {h' : Hub} : m.destination = h.name →
      SamePrivates { h with privates := (h.privates.append? m).getD h.privates } h' →
      Posts h (.packet sender (.secret m)) h' []
  /-- A message is handed on. -/
  | passed {sender : PeerAddress} {m : PrivateMessage} {h' : Hub} : m.destination ≠ h.name →
      1 < m.hopLimit → SamePrivates h h' →
      Posts h (.packet sender (.secret m)) h' [{ m with hopLimit := m.hopLimit - 1 }]

/-! ### Parts of the handlers -/

/-- That the sender of a packet becomes known does not matter. -/
theorem samePrivates_meet (h : Hub) (sender : PeerAddress) :
    SamePrivates h (if sender = h.address then h else h.withPeers (h.peers.add sender)) := by
  split
  next => exact .refl h
  next => exact ⟨rfl, rfl, rfl, rfl, rfl⟩

theorem letters_forwardPrivate (h : Hub) (m : PrivateMessage) :
    letters (h.forwardPrivate m) = [] ∨ letters (h.forwardPrivate m) = [m] := by
  unfold forwardPrivate
  split
  next => exact Or.inr rfl
  next => exact Or.inl rfl

/-! ### Private messages -/

/-- A message to another node is numbered, kept and handed on. -/
theorem onPrivateRequest_of_ne {destination : String} (hother : destination ≠ h.name)
    (text : String) : ∃ h', SamePrivates { h with
        privateCounters := h.privateCounters.set destination (h.numberedTo destination + 1)
        sentPrivates := h.sentPrivates.set destination
          (h.sentTo destination ++ [h.newLetter destination text]) } h' ∧ h'.routes = h.routes ∧
      h.onPrivateRequest destination text =
        (h', h.forwardPrivate (h.newLetter destination text)) := by
  refine ⟨_, .refl _, rfl, ?_⟩
  unfold onPrivateRequest
  dsimp only
  rw [if_neg hother]
  rfl

theorem posts_onPrivateRequest (h : Hub) (destination text : String) :
    Posts h (.client (.secret destination text)) (h.onPrivateRequest destination text).1
      (letters (h.onPrivateRequest destination text).2) := by
  by_cases hown : destination = h.name
  · unfold onPrivateRequest
    dsimp only
    rw [if_pos hown]
    exact .noted hown (.refl _)
  · obtain ⟨h', hsame, -, heq⟩ := onPrivateRequest_of_ne hown text
    rw [heq]
    exact .asked hown hsame (letters_forwardPrivate h _)

/-- What is done before a message is handled does not matter if it leaves the messages alone. -/
theorem posts_onPrivate (hsame : SamePrivates h h') (sender : PeerAddress) (m : PrivateMessage) :
    Posts h (.packet sender (.secret m)) (h'.onPrivate sender m).1
      (letters (h'.onPrivate sender m).2) := by
  have hlearned := hsame.trans (h'.sameRest_learnRoute m.origin sender).toSamePrivates
  unfold onPrivate
  dsimp only
  generalize h'.learnRoute m.origin sender = k at hlearned
  split
  next hown =>
    exact .kept (hown.trans hlearned.name) ⟨hlearned.name, hlearned.settings, hlearned.counters,
      by rw [hlearned.privates], hlearned.sentPrivates⟩
  next hother =>
    rw [hlearned.name] at hother
    split
    next => exact .idle hlearned
    next hhops =>
      rcases letters_forwardPrivate k { m with hopLimit := m.hopLimit - 1 } with hnone | hsent
      · rw [hnone]
        exact .idle hlearned
      · rw [hsent]
        exact .passed hother (UInt32.not_le.1 hhops) hlearned

/-! ### Everything else -/

/-- The answer to a rumor is a status. -/
theorem letters_onRumor (w : Moment) (h : Hub) (sender : PeerAddress) (r : Rumor) :
    letters (h.onRumor w sender r).2 = [] := by
  cases hroute : r.isRoute with
  | true =>
    unfold onRumor
    simp only [hroute, if_true]
    rcases onRouteRumor_cases w (h.learnRoute r.origin sender) sender r with heq | heq
    · rw [heq]
      rfl
    · rw [heq]
      rfl
  | false =>
    obtain ⟨h', heq, -⟩ := h.onRumor_eq w sender hroute
    rw [heq]
    rfl

theorem letters_append (before after : List Effect) :
    letters (before ++ after) = letters before ++ letters after := by
  rw [letters, List.filterMap_append, lettersOf_append]
  rfl

/-- The answer to a status is a status and rumors. -/
theorem letters_reconcile (w : Moment) (h : Hub) (sender : PeerAddress) (theirs : StatusVector) :
    letters (h.reconcile w sender theirs).2 = [] := by
  have hrumors : ∀ rs : List Rumor, letters (rs.map fun r => unicast sender (.rumor r)) = [] := by
    intro rs
    induction rs with
    | nil => rfl
    | cons r rs ih => exact ih
  rw [reconcile_effects, letters_append, hrumors, List.append_nil]
  split
  next => rfl
  next => rfl

/-- Of all packets only those with a private message matter. -/
theorem posts_onPacket (w : Moment) (h : Hub) (sender : PeerAddress) (packet : Packet) :
    Posts h (.packet sender packet) (h.onPacket w sender packet).1
      (letters (h.onPacket w sender packet).2) := by
  have hmet := h.samePrivates_meet sender
  unfold onPacket
  dsimp only
  generalize (if sender = h.address then h else h.withPeers (h.peers.add sender)) = k at hmet
  cases packet with
  | simple m =>
    have hnone : letters (k.onSimple sender m) = [] := by
      unfold onSimple
      split
      next => rfl
      next => rfl
    rw [hnone]
    exact .idle hmet
  | rumor r =>
    rw [letters_onRumor]
    exact .idle (hmet.trans (k.sameRest_onRumor w sender r).toSamePrivates)
  | status status =>
    cases status with
    | want entries =>
      rw [letters_reconcile]
      exact .idle (hmet.trans (k.sameRest_reconcile w sender _).toSamePrivates)
    | route name => exact .idle (hmet.trans (k.sameRest_onRouteStatus sender name).toSamePrivates)
  | secret m => exact posts_onPrivate hmet sender m
  | transaction m => exact .idle hmet
  | block m => exact .idle hmet

theorem posts_onClient (h : Hub) (request : ClientRequest) :
    Posts h (.client request) (h.onClient request).1 (letters (h.onClient request).2) := by
  cases request with
  | rumor text => exact .idle (h.sameRest_onRumorRequest text).toSamePrivates
  | secret destination text => exact h.posts_onPrivateRequest destination text
  | broadcast text => exact .idle (.refl h)
  | transaction input output amount => exact .idle (.refl h)
  | addPeer peer =>
    unfold onClient
    dsimp only
    split
    next => exact .idle (.refl h)
    next => exact .idle ⟨rfl, rfl, rfl, rfl, rfl⟩

theorem posts_antiEntropy (w : Moment) (h : Hub) :
    Posts h .antiEntropy (h.antiEntropy w).1 (letters (h.antiEntropy w).2) := by
  unfold antiEntropy
  split
  next => exact .idle ⟨rfl, rfl, rfl, rfl, rfl⟩
  next => exact .idle ⟨rfl, rfl, rfl, rfl, rfl⟩

theorem probeNext_letters (w : Moment) (h : Hub) :
    SamePrivates h (h.probeNext w).1 ∧ letters (h.probeNext w).2 = [] := by
  unfold probeNext
  split
  next => exact ⟨⟨rfl, rfl, rfl, rfl, rfl⟩, rfl⟩
  next => exact ⟨⟨rfl, rfl, rfl, rfl, rfl⟩, rfl⟩

theorem posts_routeTick (w : Moment) (h : Hub) :
    Posts h .routeTick (h.routeTick w).1 (letters (h.routeTick w).2) := by
  have hprobe : ∀ k : Hub, SamePrivates h k →
      Posts h .routeTick (k.probeNext w).1 (letters (k.probeNext w).2) := by
    intro k hk
    obtain ⟨hsame, hnone⟩ := k.probeNext_letters w
    rw [hnone]
    exact .idle (hk.trans hsame)
  unfold routeTick
  split
  next =>
    split
    next => exact hprobe h (.refl h)
    next =>
      dsimp only
      split
      next => exact .idle ⟨rfl, rfl, rfl, rfl, rfl⟩
      next => exact hprobe _ ⟨rfl, rfl, rfl, rfl, rfl⟩
  next => exact hprobe h (.refl h)

/-- **What a hub does with private messages when it is told something.** -/
theorem posts_obey (w : Moment) (h : Hub) (c : HubCommand) :
    Posts h c (h.obey w c).1 (letters (h.obey w c).2) := by
  cases c with
  | packet sender packet => exact h.posts_onPacket w sender packet
  | client request => exact h.posts_onClient request
  | antiEntropy => exact h.posts_antiEntropy w
  | routeTick => exact h.posts_routeTick w

/-! ### What becomes of the messages -/

section Posts

variable {c : HubCommand} {sent : List PrivateMessage}

theorem sentTo_of_set {h h' : Hub} {destination d : String} {ms : List PrivateMessage}
    (hset : h'.sentPrivates = h.sentPrivates.set destination ms) :
    h'.sentTo d = if destination = d then ms else h.sentTo d := by
  rw [sentTo, hset, NameMap.get?_set]
  split
  next => rfl
  next => rfl

theorem numberedTo_of_set {h h' : Hub} {destination d : String} {n : UInt32}
    (hset : h'.privateCounters = h.privateCounters.set destination n) :
    h'.numberedTo d = if destination = d then n else h.numberedTo d := by
  rw [numberedTo, hset, NameMap.get?_set]
  split
  next => rfl
  next => rfl

theorem Posts.name (hposts : Posts h c h' sent) : h'.name = h.name := by
  cases hposts with
  | idle hsame => exact hsame.name
  | noted _ hsame => exact hsame.name
  | asked _ hsame _ => exact hsame.name
  | kept _ hsame => exact hsame.name
  | passed _ _ hsame => exact hsame.name

theorem Posts.settings (hposts : Posts h c h' sent) : h'.settings = h.settings := by
  cases hposts with
  | idle hsame => exact hsame.settings
  | noted _ hsame => exact hsame.settings
  | asked _ hsame _ => exact hsame.settings
  | kept _ hsame => exact hsame.settings
  | passed _ _ hsame => exact hsame.settings

/-- The own messages to a destination grow by the one that a client asks for. -/
theorem Posts.sentTo (hposts : Posts h c h' sent) (d : String) :
    h'.sentTo d = h.sentTo d ∨
      ∃ text, d ≠ h.name ∧ h'.sentTo d = h.sentTo d ++ [h.newLetter d text] ∧
        h'.numberedTo d = h.numberedTo d + 1 := by
  cases hposts with
  | idle hsame => exact Or.inl (hsame.sentTo d)
  | noted _ hsame => exact Or.inl (hsame.sentTo d)
  | @asked destination text _ _ hother hsame _ =>
    by_cases hd : destination = d
    · subst hd
      refine Or.inr ⟨text, hother, ?_, ?_⟩
      · rw [sentTo_of_set hsame.sentPrivates, if_pos rfl]
      · rw [numberedTo_of_set hsame.counters, if_pos rfl]
    · left
      rw [sentTo_of_set hsame.sentPrivates, if_neg hd]
  | kept _ hsame => exact Or.inl (hsame.sentTo d)
  | passed _ _ hsame => exact Or.inl (hsame.sentTo d)

/-- The number of the last message to another node counts the messages. -/
theorem Posts.numberedTo (hposts : Posts h c h' sent) {d : String} (hd : d ≠ h.name)
    (hsent : h'.sentTo d = h.sentTo d) : h'.numberedTo d = h.numberedTo d := by
  cases hposts with
  | idle hsame => exact hsame.numberedTo d
  | noted hown hsame =>
    rw [numberedTo_of_set hsame.counters, if_neg]
    rintro rfl
    exact hd hown
  | @asked destination text _ _ hother hsame _ =>
    rw [numberedTo_of_set hsame.counters, if_neg]
    rintro rfl
    rw [sentTo_of_set hsame.sentPrivates, if_pos rfl] at hsent
    exact absurd (congrArg List.length hsent) (by simp)
  | kept _ hsame => exact hsame.numberedTo d
  | passed _ _ hsame => exact hsame.numberedTo d

theorem Posts.sentTo_prefix (hposts : Posts h c h' sent) (d : String) :
    h.sentTo d <+: h'.sentTo d := by
  rcases hposts.sentTo d with hsame | ⟨text, -, hmore, -⟩
  · exact hsame ▸ List.prefix_rfl
  · exact hmore ▸ List.prefix_append _ _

/-- **The own messages to each other node are numbered from one on**, in 32 bits, and the last
number counts them. -/
structure Numbers (h : Hub) : Prop where
  numbered : ∀ d k m, (h.sentTo d)[k]? = some m →
    m.origin = h.name ∧ m.destination = d ∧ m.sequence = UInt32.ofNat (k + 1)
  counted : ∀ d, d ≠ h.name → h.numberedTo d = UInt32.ofNat (h.sentTo d).length

/-- A command leaves the own messages numbered. -/
theorem Numbers.posts (hnumbers : Numbers h) (hposts : Posts h c h' sent) : Numbers h' := by
  refine ⟨fun d k m hm => ?_, fun d hd => ?_⟩
  · rw [hposts.name]
    rcases hposts.sentTo d with hsame | ⟨text, hd, hmore, -⟩
    · rw [hsame] at hm
      exact hnumbers.numbered d k m hm
    · rw [hmore] at hm
      by_cases hk : k < (h.sentTo d).length
      · rw [List.getElem?_append_left hk] at hm
        exact hnumbers.numbered d k m hm
      · rw [List.getElem?_append_right (Nat.not_lt.1 hk), List.getElem?_singleton] at hm
        split at hm
        next hlast =>
          obtain rfl := Option.some.inj hm
          have hk : k = (h.sentTo d).length := by omega
          refine ⟨rfl, rfl, ?_⟩
          rw [newLetter, hnumbers.counted d hd, hk]
          exact (UInt32.ofNat_add _ 1).symm
        next => exact nomatch hm
  · rw [hposts.name] at hd
    rcases hposts.sentTo d with hsame | ⟨text, -, hmore, hnext⟩
    · rw [hposts.numberedTo hd hsame, hsame]
      exact hnumbers.counted d hd
    · rw [hnext, hmore, hnumbers.counted d hd, List.length_append]
      exact (UInt32.ofNat_add _ 1).symm

/-- What is kept was kept before, or is meant for this hub and was asked for here or brought. -/
theorem Posts.mem_log (hposts : Posts h c h' sent) {o : String} {m : PrivateMessage}
    (hm : m ∈ h'.privates.log o) :
    m ∈ h.privates.log o ∨ (m.destination = h.name ∧
      (m.origin = h.name ∨ ∃ sender, c = .packet sender (.secret m))) := by
  have happended : ∀ x, m ∈ ((h.privates.append? x).getD h.privates).log o →
      m ∈ h.privates.log o ∨ m = x := by
    intro x hx
    cases happend : h.privates.append? x with
    | none =>
      rw [happend] at hx
      exact Or.inl hx
    | some privates =>
      rw [happend] at hx
      exact MessageStore.mem_log_append? happend hx
  cases hposts with
  | idle hsame => exact Or.inl (hsame.privates ▸ hm)
  | noted hown hsame =>
    rw [hsame.privates] at hm
    refine (happended _ hm).imp_right fun heq => ?_
    rw [heq]
    exact ⟨hown, Or.inl rfl⟩
  | asked _ hsame _ => exact Or.inl (hsame.privates ▸ hm)
  | @kept sender x _ hown hsame =>
    rw [hsame.privates] at hm
    refine (happended _ hm).imp_right fun heq => ?_
    rw [heq]
    exact ⟨hown, Or.inr ⟨sender, rfl⟩⟩
  | passed _ _ hsame => exact Or.inl (hsame.privates ▸ hm)

/-- What is kept is kept in order. -/
theorem Posts.built (hposts : Posts h c h' sent) (hbuilt : h.privates.Built) :
    h'.privates.Built := by
  have happended : ∀ x, ((h.privates.append? x).getD h.privates).Built := by
    intro x
    cases happend : h.privates.append? x with
    | none => exact hbuilt
    | some privates => exact hbuilt.append happend
  cases hposts with
  | idle hsame => exact hsame.privates ▸ hbuilt
  | noted _ hsame => exact hsame.privates ▸ happended _
  | asked _ hsame _ => exact hsame.privates ▸ hbuilt
  | kept _ hsame => exact hsame.privates ▸ happended _
  | passed _ _ hsame => exact hsame.privates ▸ hbuilt

/-- What is sent is an own message, or has the contents of one that was brought. -/
theorem Posts.mem_sent (hposts : Posts h c h' sent) {m : PrivateMessage} (hm : m ∈ sent) :
    (m.origin = h.name ∧ m ∈ h'.sentTo m.destination) ∨
      ∃ sender x, c = .packet sender (.secret x) ∧ m.contents = x.contents := by
  cases hposts with
  | idle => exact nomatch hm
  | noted => exact nomatch hm
  | @asked destination text _ _ hother hsame hsent =>
    rcases hsent with rfl | rfl
    · exact nomatch hm
    · obtain rfl := List.mem_singleton.1 hm
      refine Or.inl ⟨rfl, ?_⟩
      show h.newLetter destination text ∈ h'.sentTo destination
      rw [sentTo_of_set hsame.sentPrivates, if_pos rfl]
      exact List.mem_append_right _ (List.mem_singleton_self _)
  | kept => exact nomatch hm
  | @passed sender x =>
    rw [List.mem_singleton.1 hm]
    exact Or.inr ⟨sender, x, rfl, rfl⟩

/-- A request sends one private message at most. -/
theorem Posts.sent_of_asked {destination text : String}
    (hposts : Posts h (.client (.secret destination text)) h' sent) :
    sent = [] ∨ sent = [h.newLetter destination text] := by
  cases hposts with
  | idle => exact Or.inl rfl
  | noted => exact Or.inl rfl
  | asked _ _ hsent => exact hsent

/-- A private message leads to one with a hop less at most, and not without hops left. -/
theorem Posts.sent_of_brought {sender : PeerAddress} {m : PrivateMessage}
    (hposts : Posts h (.packet sender (.secret m)) h' sent) :
    sent = [] ∨ 1 < m.hopLimit ∧ sent = [{ m with hopLimit := m.hopLimit - 1 }] := by
  cases hposts with
  | idle => exact Or.inl rfl
  | kept => exact Or.inl rfl
  | passed _ hhops _ => exact Or.inr ⟨hhops, rfl⟩

/-- Other commands send no private message. -/
theorem Posts.sent_of_not_posts (hposts : Posts h c h' sent) (hc : c.posts = false) :
    sent = [] := by
  cases hposts with
  | idle => rfl
  | noted => rfl
  | asked => exact nomatch hc
  | kept => rfl
  | passed => exact nomatch hc

end Posts

end Hub
end GossipLedger
