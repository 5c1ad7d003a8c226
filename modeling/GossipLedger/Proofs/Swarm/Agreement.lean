import GossipLedger.Proofs.Rumor.Exchange
import GossipLedger.Proofs.Swarm.Numbering

/-!
# When a status is left unanswered

A node that gets the status of a peer compares it with its own rumors.  It sends rumors that the
peer lacks and its own status if the peer has more.  If neither is called for, the peer counts as
up to date, and the monger that talks to it goes on or stops as the coin says.

So nothing is answered to a status that is the same as the node's own.  There is one more way: an
entry that says zero for an origin the node has heard of.  Zero is an old number, but no rumor is
stored under it, so nothing is sent to a peer that has nothing of this origin.

## Main definitions

* `MessageStore.Settled` — nothing follows from an entry of a status.
* `MessageStore.Agrees` — a status is that of the store, up to zeros for origins of the store.

## Main results

* `MessageStore.settled_iff` — when nothing follows from an entry.
* `MessageStore.compareStatus_eq_nil_iff_agrees` — **when nothing is answered.**
* `Hub.onPacket_want_tasks` — what a status means to the monger that talks to the peer.
* `Hub.exists_answer` — what is answered otherwise.
* `Swarm.unanswered_iff_agrees` — **only a status that agrees with the rumors of a node is left
  unanswered**, after any events.
* `Swarm.Pair.unanswered_zero` — a zero that hides what a peer lacks.
-/

namespace GossipLedger
namespace StatusVector

/-- Of several entries of a status for one origin the last counts. -/
theorem get?_ofWant (entries : List PeerStatus) (o : String) :
    (ofWant entries).get? o =
      ((entries.filter fun e => e.identifier = o).getLast?).map PeerStatus.nextSequence := by
  unfold ofWant
  rw [NameMap.get?_ofList, List.filter_map, List.getLast?_map, Option.map_map]
  rfl

end StatusVector

namespace MessageStore

variable {t : MessageStore Rumor} {v : StatusVector} {o : String} {n : UInt32}

/-- Nothing follows from an entry of a status: it is no news, and no rumor is owed for it. -/
def Settled (t : MessageStore Rumor) (o : String) (n : UInt32) : Prop :=
  t.compare o (lastSeen n) ≠ .new ∧
    (if t.compare o (lastSeen n) = .old then t.message? o n else none) = none

theorem get?_statusVector_eq (ht : Built t) (o : String) :
    t.statusVector.get? o = if t.log o = [] then none else some (t.last o + 1) := by
  rw [get?_statusVector, ht.get?_eq, last_add_one]
  split
  next => rfl
  next => rfl

/-- The number before the next one is the last. -/
theorem eq_next_iff (hn : n ≠ 0) : n = t.last o + 1 ↔ lastSeen n = t.last o := by
  rw [lastSeen, if_neg hn]
  constructor
  · rintro rfl
    exact UInt32.add_sub_cancel _ _
  · intro hlast
    rw [← hlast, UInt32.sub_add_cancel]

/-- Nothing follows from a zero for an origin of the store: it is an old number, but there is no
message under it. -/
theorem settled_zero (ht : Built t) (hne : t.log o ≠ []) : t.Settled o 0 := by
  have hlast : lastSeen 0 = 0 := rfl
  refine ⟨?_, ?_⟩
  · rw [compare, if_pos (ht.contains_iff.2 hne), hlast, if_neg UInt32.not_lt_zero]
    split
    next => exact Freshness.noConfusion
    next => exact Freshness.noConfusion
  · rw [message?_zero, ite_self]

/-- There is a message under every number that is not after the last one. -/
theorem message?_ne_none (hn : n ≠ 0) (hle : lastSeen n < t.last o) : t.message? o n ≠ none := by
  have hpos : 0 < n.toNat := Nat.pos_of_ne_zero fun h => hn (UInt32.toNat_inj.1 h)
  have hone : (1 : UInt32) ≤ n := by
    rw [UInt32.le_iff_toNat_le]
    exact hpos
  have hseen : (n - 1).toNat = n.toNat - 1 := UInt32.toNat_sub_of_le _ _ hone
  have hlast : (t.last o).toNat ≤ t.length o := by
    rw [last, UInt32.toNat_ofNat']
    exact Nat.mod_le _ _
  rw [lastSeen, if_neg hn, UInt32.lt_iff_toNat_lt, hseen] at hle
  rw [message?_of_ne_zero t o hn, ne_eq, List.getElem?_eq_none_iff]
  unfold length at hlast
  omega

/-- Nothing follows from another number exactly if the one before is the last of the log: there is
a message under every number that is old. -/
theorem settled_iff_of_ne_zero (ht : Built t) (hne : t.log o ≠ []) (hn : n ≠ 0) :
    t.Settled o n ↔ lastSeen n = t.last o := by
  rw [Settled, compare, if_pos (ht.contains_iff.2 hne)]
  by_cases hmore : t.last o < lastSeen n
  · rw [if_pos hmore]
    refine iff_of_false (fun h => h.1 rfl) fun hsame => ?_
    exact UInt32.lt_irrefl _ (hsame ▸ hmore)
  · rw [if_neg hmore]
    by_cases hsame : lastSeen n = t.last o
    · rw [if_pos hsame]
      exact iff_of_true ⟨Freshness.noConfusion, if_neg Freshness.noConfusion⟩ hsame
    · rw [if_neg hsame]
      refine iff_of_false (fun h => ?_) hsame
      have hless : lastSeen n < t.last o :=
        UInt32.lt_of_le_of_ne (UInt32.not_lt.1 hmore) hsame
      exact message?_ne_none hn hless (by simpa using h.2)

/-- **When nothing follows from an entry of a status**: it has the next number of a log, or zero in
its place. -/
theorem settled_iff (ht : Built t) : t.Settled o n ↔
    t.log o ≠ [] ∧ (n = t.last o + 1 ∨ n = 0) := by
  by_cases hnil : t.log o = []
  · rw [Settled, ht.compare_of_log_eq_nil hnil]
    exact iff_of_false (fun h => h.1 rfl) fun h => h.1 hnil
  · rw [and_iff_right hnil]
    by_cases hzero : n = 0
    · subst hzero
      exact iff_of_true (settled_zero ht hnil) (Or.inr rfl)
    · rw [settled_iff_of_ne_zero ht hnil hzero, eq_next_iff hzero, or_iff_left hzero]

/-- A status says of every origin what the status of the store says, or zero if the store has
the origin. -/
def Agrees (t : MessageStore Rumor) (v : StatusVector) : Prop :=
  ∀ o, v.get? o = t.statusVector.get? o ∨ (v.get? o = some 0 ∧ t.log o ≠ [])

/-- Nothing is answered to a status exactly if it lists all origins of the store and none of its
entries leads to anything. -/
theorem compareStatus_eq_nil_iff : Hub.compareStatus t v = ([], false) ↔
    t.firstGap? v = none ∧ ∀ o n, v.get? o = some n → t.Settled o n := by
  unfold Hub.compareStatus
  split
  next first hgap => exact iff_of_false (fun h => nomatch h) fun h => nomatch hgap.symm.trans h.1
  next hgap =>
    rw [Prod.mk.injEq, List.filterMap_eq_nil_iff, List.any_eq_false]
    constructor
    · rintro ⟨hpushes, hnews⟩
      refine ⟨hgap, fun o n ho => ?_⟩
      have he := NameMap.get?_eq_some_iff.1 ho
      exact ⟨of_decide_eq_false (Bool.eq_false_iff.2 (hnews _ he)), hpushes _ he⟩
    · rintro ⟨-, hall⟩
      refine ⟨fun e he => ?_, fun e he => ?_⟩
      · exact (hall e.1 e.2 (NameMap.get?_eq_some_iff.2 he)).2
      · exact fun hnew => (hall e.1 e.2 (NameMap.get?_eq_some_iff.2 he)).1 (of_decide_eq_true hnew)

/-- **Nothing is answered to a status exactly if it agrees with the store.** -/
theorem compareStatus_eq_nil_iff_agrees (ht : Built t) :
    Hub.compareStatus t v = ([], false) ↔ t.Agrees v := by
  rw [compareStatus_eq_nil_iff, ht.firstGap?_eq_none_iff]
  constructor
  · rintro ⟨hlists, hsettled⟩ o
    rw [get?_statusVector_eq ht]
    cases ho : v.get? o with
    | none =>
      have hnil : t.log o = [] := by
        by_contra hne
        have hcontains := hlists o hne
        rw [NameMap.contains_eq, ho] at hcontains
        exact nomatch hcontains
      exact Or.inl (if_pos hnil).symm
    | some n =>
      obtain ⟨hne, rfl | rfl⟩ := (settled_iff ht).1 (hsettled o n ho)
      · exact Or.inl (if_neg hne).symm
      · exact Or.inr ⟨rfl, hne⟩
  · intro hagrees
    refine ⟨fun o hne => ?_, fun o n ho => ?_⟩
    · rw [NameMap.contains_eq]
      rcases hagrees o with hsame | ⟨hzero, -⟩
      · rw [hsame, get?_statusVector_eq ht, if_neg hne]
        rfl
      · rw [hzero]
        rfl
    · rw [settled_iff ht]
      rcases hagrees o with hsame | ⟨hzero, hne⟩
      · rw [ho, get?_statusVector_eq ht] at hsame
        split at hsame
        next => exact nomatch hsame
        next hne => exact ⟨hne, Or.inl (Option.some.inj hsame)⟩
      · exact ⟨hne, Or.inr (Option.some.inj (ho.symm.trans hzero))⟩

/-- A status without zeros for origins of the store agrees with it exactly if it is the status of
the store. -/
theorem agrees_iff_eq (hzero : ∀ o, t.log o ≠ [] → v.get? o ≠ some 0) :
    t.Agrees v ↔ v = t.statusVector := by
  constructor
  · intro hagrees
    refine NameMap.ext_get? fun o => (hagrees o).resolve_right ?_
    rintro ⟨ho, hne⟩
    exact hzero o hne ho
  · rintro rfl o
    exact Or.inl rfl

end MessageStore

namespace Hub

variable {w : Moment} {h : Hub} {sender : PeerAddress} {entries : List PeerStatus}

/-- The own status of a hub answers a status if the peer has more. -/
theorem onPacket_want_effects_eq_nil_iff :
    (h.onPacket w sender (.status (.want entries))).2 = [] ↔
      compareStatus h.rumors (.ofWant entries) = ([], false) := by
  rw [(h.onPacket_want w sender entries).2, List.append_eq_nil_iff, List.map_eq_nil_iff]
  cases hcompare : compareStatus h.rumors (.ofWant entries) with
  | mk pushes behind => cases behind <;> simp

/-- Who is known does not matter to the mongers that are told something. -/
theorem withPeers_signal (h : Hub) (peers : PeerSet) (id : Option Nat) (s : Signal) :
    (h.withPeers peers).signal id s = (h.signal id s).withPeers peers := by
  cases id with
  | none => rfl
  | some id => rfl

/-- **What a status of a peer means to the monger that talks to it**: it waits, and then goes on or
stops as the coin says if nothing is answered. -/
theorem onPacket_want_tasks (w : Moment) (h : Hub) (sender : PeerAddress)
    (entries : List PeerStatus) :
    (h.onPacket w sender (.status (.want entries))).1.crew.tasks =
      if compareStatus h.rumors (.ofWant entries) = ([], false) then
        ((h.signal (h.crew.talkingTo? sender false) .sync).signal
          (h.crew.talkingTo? sender false) (if w.coin then .reset else .stop)).crew.tasks
      else (h.signal (h.crew.talkingTo? sender false) .sync).crew.tasks := by
  have hmeet : ∃ peers, (if sender = h.address then h else h.withPeers (h.peers.add sender)) =
      h.withPeers peers := by
    split
    next => exact ⟨h.peers, rfl⟩
    next => exact ⟨_, rfl⟩
  obtain ⟨peers, hmeet⟩ := hmeet
  have hsame := h.sameRumors_signal (h.crew.talkingTo? sender false) .sync
  unfold onPacket reconcile
  dsimp only
  have hmonger : (h.withPeers peers).crew.talkingTo? sender false =
      h.crew.talkingTo? sender false := rfl
  rw [hmeet, hmonger, withPeers_signal]
  have hrumors : ((h.signal (h.crew.talkingTo? sender false) .sync).withPeers peers).rumors =
      h.rumors := hsame.rumors
  rw [hrumors]
  cases compareStatus h.rumors (.ofWant entries) with
  | mk pushes behind =>
    have hnothing : (pushes.isEmpty && !behind) = true ↔ (pushes, behind) = ([], false) := by
      cases pushes <;> cases behind <;> simp
    by_cases hnone : (pushes, behind) = ([], false)
    · rw [if_pos (hnothing.2 hnone), if_pos hnone, withPeers_signal]
      rfl
    · rw [if_neg (mt hnothing.1 hnone), if_neg hnone]
      rfl

/-- Whatever is answered to a status is a stored rumor or the own status. -/
theorem exists_answer (hanswer : (h.onPacket w sender (.status (.want entries))).2 ≠ []) :
    (∃ o, ∃ r ∈ h.rumors.log o,
        unicast sender (.rumor r) ∈ (h.onPacket w sender (.status (.want entries))).2) ∨
      unicast sender h.status ∈ (h.onPacket w sender (.status (.want entries))).2 := by
  rw [(h.onPacket_want w sender entries).2] at hanswer ⊢
  cases hpushes : (compareStatus h.rumors (.ofWant entries)).1 with
  | cons r rs =>
    have hr : r ∈ (compareStatus h.rumors (.ofWant entries)).1 := by
      rw [hpushes]
      exact List.mem_cons_self
    obtain ⟨o, hlog⟩ := mem_log_of_mem_compareStatus hr
    refine Or.inl ⟨o, r, hlog, List.mem_append_right _ ?_⟩
    exact List.mem_map_of_mem List.mem_cons_self
  | nil =>
    rw [hpushes] at hanswer
    refine Or.inr (List.mem_append_left _ ?_)
    split
    next => exact List.mem_singleton_self _
    next hbehind =>
      rw [if_neg hbehind] at hanswer
      exact absurd rfl hanswer

end Hub

namespace Swarm

variable {ι : Type} [DecidableEq ι]

/-- **A status that agrees with the rumors of a node is the only one that is left unanswered.**
Of several entries for an origin the last counts.  The monger that talks to the peer is told to go
on or to stop, as the coin says, exactly if nothing is answered.  Any other status is answered with
a rumor that is stored or with the status of the node.  For an entry to agree it must have the next
number of the origin, or zero; so as long as the zeros in a status are of origins that the node
has not heard of, nothing is answered exactly if the status is that of the node. -/
theorem unanswered_iff_agrees (members : ι → Member) (es : List (Event ι)) (i : ι) (w : Moment)
    (sender : PeerAddress) (entries : List PeerStatus) :
    let h := hubAfter members es i
    let answer := h.onPacket w sender (.status (.want entries))
    let waiting := h.signal (h.crew.talkingTo? sender false) .sync
    (∀ o, (StatusVector.ofWant entries).get? o =
      ((entries.filter fun e => e.identifier = o).getLast?).map PeerStatus.nextSequence) ∧
    (answer.2 = [] ↔ h.rumors.Agrees (.ofWant entries)) ∧
    ((∀ o, h.rumors.log o ≠ [] → (StatusVector.ofWant entries).get? o ≠ some 0) →
      (answer.2 = [] ↔ StatusVector.ofWant entries = h.rumors.statusVector)) ∧
    (answer.2 = [] → answer.1.crew.tasks =
      (waiting.signal (h.crew.talkingTo? sender false)
        (if w.coin then .reset else .stop)).crew.tasks) ∧
    (answer.2 ≠ [] → answer.1.crew.tasks = waiting.crew.tasks ∧
      ((∃ o, ∃ r ∈ h.rumors.log o, Hub.unicast sender (.rumor r) ∈ answer.2) ∨
        Hub.unicast sender h.status ∈ answer.2)) := by
  intro h answer waiting
  have hbuilt : h.rumors.Built := hubAfter_built members es i
  have hagrees : answer.2 = [] ↔ h.rumors.Agrees (.ofWant entries) :=
    Hub.onPacket_want_effects_eq_nil_iff.trans
      (MessageStore.compareStatus_eq_nil_iff_agrees hbuilt)
  have htasks := Hub.onPacket_want_tasks w h sender entries
  refine ⟨StatusVector.get?_ofWant entries, hagrees,
    fun hzero => hagrees.trans (MessageStore.agrees_iff_eq hzero), fun hnone => ?_, fun hsome => ?_⟩
  · rwa [if_pos (Hub.onPacket_want_effects_eq_nil_iff.1 hnone)] at htasks
  · rw [if_neg (mt Hub.onPacket_want_effects_eq_nil_iff.2 hsome)] at htasks
    exact ⟨htasks, Hub.exists_answer hsome⟩

namespace Pair

/-- The first node's client asks for a rumor, and a monger sends it to the second node. -/
def spreading : List (Event Bool) :=
  [.told false moment (.client (.rumor "text")),
    .moved false moment ⟨1, .new (rumor 1) none, []⟩ .begin]

/-- **A node that has nothing of an origin counts as up to date if it says zero.**  It gets
neither the rumor that it lacks nor a status, and the monger that talks to it is told to stop as
if it had the rumor. -/
theorem unanswered_zero :
    let h := hubAfter members spreading false
    let answer := h.onPacket { moment with coin := false } (address 2) (.status (.want [⟨"a", 0⟩]))
    answer.2 = [] ∧ answer.1.crew.tasks.map Task.queue = [[.sync, .stop]] ∧
      StatusVector.ofWant [⟨"a", 0⟩] ≠ h.rumors.statusVector := by
  decide +kernel

end Pair

end Swarm
end GossipLedger
