import GossipLedger.Proofs.Rumor.Answers
import Mathlib.Algebra.Order.BigOperators.Group.Finset
import Mathlib.Algebra.Ring.Nat

/-!
# Two nodes that compare their rumors

A node sends its status.  The other one answers with rumors that the first lacks, or with
its own status if it lacks something itself; to that the first one answers in turn, and
both take in the rumors that came.

Such an exchange brings two stores closer that differ, as long as the logs of each origin
are beginnings of one log; and after as many exchanges as messages are lacking on either
side, the stores are equal.  There is one exception: a log that has a message under every
number there is.  Its status looks like no news to a node that has heard of the origin, and
so the rest of this log, and of no other, is not passed on.  A log that goes on after that, when
the numbers come again, looks like a short one, and is sent what it has.

## Main definitions

* `MessageStore.exchange` — both stores after an exchange, `Hub.exchange` both hubs.
* `MessageStore.missing` — the number of messages that one store has and another lacks.
* `MessageStore.longer` — of two stores the longer log of each origin.
* `MessageStore.Between` — two stores with beginnings of the same logs.

## Main results

* `MessageStore.Between.exchange` — an exchange leaves two stores between the same logs.
* `MessageStore.Between.sends_iff` — **when some rumor is sent.**
* `MessageStore.Between.missing_lt` — then the two stores come closer.
* `MessageStore.Between.settles` — as many exchanges as messages are missing make a log
  whole on both sides.
* `Hub.exchange_rumors` — an exchange of hubs is one of their stores.
* `MessageStore.exchange_settles` — **an exchange brings stores closer until they are
  equal.**
* `MessageStore.not_settled_of_full` — the exception, and a log that goes on after the last
  number.
-/

namespace GossipLedger
namespace MessageStore

variable {s t : MessageStore Rumor} {r : Rumor}

/-- What comes back from the node that sent the status, if the other asked for it. -/
def reply (s t : MessageStore Rumor) : List Rumor :=
  if (t.answerTo s).2 then (s.answerTo t).1 else []

/-- Both stores after the node with the first one sent its status to the other. -/
def exchange (p : MessageStore Rumor × MessageStore Rumor) :
    MessageStore Rumor × MessageStore Rumor :=
  (p.1.receive (p.2.answerTo p.1).1, p.2.receive (reply p.1 p.2))

/-- The number of messages that a store lacks and another has. -/
def missing (s t : MessageStore Rumor) : Nat :=
  (t.toList.map fun e => e.2.length - s.length e.1).sum

/-- Of two stores the longer log of an origin. -/
def longer (s t : MessageStore Rumor) (o : String) : List Rumor :=
  if s.length o ≤ t.length o then t.log o else s.log o

/-! ### Coming closer -/

/-- Two stores have beginnings of the same logs, one of them the whole. -/
structure Between (L : String → List Rumor) (s t : MessageStore Rumor) : Prop where
  orderly : Orderly s
  orderly' : Orderly t
  begins : ∀ o, s.log o <+: L o
  begins' : ∀ o, t.log o <+: L o
  whole : ∀ o, s.log o = L o ∨ t.log o = L o

variable {L : String → List Rumor}

/-- Of two stores whose logs begin alike the longer logs are the whole. -/
theorem between_longer (hs : Orderly s) (ht : Orderly t)
    (hcommon : ∀ o, s.log o <+: t.log o ∨ t.log o <+: s.log o) : Between (longer s t) s t := by
  have hlonger : ∀ o, s.length o ≤ t.length o → s.log o <+: t.log o := by
    intro o hle
    rcases hcommon o with h | h
    · exact h
    · rw [h.eq_of_length (Nat.le_antisymm h.length_le hle)]
  unfold longer
  refine ⟨hs, ht, fun o => ?_, fun o => ?_, fun o => ?_⟩
  · split
    next hle => exact hlonger o hle
    next => exact List.prefix_rfl
  · split
    next => exact List.prefix_rfl
    next hnot =>
      rcases hcommon o with h | h
      · exact absurd h.length_le hnot
      · exact h
  · split
    next => exact Or.inr rfl
    next => exact Or.inl rfl

/-- Logs of an origin that are the same are whole. -/
theorem Between.whole_of_log_eq (h : Between L s t) {o : String} (hsame : s.log o = t.log o) :
    s.log o = L o ∧ t.log o = L o := by
  rcases h.whole o with hwhole | hwhole
  · exact ⟨hwhole, hsame ▸ hwhole⟩
  · exact ⟨hsame.trans hwhole, hwhole⟩

/-- Logs of an origin that are as long are the same. -/
theorem Between.log_eq_of_length_eq (h : Between L s t) {o : String}
    (hlast : s.length o = t.length o) : s.log o = t.log o := by
  rcases h.whole o with hwhole | hwhole
  · have hbegins := h.begins' o
    rw [← hwhole] at hbegins
    exact (hbegins.eq_of_length hlast.symm).symm
  · have hbegins := h.begins o
    rw [← hwhole] at hbegins
    exact hbegins.eq_of_length hlast

/-- The next element makes a longer beginning. -/
theorem concat_prefix {as bs : List Rumor} (h : as <+: bs) (hr : bs[as.length]? = some r) :
    as ++ [r] <+: bs := by
  obtain ⟨cs, rfl⟩ := h
  rw [List.getElem?_append_right le_rfl, Nat.sub_self] at hr
  cases cs with
  | nil => exact absurd hr (by simp)
  | cons c cs =>
    obtain rfl : c = r := by simpa using hr
    exact ⟨cs, by simp⟩

/-- A store that takes in what another owes it stays a beginning of the same logs. -/
theorem receive_prefix {rs : List Rumor} (hs : Orderly s) (ht : Orderly t)
    (howes : ∀ r ∈ rs, Owes t s r) (hnodup : (rs.map Rumor.origin).Nodup)
    (hbegins : ∀ o, s.log o <+: L o) (hbegins' : ∀ o, t.log o <+: L o) (o : String) :
    s.log o <+: (s.receive rs).log o ∧ (s.receive rs).log o <+: L o := by
  rcases (receive_of_owes hs ht howes hnodup).2.2 o with ⟨r, hr, rfl, hgrown⟩ | ⟨-, hsame⟩
  · have hnext := howes r hr
    obtain ⟨rest, hrest⟩ := hbegins' r.origin
    have hbound : s.length r.origin < (t.log r.origin).length :=
      (List.getElem?_eq_some_iff.1 hnext).1
    have hplace : (L r.origin)[s.length r.origin]? = some r := by
      rw [← hrest, List.getElem?_append_left hbound]
      exact hnext
    rw [hgrown]
    exact ⟨List.prefix_append _ _, concat_prefix (hbegins _) hplace⟩
  · rw [hsame]
    exact ⟨List.prefix_rfl, hbegins o⟩

/-- What comes back is what the first store owes the second. -/
theorem owes_of_mem_reply (hs : Orderly s) (ht : Orderly t) (hr : r ∈ reply s t) : Owes s t r := by
  unfold reply at hr
  split at hr
  next => exact owes_of_mem_answerTo ht hs hr
  next => exact absurd hr List.not_mem_nil

theorem nodup_origins_reply (hs : Built s) : ((reply s t).map Rumor.origin).Nodup := by
  unfold reply
  split
  next => exact nodup_origins_answerTo hs
  next => exact List.nodup_nil

/-- **An exchange leaves two stores between the same logs**, and neither loses anything. -/
theorem Between.exchange (h : Between L s t) :
    Between L (exchange (s, t)).1 (exchange (s, t)).2 ∧
      (∀ o, s.log o <+: (MessageStore.exchange (s, t)).1.log o) ∧
      ∀ o, t.log o <+: (MessageStore.exchange (s, t)).2.log o := by
  have howes := fun r (hr : r ∈ (t.answerTo s).1) => owes_of_mem_answerTo h.orderly h.orderly' hr
  have howes' := fun r (hr : r ∈ reply s t) => owes_of_mem_reply h.orderly h.orderly' hr
  have hnodup : ((t.answerTo s).1.map Rumor.origin).Nodup := nodup_origins_answerTo h.orderly'.built
  have hnodup' : ((reply s t).map Rumor.origin).Nodup := nodup_origins_reply h.orderly.built
  have hfirst := receive_prefix h.orderly h.orderly' howes hnodup h.begins h.begins'
  have hsecond := receive_prefix h.orderly' h.orderly howes' hnodup' h.begins' h.begins
  refine ⟨⟨(receive_of_owes h.orderly h.orderly' howes hnodup).2.1,
    (receive_of_owes h.orderly' h.orderly howes' hnodup').2.1, fun o => (hfirst o).2,
    fun o => (hsecond o).2, fun o => ?_⟩, fun o => (hfirst o).1, fun o => (hsecond o).1⟩
  -- a log that is whole stays so
  rcases h.whole o with hwhole | hwhole
  · have hgrown := (hfirst o).1
    rw [hwhole] at hgrown
    exact Or.inl (antisymm (hfirst o).2 hgrown)
  · have hgrown := (hsecond o).1
    rw [hwhole] at hgrown
    exact Or.inr (antisymm (hsecond o).2 hgrown)

theorem log_ne_of_length_lt {o : String} (h : s.length o < t.length o) : s.log o ≠ t.log o := by
  intro heq
  exact absurd (congrArg List.length heq) (Nat.ne_of_lt h)

/-- **Some rumor is sent exactly if the logs of some origin differ**, unless the log of the
first store is full and the second one has heard of the origin. -/
theorem Between.sends_iff (h : Between L s t) :
    ((t.answerTo s).1 ≠ [] ∨ reply s t ≠ []) ↔
      ∃ o, s.log o ≠ t.log o ∧ (s.Full o → t.log o = []) := by
  constructor
  · intro hsends
    by_cases hnil : (t.answerTo s).1 = []
    · -- the second store asked for what comes back
      have hasks : (t.answerTo s).2 = true := by
        by_contra hnot
        exact hsends.resolve_left (not_not.2 hnil) (if_neg hnot)
      obtain ⟨o, hlt, hfull⟩ := (asks_iff h.orderly h.orderly' hnil).1 hasks
      exact ⟨o, (log_ne_of_length_lt hlt).symm, hfull⟩
    · obtain ⟨r, hr⟩ := List.exists_mem_of_ne_nil _ hnil
      have hbound : s.length r.origin < t.length r.origin :=
        (List.getElem?_eq_some_iff.1 (owes_of_mem_answerTo h.orderly h.orderly' hr)).1
      have hlt := h.orderly'.short r.origin
      refine ⟨r.origin, log_ne_of_length_lt hbound, fun hfull => ?_⟩
      unfold Full at hfull
      omega
  · rintro ⟨o, hne, hfull⟩
    by_contra hnone
    rw [not_or, not_not, not_not] at hnone
    obtain ⟨hnil, hreply⟩ := hnone
    -- the second store lacks something, so it asks, and there is an answer
    have hle := length_le_of_answerTo_eq_nil h.orderly h.orderly' hnil o
    have hlt : t.length o < s.length o :=
      lt_of_le_of_ne hle fun hlast => hne (h.log_eq_of_length_eq hlast.symm)
    have hasks := (asks_iff h.orderly h.orderly' hnil).2 ⟨o, hlt, hfull⟩
    rw [reply, if_pos hasks] at hreply
    exact absurd (length_le_of_answerTo_eq_nil h.orderly' h.orderly hreply o) (Nat.not_le.2 hlt)

/-- A store that takes in what another owes it has a longer log of some origin. -/
theorem exists_length_lt_receive {rs : List Rumor} (hs : Orderly s) (ht : Orderly t)
    (howes : ∀ r ∈ rs, Owes t s r) (hnodup : (rs.map Rumor.origin).Nodup) (hne : rs ≠ []) :
    ∃ o, s.length o < (s.receive rs).length o := by
  obtain ⟨r, hr⟩ := List.exists_mem_of_ne_nil rs hne
  rcases (receive_of_owes hs ht howes hnodup).2.2 r.origin with ⟨x, -, -, hgrown⟩ | ⟨hnone, -⟩
  · refine ⟨r.origin, ?_⟩
    rw [length, length, hgrown, List.length_append, List.length_singleton]
    exact Nat.lt_succ_self _
  · exact absurd rfl (hnone r hr)

/-- **Two stores come closer when some rumor is sent.** -/
theorem Between.exists_longer (h : Between L s t)
    (hsends : (t.answerTo s).1 ≠ [] ∨ reply s t ≠ []) :
    ∃ o, s.length o < (MessageStore.exchange (s, t)).1.length o ∨
      t.length o < (MessageStore.exchange (s, t)).2.length o := by
  rcases hsends with hne | hne
  · obtain ⟨o, ho⟩ := exists_length_lt_receive h.orderly h.orderly'
      (fun r hr => owes_of_mem_answerTo h.orderly h.orderly' hr)
      (nodup_origins_answerTo h.orderly'.built) hne
    exact ⟨o, Or.inl ho⟩
  · obtain ⟨o, ho⟩ := exists_length_lt_receive h.orderly' h.orderly
      (fun r hr => owes_of_mem_reply h.orderly h.orderly' hr)
      (nodup_origins_reply h.orderly.built) hne
    exact ⟨o, Or.inr ho⟩

/-! ### Exchange after exchange -/

/-- What a store lacks, origin by origin. -/
theorem missing_eq_sum (ht : Built t) {N : Finset String} (hN : ∀ o, t.log o ≠ [] → o ∈ N) :
    s.missing t = ∑ o ∈ N, (t.length o - s.length o) := by
  have hnames : (t.toList.map Prod.fst).Nodup := t.nodup_keys
  have hmap : (t.toList.map fun e => e.2.length - s.length e.1) =
      (t.toList.map Prod.fst).map fun o => t.length o - s.length o := by
    rw [List.map_map]
    refine List.map_congr_left fun e he => ?_
    have hlast : t.length e.1 = e.2.length := congrArg List.length (ht.mem_toList_iff.1 he).2
    rw [Function.comp_apply, hlast]
  rw [missing, hmap, ← List.sum_toFinset _ hnames]
  refine Finset.sum_subset (fun o ho => ?_) fun o _ ho => ?_
  · obtain ⟨e, he, rfl⟩ := List.mem_map.1 (List.mem_toFinset.1 ho)
    obtain ⟨hne, hlog⟩ := ht.mem_toList_iff.1 he
    exact hN _ (by rw [hlog]; exact hne)
  · -- an origin that is not listed has no messages
    have hnil : t.log o = [] := by
      by_contra hne
      have hmem := ht.mem_toList_iff.2 ⟨hne, rfl⟩
      exact ho (List.mem_toFinset.2 (List.mem_map_of_mem hmem))
    rw [length_eq_zero_iff.2 hnil, Nat.zero_sub]

/-- **Less is missing after an exchange** in which some rumor is sent. -/
theorem Between.missing_lt (h : Between L s t)
    (hsends : (t.answerTo s).1 ≠ [] ∨ reply s t ≠ []) :
    (MessageStore.exchange (s, t)).1.missing (MessageStore.exchange (s, t)).2 +
        (MessageStore.exchange (s, t)).2.missing (MessageStore.exchange (s, t)).1 <
      s.missing t + t.missing s := by
  obtain ⟨hnext, hgrows, hgrows'⟩ := h.exchange
  obtain ⟨o, hlonger⟩ := h.exists_longer hsends
  -- what is missing on either side is what is missing to the whole logs
  have hsum : ∀ {s t : MessageStore Rumor}, Between L s t → ∀ N : Finset String,
      (∀ o, L o ≠ [] → o ∈ N) → s.missing t + t.missing s =
        ∑ o ∈ N, (((L o).length - s.length o) + ((L o).length - t.length o)) := by
    intro s t h N hN
    have hnil : ∀ {u : MessageStore Rumor}, (∀ o, u.log o <+: L o) →
        ∀ o, u.log o ≠ [] → o ∈ N := by
      intro u hu o ho
      refine hN o fun hempty => ho ?_
      have hbegins := hu o
      rw [hempty] at hbegins
      exact List.prefix_nil.1 hbegins
    rw [missing_eq_sum h.orderly'.built (hnil h.begins'),
      missing_eq_sum h.orderly.built (hnil h.begins), ← Finset.sum_add_distrib]
    refine Finset.sum_congr rfl fun o _ => ?_
    have hle : s.length o ≤ (L o).length := (h.begins o).length_le
    have hle' : t.length o ≤ (L o).length := (h.begins' o).length_le
    have hwhole : s.length o = (L o).length ∨ t.length o = (L o).length :=
      (h.whole o).imp (congrArg List.length) (congrArg List.length)
    omega
  have hN : ∀ o, L o ≠ [] →
      o ∈ (s.toList.map Prod.fst ++ t.toList.map Prod.fst).toFinset := by
    intro o ho
    rw [List.mem_toFinset, List.mem_append]
    rcases h.whole o with hwhole | hwhole
    · rw [← hwhole] at ho
      exact Or.inl (List.mem_map_of_mem (h.orderly.built.mem_toList_iff.2 ⟨ho, rfl⟩))
    · rw [← hwhole] at ho
      exact Or.inr (List.mem_map_of_mem (h.orderly'.built.mem_toList_iff.2 ⟨ho, rfl⟩))
  rw [hsum h _ hN, hsum hnext _ hN]
  have hle := fun o => (hgrows o).length_le
  have hle' := fun o => (hgrows' o).length_le
  have hend := fun o => (hnext.begins o).length_le
  have hend' := fun o => (hnext.begins' o).length_le
  unfold length at hlonger ⊢
  refine Finset.sum_lt_sum (fun o _ => ?_) ⟨o, hN o fun hempty => ?_, ?_⟩
  · have h1 := hle o
    have h2 := hle' o
    omega
  · have h1 := hend o
    have h2 := hend' o
    rw [hempty, List.length_nil] at h1 h2
    omega
  · have h1 := hle o
    have h2 := hle' o
    have h3 := hend o
    have h4 := hend' o
    omega

/-- Exchanges leave two stores between the same logs, and neither loses anything. -/
theorem Between.iterate (h : Between L s t) (n : Nat) :
    Between L (MessageStore.exchange^[n] (s, t)).1 (MessageStore.exchange^[n] (s, t)).2 ∧
      (∀ o, s.log o <+: (MessageStore.exchange^[n] (s, t)).1.log o) ∧
      ∀ o, t.log o <+: (MessageStore.exchange^[n] (s, t)).2.log o := by
  induction n generalizing s t with
  | zero => exact ⟨h, fun o => List.prefix_rfl, fun o => List.prefix_rfl⟩
  | succ n ih =>
    obtain ⟨hnext, hgrows, hgrows'⟩ := h.exchange
    obtain ⟨hlast, hgrows₂, hgrows₂'⟩ := ih hnext
    rw [Function.iterate_succ_apply]
    exact ⟨hlast, fun o => (hgrows o).trans (hgrows₂ o), fun o => (hgrows' o).trans (hgrows₂' o)⟩

/-- Logs that are the same stay so. -/
theorem Between.iterate_of_log_eq (h : Between L s t) {o : String} (hsame : s.log o = t.log o)
    (n : Nat) : (MessageStore.exchange^[n] (s, t)).1.log o = L o ∧
      (MessageStore.exchange^[n] (s, t)).2.log o = L o := by
  obtain ⟨hlast, hgrows, hgrows'⟩ := h.iterate n
  obtain ⟨hwhole, hwhole'⟩ := h.whole_of_log_eq hsame
  exact ⟨antisymm (hlast.begins o) (hwhole ▸ hgrows o),
    antisymm (hlast.begins' o) (hwhole' ▸ hgrows' o)⟩

/-- A log that is full and the same on both sides, or not full, is so after an exchange. -/
theorem Between.full_exchange (h : Between L s t) {o : String}
    (hfull : s.Full o → t.log o = s.log o) :
    (MessageStore.exchange (s, t)).1.Full o →
      (MessageStore.exchange (s, t)).2.log o = (MessageStore.exchange (s, t)).1.log o := by
  obtain ⟨hnext, hgrows, hgrows'⟩ := h.exchange
  intro hnew
  rcases h.whole o with hwhole | hwhole
  · -- nothing was added to a log that is whole
    have hsame : (MessageStore.exchange (s, t)).1.log o = s.log o :=
      antisymm (hwhole ▸ hnext.begins o) (hgrows o)
    have hs : s.Full o := by
      rw [Full, length, ← hsame]
      exact hnew
    obtain ⟨hlog, hlog'⟩ := h.iterate_of_log_eq (hfull hs).symm 1
    exact hlog'.trans hlog.symm
  · have hlog' : (MessageStore.exchange (s, t)).2.log o = L o :=
      antisymm (hnext.begins' o) (hwhole ▸ hgrows' o)
    -- the whole log is not longer than a full one
    have hbound := hnext.orderly'.short o
    rw [length, hlog'] at hbound
    rw [hlog']
    refine ((hnext.begins o).eq_of_length (Nat.le_antisymm (hnext.begins o).length_le ?_)).symm
    exact Nat.le_of_lt_succ (hbound.trans_eq hnew.symm)

/-- **As many exchanges as messages are missing make a log whole on both sides**, unless it
is full in the first store and shorter in the second. -/
theorem Between.settles {n : Nat} (h : Between L s t) (hn : s.missing t + t.missing s ≤ n)
    {o : String} (hfull : s.Full o → t.log o = s.log o) :
    (MessageStore.exchange^[n] (s, t)).1.log o = L o ∧
      (MessageStore.exchange^[n] (s, t)).2.log o = L o := by
  induction n generalizing s t with
  | zero =>
    refine h.iterate_of_log_eq (by_contra fun hne => ?_) 0
    have hlt := h.missing_lt (h.sends_iff.2 ⟨o, hne, fun hs => absurd (hfull hs).symm hne⟩)
    omega
  | succ n ih =>
    by_cases hsame : s.log o = t.log o
    · exact h.iterate_of_log_eq hsame (n + 1)
    · have hlt := h.missing_lt
        (h.sends_iff.2 ⟨o, hsame, fun hs => absurd (hfull hs).symm hsame⟩)
      rw [Function.iterate_succ_apply]
      exact ih h.exchange.1 (Nat.lt_succ_iff.1 (lt_of_lt_of_le hlt hn)) (h.full_exchange hfull)

end MessageStore

/-! ### Hubs -/

namespace Hub

/-- The rumors that are sent among some effects. -/
def rumorsOf (effects : List Effect) : List Rumor :=
  effects.filterMap fun e => match e.packet? with
    | some (.rumor r) => some r
    | _ => none

/-- The status that is sent among some effects. -/
def statusOf? (effects : List Effect) : Option (List PeerStatus) :=
  effects.findSome? fun e => match e.packet? with
    | some (.status (.want entries)) => some entries
    | _ => none

/-- A hub hears rumors of a peer, one after the other. -/
def hear (w : Moment) (h : Hub) (sender : PeerAddress) (rs : List Rumor) : Hub :=
  rs.foldl (fun h r => (h.onPacket w sender (.rumor r)).1) h

/-- Both hubs after the first one sent its status to the second, the second one's answer
came to the first, and what the first one had to say to that came to the second. -/
def exchange (w w' : Moment) (a b : Hub) : Hub × Hub :=
  let answer := b.onPacket w' a.address a.status
  let reply := match statusOf? answer.2 with
    | some entries => a.onPacket w b.address (.status (.want entries))
    | none => (a, [])
  (reply.1.hear w b.address (rumorsOf answer.2), answer.1.hear w' a.address (rumorsOf reply.2))

/-- A status leaves the rumors of a hub alone, and the answer is what the comparison
says. -/
theorem onPacket_want (w : Moment) (h : Hub) (sender : PeerAddress) (entries : List PeerStatus) :
    (h.onPacket w sender (.status (.want entries))).1.rumors = h.rumors ∧
      (h.onPacket w sender (.status (.want entries))).2 =
        (if (compareStatus h.rumors (.ofWant entries)).2 then [unicast sender h.status] else [])
          ++ (compareStatus h.rumors (.ofWant entries)).1.map fun r =>
            unicast sender (.rumor r) := by
  unfold onPacket
  simp only
  by_cases hown : sender = h.address
  · rw [if_pos hown]
    exact ⟨(h.sameRumors_reconcile w sender _).rumors, h.reconcile_effects w sender _⟩
  · rw [if_neg hown]
    exact ⟨(sameRumors_reconcile w _ sender _).rumors, reconcile_effects w _ sender _⟩

theorem rumorsOf_answer (h : Hub) (sender : PeerAddress) (asks : Bool) (rs : List Rumor) :
    rumorsOf ((if asks then [unicast sender h.status] else [])
      ++ rs.map fun r => unicast sender (.rumor r)) = rs := by
  have hstatus : rumorsOf (if asks then [unicast sender h.status] else []) = [] := by
    cases asks with
    | false => rfl
    | true => rfl
  have hrumors : rumorsOf (rs.map fun r => unicast sender (.rumor r)) = rs := by
    unfold rumorsOf
    rw [List.filterMap_map]
    exact List.filterMap_some
  unfold rumorsOf at hstatus hrumors ⊢
  rw [List.filterMap_append, hstatus, hrumors, List.nil_append]

theorem statusOf?_answer (h : Hub) (sender : PeerAddress) (asks : Bool) (rs : List Rumor) :
    statusOf? ((if asks then [unicast sender h.status] else [])
      ++ rs.map fun r => unicast sender (.rumor r)) =
        if asks then some h.rumors.statusVector.toWant else none := by
  cases asks with
  | true => rfl
  | false =>
    have hnone : ∀ e ∈ rs.map fun r => unicast sender (.rumor r), (match e.packet? with
        | some (.status (.want entries)) => some entries
        | _ => none) = none := by
      intro e he
      obtain ⟨r, -, rfl⟩ := List.mem_map.1 he
      rfl
    exact List.findSome?_eq_none_iff.2 hnone

theorem hear_rumors (w : Moment) (h : Hub) (sender : PeerAddress) {rs : List Rumor}
    (hrs : ∀ r ∈ rs, r.sequence ≠ 0) : (h.hear w sender rs).rumors = h.rumors.receive rs := by
  induction rs generalizing h with
  | nil => rfl
  | cons r rs ih =>
    obtain ⟨hr, hrs⟩ := List.forall_mem_cons.1 hrs
    have hnext := ih (h.onPacket w sender (.rumor r)).1 hrs
    rw [onPacket_rumor_rumors w h sender hr] at hnext
    exact hnext

/-- **An exchange of hubs is one of their stores.** -/
theorem exchange_rumors (w w' : Moment) {a b : Hub} (ha : a.rumors.Orderly)
    (hb : b.rumors.Orderly) :
    (exchange w w' a b).1.rumors = (MessageStore.exchange (a.rumors, b.rumors)).1 ∧
      (exchange w w' a b).2.rumors = (MessageStore.exchange (a.rumors, b.rumors)).2 := by
  obtain ⟨hsame, heffects⟩ := b.onPacket_want w' a.address a.rumors.statusVector.toWant
  rw [StatusVector.ofWant_toWant] at heffects
  have hanswer : rumorsOf (b.onPacket w' a.address a.status).2 =
      (b.rumors.answerTo a.rumors).1 := by
    rw [status, heffects, rumorsOf_answer]
    rfl
  have hstatus : statusOf? (b.onPacket w' a.address a.status).2 =
      if (b.rumors.answerTo a.rumors).2 then some b.rumors.statusVector.toWant else none := by
    rw [status, heffects, statusOf?_answer]
    rfl
  have hrs : ∀ r ∈ (b.rumors.answerTo a.rumors).1, r.sequence ≠ 0 := fun r hr =>
    (MessageStore.owes_of_mem_answerTo ha hb hr).sequence_ne_zero hb
  have hrs' : ∀ r ∈ (a.rumors.answerTo b.rumors).1, r.sequence ≠ 0 := fun r hr =>
    (MessageStore.owes_of_mem_answerTo hb ha hr).sequence_ne_zero ha
  unfold exchange
  simp only [hanswer, hstatus]
  cases hasks : (b.rumors.answerTo a.rumors).2 with
  | false =>
    simp only [Bool.false_eq_true, if_false, MessageStore.exchange, MessageStore.reply, hasks]
    refine ⟨hear_rumors w a b.address hrs, ?_⟩
    rw [status, hear_rumors _ _ _ (by simp [rumorsOf]), hsame]
    rfl
  | true =>
    obtain ⟨hsame', heffects'⟩ := a.onPacket_want w b.address b.rumors.statusVector.toWant
    rw [StatusVector.ofWant_toWant] at heffects'
    simp only [if_true, MessageStore.exchange, MessageStore.reply, hasks]
    refine ⟨by rw [hear_rumors _ _ _ hrs, hsame'], ?_⟩
    rw [status, heffects', rumorsOf_answer]
    refine (hear_rumors _ _ _ hrs').trans ?_
    rw [hsame]

end Hub

/-! ### The whole of it -/

namespace MessageStore

/-- **An exchange brings stores closer until they are equal.**  Every rumor that is sent is
the next one of its origin that the receiver lacks, and is appended.  Between equal stores
none is sent, and nobody asks for any.  Some rumor is sent exactly if the logs of some origin
differ that is not full in the first store, or that the second has not heard of.  After as
many exchanges as messages are missing on either side both have the longer log of each
origin, and are equal: this but for the origins of which the first store has a message under
every number there is and the second has not.  The logs are supposed not to be so long that
the numbers come again. -/
theorem exchange_settles (s t : MessageStore Rumor) (hs : Orderly s) (ht : Orderly t)
    (hcommon : ∀ o, s.log o <+: t.log o ∨ t.log o <+: s.log o) :
    ((∀ r ∈ (t.answerTo s).1, r.sequence.toNat = s.length r.origin + 1 ∧ r ∈ t.log r.origin) ∧
      (t.answerTo s).1.foldlM (fun s r => s.append? r) s = some (exchange (s, t)).1) ∧
    ((∀ r ∈ reply s t, r.sequence.toNat = t.length r.origin + 1 ∧ r ∈ s.log r.origin) ∧
      (reply s t).foldlM (fun t r => t.append? r) t = some (exchange (s, t)).2) ∧
    (s = t → t.answerTo s = ([], false) ∧ s.answerTo t = ([], false)) ∧
    (∀ w w' a b, a.rumors = s → b.rumors = t →
      (Hub.exchange w w' a b).1.rumors = (exchange (s, t)).1 ∧
        (Hub.exchange w w' a b).2.rumors = (exchange (s, t)).2) ∧
    (((t.answerTo s).1 ≠ [] ∨ reply s t ≠ []) ↔
      ∃ o, s.log o ≠ t.log o ∧ (s.Full o → t.log o = [])) ∧
    ∀ n, s.missing t + t.missing s ≤ n →
      (∀ o, (s.Full o → t.log o = s.log o) → (exchange^[n] (s, t)).1.log o = longer s t o ∧
        (exchange^[n] (s, t)).2.log o = longer s t o) ∧
      ((∀ o, s.Full o → t.log o = s.log o) →
        (exchange^[n] (s, t)).1 = (exchange^[n] (s, t)).2) := by
  have howes := fun r (hr : r ∈ (t.answerTo s).1) => owes_of_mem_answerTo hs ht hr
  have howes' := fun r (hr : r ∈ reply s t) => owes_of_mem_reply hs ht hr
  have hbetween := between_longer hs ht hcommon
  refine ⟨⟨fun r hr => ?_, ?_⟩, ⟨fun r hr => ?_, ?_⟩, ?_, ?_, hbetween.sends_iff,
    fun n hn => ⟨fun o hfull => hbetween.settles hn hfull, fun hfull => ?_⟩⟩
  · exact ⟨ht.toNat_sequence (howes r hr), List.mem_of_getElem? (howes r hr)⟩
  · exact (receive_of_owes hs ht howes (nodup_origins_answerTo ht.built)).1
  · exact ⟨hs.toNat_sequence (howes' r hr), List.mem_of_getElem? (howes' r hr)⟩
  · exact (receive_of_owes ht hs howes' (nodup_origins_reply hs.built)).1
  · rintro rfl
    exact ⟨answerTo_self hs, answerTo_self hs⟩
  · rintro w w' a b rfl rfl
    exact Hub.exchange_rumors w w' hs ht
  · have hlast := (hbetween.iterate n).1
    refine hlast.orderly.built.ext_log hlast.orderly'.built fun o => ?_
    obtain ⟨hlog, hlog'⟩ := hbetween.settles hn (hfull o)
    exact hlog.trans hlog'.symm

/-! ### One origin -/

/-- A rumor of one origin. -/
def nth (k : Nat) : Rumor := ⟨"a", UInt32.ofNat (k + 1), ""⟩

/-- The store with so many rumors of one origin. -/
def lone (n : Nat) : MessageStore Rumor := NameMap.set .empty "a" ((List.range n).map nth)

theorem log_lone (n : Nat) (o : String) :
    (lone n).log o = if "a" = o then (List.range n).map nth else [] := log_set _ _ _ _

theorem length_lone (n : Nat) : (lone n).length "a" = n := by
  rw [length, log_lone, if_pos rfl, List.length_map, List.length_range]

theorem append?_lone (n : Nat) : (lone n).append? (nth n) = some (lone (n + 1)) := by
  refine append?_eq_some_iff.2 ⟨?_, NameMap.ext_get? fun o => ?_⟩
  · show UInt32.ofNat (n + 1) = (lone n).last "a" + 1
    rw [last_add_one, length_lone]
  · have hlog : (lone n).log (Sequenced.origin (nth n)) ++ [nth n] =
        (List.range (n + 1)).map nth := by
      rw [log_lone, List.range_succ, List.map_append]
      rfl
    have horigin : Sequenced.origin (nth n) = "a" := rfl
    rw [hlog, horigin, lone, lone, NameMap.get?_set, NameMap.get?_set, NameMap.get?_set]
    split
    next => rfl
    next => rfl

theorem built_lone {n : Nat} (hpos : 0 < n) : Built (lone n) := by
  induction n, hpos using Nat.le_induction with
  | base => exact Built.empty.append (m := nth 0) rfl
  | succ n _ ih => exact ih.append (append?_lone n)

theorem orderly_lone {n : Nat} (hpos : 0 < n) (hn : n < 2 ^ 32) : Orderly (lone n) := by
  refine ⟨built_lone hpos, fun o => ?_⟩
  rw [length, log_lone]
  split
  next =>
    rw [List.length_map, List.length_range]
    exact hn
  next => exact Nat.two_pow_pos 32

/-- The store with one rumor of each of two origins. -/
def pair : MessageStore Rumor := (lone 1).set "b" [⟨"b", 1, ""⟩]

/-- Two stores with a rumor each that the other lacks are equal after two exchanges. -/
theorem settled_after_two : lone 2 ≠ pair ∧
    (exchange^[2] (lone 2, pair)).1 = (exchange^[2] (lone 2, pair)).2 ∧
      (exchange^[2] (lone 2, pair)).2.log "a" = [nth 0, nth 1] ∧
      (exchange^[2] (lone 2, pair)).1.log "b" = [⟨"b", 1, ""⟩] := by
  have horderly : Orderly pair :=
    (orderly_lone Nat.one_pos (by decide)).append (m := ⟨"b", 1, ""⟩) rfl (by decide)
  have hlog : ∀ o, pair.log o = if "b" = o then [⟨"b", 1, ""⟩] else (lone 1).log o :=
    fun o => log_set _ _ _ _
  have hcommon : ∀ o, (lone 2).log o <+: pair.log o ∨ pair.log o <+: (lone 2).log o := by
    intro o
    rw [hlog, log_lone, log_lone]
    by_cases ha : "a" = o
    · subst ha
      exact Or.inr ⟨[nth 1], rfl⟩
    · rw [if_neg ha]
      exact Or.inl List.nil_prefix
  have hfull : ∀ o, ¬(lone 2).Full o := by
    intro o hfull
    have hle : (lone 2).length o ≤ 2 := by
      rw [length, log_lone]
      split
      next => exact le_rfl
      next => exact Nat.zero_le _
    unfold Full at hfull
    omega
  have hmissing : (lone 2).missing pair + pair.missing (lone 2) = 2 := by decide +kernel
  obtain ⟨hlogs, hequal⟩ := (exchange_settles (lone 2) pair
    (orderly_lone (by decide) (by decide)) horderly hcommon).2.2.2.2.2 2 hmissing.le
  refine ⟨by decide +kernel, hequal fun o h => absurd h (hfull o), ?_, ?_⟩
  · exact (hlogs "a" fun h => absurd h (hfull "a")).2
  · exact (hlogs "b" fun h => absurd h (hfull "b")).1

theorem prefix_log_lone {m n : Nat} (h : m ≤ n) (o : String) :
    (lone m).log o <+: (lone n).log o := by
  rw [log_lone, log_lone]
  split
  next =>
    obtain ⟨k, rfl⟩ := Nat.exists_eq_add_of_le h
    rw [List.range_add, List.map_append]
    exact List.prefix_append _ _
  next => exact List.prefix_rfl

/-- To a node that has a rumor of an origin, a status without a next number for the origin
is no news. -/
theorem exchange_lone_full {n : Nat} (hn : n + 1 = 2 ^ 32) :
    (lone 1).answerTo (lone n) = ([], false) ∧ exchange (lone n, lone 1) = (lone n, lone 1) := by
  have hfull : Orderly (lone n) := orderly_lone (by omega) (by omega)
  have hone : Orderly (lone 1) := orderly_lone Nat.one_pos (by decide)
  have hnone : ¬∃ o, (lone n).log o ≠ (lone 1).log o ∧ ((lone n).Full o → (lone 1).log o = []) := by
    rintro ⟨o, hne, hnews⟩
    by_cases ho : "a" = o
    · subst ho
      have hlast : (lone n).Full "a" := by
        rw [Full, length_lone]
        exact hn
      have hzero := length_eq_zero_iff.2 (hnews hlast)
      rw [length_lone] at hzero
      exact absurd hzero Nat.one_ne_zero
    · rw [log_lone, log_lone, if_neg ho, if_neg ho] at hne
      exact hne rfl
  have hbetween := between_longer hfull hone fun o => Or.inr (prefix_log_lone (by omega) o)
  have hsends := mt hbetween.sends_iff.1 hnone
  rw [not_or, not_not, not_not] at hsends
  obtain ⟨hnil, hreply⟩ := hsends
  refine ⟨Prod.ext hnil (Bool.eq_false_iff.2 fun hasks => ?_), ?_⟩
  · obtain ⟨o, hlt, hnews⟩ := (asks_iff hfull hone hnil).1 hasks
    exact hnone ⟨o, (log_ne_of_length_lt hlt).symm, hnews⟩
  · unfold exchange
    rw [hnil, hreply]
    rfl

/-- A log that goes on after the last number is taken for a short one, whose first rumors are
sent again. -/
theorem answerTo_lone_past {n : Nat} (hn : n = 2 ^ 32) :
    (lone 2).answerTo (lone n) = ([nth 0], false) := by
  have hvector : (lone n).statusVector.toList = [("a", 1)] := by
    rw [toList_statusVector]
    show [("a", UInt32.ofNat (((List.range n).map nth).length + 1))] = _
    rw [List.length_map, List.length_range, hn]
    rfl
  have hknown : (lone n).statusVector.contains "a" = true := by
    rw [contains_statusVector, (built_lone (by omega)).contains_iff]
    intro hnil
    have hzero := length_eq_zero_iff.2 hnil
    rw [length_lone] at hzero
    omega
  have hgap : (lone 2).firstGap? (lone n).statusVector = none := by
    refine (built_lone (by decide)).firstGap?_eq_none_iff.2 fun o ho => ?_
    rw [log_lone] at ho
    split at ho
    next hname => rw [← hname, hknown]
    next => exact absurd rfl ho
  rw [answerTo_of_no_gap hgap, hvector]
  rfl

/-- **A full log is not passed on**: the status of a store with all rumors of an origin that
can be numbered has no next number for it, and the store and one with only the first of
them stay as they are, whatever the number of exchanges.  And a store with **one rumor more**
is sent its first one again, and appends it once more. -/
theorem not_settled_of_full :
    (Built (lone (2 ^ 32 - 1)) ∧ Built (lone 1) ∧
      (∀ o, (lone 1).log o <+: (lone (2 ^ 32 - 1)).log o) ∧
      lone (2 ^ 32 - 1) ≠ lone 1 ∧ (lone (2 ^ 32 - 1)).statusVector.get? "a" = some 0 ∧
      (lone 1).answerTo (lone (2 ^ 32 - 1)) = ([], false) ∧
      ∀ n, exchange^[n] (lone (2 ^ 32 - 1), lone 1) = (lone (2 ^ 32 - 1), lone 1)) ∧
    Built (lone (2 ^ 32)) ∧ Built (lone 2) ∧ (∀ o, (lone 2).log o <+: (lone (2 ^ 32)).log o) ∧
      (lone 2).answerTo (lone (2 ^ 32)) = ([nth 0], false) ∧
      nth 0 ∈ (lone (2 ^ 32)).log "a" ∧
      exchange (lone (2 ^ 32), lone 2) = (lone (2 ^ 32 + 1), lone 2) := by
  have hfull : Built (lone (2 ^ 32 - 1)) := built_lone (by omega)
  obtain ⟨hanswer, hkeeps⟩ := exchange_lone_full (n := 2 ^ 32 - 1) (by omega)
  refine ⟨⟨hfull, built_lone Nat.one_pos, prefix_log_lone (by omega), fun heq => ?_, ?_, hanswer,
    fun n => Function.iterate_fixed hkeeps n⟩, built_lone (by omega), built_lone (by omega),
    prefix_log_lone (by omega), answerTo_lone_past rfl, ?_, ?_⟩
  · have hlength := congrArg (fun s : MessageStore Rumor => s.length "a") heq
    simp only [length_lone] at hlength
    omega
  · rw [NameMap.get?_eq_some_iff, hfull.mem_statusVector_iff, length_lone]
    refine ⟨fun hnil => ?_, rfl⟩
    have hzero := length_eq_zero_iff.2 hnil
    rw [length_lone] at hzero
    omega
  · rw [log_lone, if_pos rfl]
    exact List.mem_map_of_mem (List.mem_range.2 (by omega))
  · -- the number of the first rumor is the next one
    have hagain : (lone (2 ^ 32)).append? (nth 0) = some (lone (2 ^ 32 + 1)) :=
      append?_lone (2 ^ 32)
    have hreply : reply (lone (2 ^ 32)) (lone 2) = [] := by
      rw [reply, answerTo_lone_past rfl]
      rfl
    unfold exchange
    simp only
    rw [answerTo_lone_past rfl, hreply, receive, List.foldl_cons, hagain]
    rfl

end MessageStore
end GossipLedger
