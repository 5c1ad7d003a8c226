import GossipLedger.Proofs.Rumor.Turns
import Mathlib.Data.List.Induction

/-!
# How a monger conducts itself

A monger never sends its rumor back to the peer it came from.  It does not remember that peer in
any other way than as one that it has tried, and it forgets whom it has tried whenever a wait ends
in vain or there is news.  Between two moves it waits for an answer, or it waits for the end of
reconciliation, or it is done.  A wait may end only in the first of these.  And as long as neither
a wait ends nor news come, it sends to no peer twice.

All this holds of a worker, step by step, whoever interferes: others may tell it something and
change the known peers between any two of its steps.

## Main definitions

* `Shift.Spares` — the invariant that keeps the origin of the rumor out.
* `recent` — the peers sent to since a wait ended or news came.
* `Shift.Varies` — the invariant that keeps these peers different.
* `Calm` — a stretch in which no wait ends and no news come.

## Main results

* `Shift.Spares.leads`, `Shift.Varies.leads` — what a step can do keeps the invariants.
* `Shift.nodup_sentTo` — in a calm stretch no peer is sent to twice.
* `Shift.exists_known_of_sends` — who is sent to was known since the send before.
* `Shift.conduct_of_run` — **how a monger conducts itself.**
-/

namespace GossipLedger

/-- The peers sent to since a wait ended or news came, with one more deed. -/
def remember (ps : List PeerAddress) : Deed → List PeerAddress
  | .sent p => ps ++ [p]
  | .expired => []
  | .took .forgetTried => []
  | _ => ps

/-- The peers sent to since a wait ended or news came, oldest first. -/
def recent (trace : List Deed) : List PeerAddress := trace.foldl remember []

/-- No wait ends and no news come. -/
def Calm (stretch : List Deed) : Prop := .expired ∉ stretch ∧ .took .forgetTried ∉ stretch

@[simp] theorem recent_nil : recent [] = [] := rfl

@[simp] theorem recent_concat (trace : List Deed) (d : Deed) :
    recent (trace ++ [d]) = remember (recent trace) d := by
  simp [recent]

/-- In a calm stretch all peers that are sent to are kept in mind. -/
theorem recent_append_calm {stretch : List Deed} (before : List Deed) (h : Calm stretch) :
    recent (before ++ stretch) = recent before ++ sentTo stretch := by
  induction stretch using List.reverseRecOn with
  | nil => simp
  | append_singleton stretch d ih =>
    obtain ⟨hexpired, htook⟩ := h
    simp only [List.mem_append, List.mem_singleton, not_or] at hexpired htook
    rw [← List.append_assoc, recent_concat, ih ⟨hexpired.1, htook.1⟩, sentTo_append]
    cases d with
    | sent p => simp [remember]
    | expired => exact absurd rfl hexpired.2
    | took signal =>
      cases signal with
      | forgetTried => exact absurd rfl htook.2
      | _ => simp [remember]
    | removed p => simp [remember]

namespace Shift

variable {s : MongerSettings} {v v' : Shift} {p : PeerAddress}

/-! ### The origin of the rumor -/

/-- The invariant that keeps the origin of the rumor out. -/
structure Spares (v : Shift) : Prop where
  tried : ∀ p, v.origin = some p → p ∈ v.tried
  current : ∀ p, v.current = some p → v.origin ≠ some p
  sending : ∀ p, v.place = .sending p → v.origin ≠ some p
  trace : ∀ p, .sent p ∈ v.trace ∨ .removed p ∈ v.trace → v.origin ≠ some p

theorem spares_start (id : Nat) (rumor : Rumor) (origin : Option PeerAddress)
    (peers : PeerSet) : (start id rumor origin peers).Spares := by
  constructor <;> simp [start]

theorem Spares.note (h : v.Spares) {d : Deed}
    (hd : ∀ p, d = .sent p ∨ d = .removed p → v.origin ≠ some p) : (v.note d).Spares := by
  refine ⟨h.tried, h.current, h.sending, fun p hp => ?_⟩
  simp only [Shift.note, List.mem_append, List.mem_singleton] at hp
  rcases hp with (hp | hp) | hp | hp
  · exact h.trace p (Or.inl hp)
  · exact hd p (Or.inl hp.symm)
  · exact h.trace p (Or.inr hp)
  · exact hd p (Or.inr hp.symm)

theorem Spares.quit (h : v.Spares) : v.quit.Spares :=
  ⟨h.tried, h.current, fun _ hp => (nomatch hp), h.trace⟩

/-- Whenever a worker forgets whom it has tried, it keeps the origin in mind. -/
theorem Spares.forget (h : v.Spares) : v.forget.Spares :=
  ⟨fun _ hp => Option.mem_toList.2 hp, h.current, h.sending, h.trace⟩

theorem Spares.seek (h : v.Spares) : v.seek.Spares :=
  ⟨h.tried, h.current, fun _ hp => (nomatch hp), h.trace⟩

theorem Spares.turnTo (h : v.Spares) (hp : v.origin ≠ some p) : (v.turnTo p).Spares := by
  constructor
  · intro q hq
    exact List.mem_cons_of_mem p (h.tried q hq)
  · intro q hq
    obtain rfl := Option.some.inj hq
    exact hp
  · intro q hq
    obtain rfl := Place.sending.inj hq
    exact hp
  · exact h.trace

theorem Spares.lapse (h : v.Spares) : v.lapse.Spares :=
  have hnoted := h.note (d := .expired) (by simp)
  ⟨hnoted.tried, hnoted.current, hnoted.sending, hnoted.trace⟩

theorem Spares.count (h : v.Spares) : v.count.Spares :=
  have hforgot := h.forget
  ⟨hforgot.tried, hforgot.current, hforgot.sending, hforgot.trace⟩

/-- The peer that is taken out is one that the worker talks to. -/
theorem Spares.evict (h : v.Spares) : v.evict.Spares := by
  refine ⟨h.tried, h.current, h.sending, fun p hp => ?_⟩
  rcases v.trace_evict with hsame | ⟨q, hcurrent, hone⟩
  · rw [hsame] at hp
    exact h.trace p hp
  · rw [hone] at hp
    have hq := h.current q hcurrent
    have hnoted := h.note (d := .removed q) (by simp [hq])
    exact hnoted.trace p hp

theorem Spares.hear (h : v.Spares) (signal : Signal) : (v.hear signal).Spares := by
  cases signal with
  | sync => exact ⟨h.tried, h.current, h.sending, h.trace⟩
  | reset =>
    have hseeks := h.seek
    exact ⟨hseeks.tried, hseeks.current, hseeks.sending, hseeks.trace⟩
  | forgetTried => exact h.forget
  | stop => exact h.quit

/-- **What a step can do keeps the origin out.** -/
theorem Spares.leads (h : v.Spares) (hleads : v.Leads s v') : v'.Spares := by
  cases hleads with
  | begun => exact ⟨h.tried, h.current, fun _ hp => (nomatch hp), h.trace⟩
  | picked p hplace hknown hnew => exact h.turnTo fun horigin => hnew (h.tried p horigin)
  | exhausted => exact h.quit
  | sent p due hplace =>
    have hp := h.sending p hplace
    have hnoted := h.note (d := .sent p) (by simp [hp])
    exact ⟨hnoted.tried, hnoted.current, fun _ hq => (nomatch hq), hnoted.trace⟩
  | cutOff => exact h.quit
  | took signal rest =>
    have hheard := (h.note (d := .took signal) (by simp)).hear signal
    exact ⟨hheard.tried, hheard.current, hheard.sending, hheard.trace⟩
  | abandoned => exact h.quit
  | lapsed => exact h.lapse
  | tails => exact h.lapse.quit
  | gaveUp =>
    have hseeks := h.lapse.count.evict.seek
    exact ⟨hseeks.tried, fun _ hp => (nomatch hp), hseeks.sending, hseeks.trace⟩
  | again p due hplace hdue hsync hp => exact h.lapse.count.turnTo (h.current p hp)
  | missed => exact h.lapse.count.seek
  | left => exact ⟨h.tried, h.current, fun _ hp => (nomatch hp), h.trace⟩
  | told => exact ⟨h.tried, h.current, h.sending, h.trace⟩
  | dismissed => exact ⟨h.tried, h.current, h.sending, h.trace⟩
  | changed => exact ⟨h.tried, h.current, h.sending, h.trace⟩

/-! ### Different peers -/

/-- The invariant that keeps the peers different to which a worker sends in a calm stretch. -/
structure Varies (v : Shift) : Prop where
  tried : ∀ p ∈ recent v.trace, p ∈ v.tried
  sending : ∀ p, v.place = .sending p → p ∈ v.tried ∧ p ∉ recent v.trace
  distinct : ∀ t, t <+: v.trace → (recent t).Nodup

theorem varies_start (id : Nat) (rumor : Rumor) (origin : Option PeerAddress)
    (peers : PeerSet) : (start id rumor origin peers).Varies where
  tried _ hp := nomatch hp
  sending _ hp := nomatch hp
  distinct t ht := by
    obtain rfl := List.prefix_nil.1 ht
    exact .nil

/-- One more deed. -/
theorem Varies.distinct_concat (h : v.Varies) {d : Deed}
    (hd : (remember (recent v.trace) d).Nodup) : ∀ t, t <+: v.trace ++ [d] → (recent t).Nodup := by
  intro t ht
  rcases List.prefix_concat_iff.1 ht with rfl | ht
  · rwa [recent_concat]
  · exact h.distinct t ht

/-- A worker that has sent to nobody lately may turn to anyone. -/
theorem varies_of_recent_eq_nil (hnil : recent v.trace = [])
    (hsending : ∀ p, v.place = .sending p → p ∈ v.tried)
    (hdistinct : ∀ t, t <+: v.trace → (recent t).Nodup) : v.Varies where
  tried p hp := by
    rw [hnil] at hp
    exact nomatch hp
  sending p hp := by
    rw [hnil]
    exact ⟨hsending p hp, List.not_mem_nil⟩
  distinct := hdistinct

theorem Varies.quit (h : v.Varies) : v.quit.Varies :=
  ⟨h.tried, fun _ hp => (nomatch hp), h.distinct⟩

/-- Whom a worker has not tried it has not sent to lately. -/
theorem Varies.turnTo (h : v.Varies) (hnew : p ∉ v.tried) : (v.turnTo p).Varies := by
  refine ⟨fun q hq => List.mem_cons_of_mem p (h.tried q hq), fun q hq => ?_, h.distinct⟩
  obtain rfl := Place.sending.inj hq
  exact ⟨List.mem_cons_self, fun hmem => hnew (h.tried p hmem)⟩

/-- What is sent goes to a peer that was not sent to lately. -/
theorem Varies.sent (h : v.Varies) (hplace : v.place = .sending p) :
    (∀ q ∈ recent (v.trace ++ [.sent p]), q ∈ v.tried) ∧
      ∀ t, t <+: v.trace ++ [.sent p] → (recent t).Nodup := by
  obtain ⟨htried, hnew⟩ := h.sending p hplace
  constructor
  · intro q hq
    simp only [recent_concat, remember, List.mem_append, List.mem_singleton] at hq
    rcases hq with hq | rfl
    · exact h.tried q hq
    · exact htried
  · apply h.distinct_concat
    simp only [remember]
    apply List.Nodup.append (h.distinct _ List.prefix_rfl) (List.nodup_singleton p)
    simpa using hnew

theorem Varies.took (h : v.Varies) (hplace : v.place = .resting) (signal : Signal) :
    ((v.note (.took signal)).hear signal).Varies := by
  have hnone : ∀ p, v.place ≠ .sending p := by simp [hplace]
  have hdistinct : ∀ t, t <+: v.trace ++ [.took signal] → (recent t).Nodup := by
    apply h.distinct_concat
    cases signal with
    | forgetTried => exact .nil
    | sync | reset | stop => exact h.distinct _ List.prefix_rfl
  cases signal with
  | forgetTried =>
    -- whom it has tried no longer matters, since it has sent to nobody since the news
    apply varies_of_recent_eq_nil
    · simp [hear, Shift.note, Shift.forget, remember]
    · intro p hp
      exact absurd hp (hnone p)
    · exact hdistinct
  | sync =>
    have hsame : recent (v.trace ++ [.took .sync]) = recent v.trace := recent_concat _ _
    exact ⟨fun p hp => h.tried p (hsame ▸ hp), fun p hp => absurd hp (hnone p), hdistinct⟩
  | reset =>
    have hsame : recent (v.trace ++ [.took .reset]) = recent v.trace := recent_concat _ _
    exact ⟨fun p hp => h.tried p (hsame ▸ hp), fun p hp => Place.noConfusion hp, hdistinct⟩
  | stop =>
    have hsame : recent (v.trace ++ [.took .stop]) = recent v.trace := recent_concat _ _
    exact ⟨fun p hp => h.tried p (hsame ▸ hp), fun p hp => Place.noConfusion hp, hdistinct⟩

/-- When a wait ends, nobody was sent to lately. -/
theorem recent_lapse (v : Shift) : recent v.lapse.trace = [] := by
  simp [lapse, Shift.note, remember]

theorem Varies.lapse (h : v.Varies) (hplace : v.place = .resting) : v.lapse.Varies := by
  apply varies_of_recent_eq_nil v.recent_lapse
  · intro p hp
    exact absurd (hplace.symm.trans hp) Place.noConfusion
  · exact h.distinct_concat .nil

/-- Nor if a peer is taken out then. -/
theorem recent_evict (v : Shift) : recent v.evict.trace = recent v.trace := by
  rcases v.trace_evict with hsame | ⟨p, -, hone⟩
  · rw [hsame]
  · rw [hone]
    exact recent_concat _ _

theorem Varies.distinct_evict (h : v.Varies) : ∀ t, t <+: v.evict.trace → (recent t).Nodup := by
  rcases v.trace_evict with hsame | ⟨p, -, hone⟩
  · rw [hsame]
    exact h.distinct
  · rw [hone]
    exact h.distinct_concat (h.distinct _ List.prefix_rfl)

/-- **What a step can do keeps the peers different.** -/
theorem Varies.leads (h : v.Varies) (hleads : v.Leads s v') : v'.Varies := by
  cases hleads with
  | begun => exact ⟨h.tried, fun _ hp => (nomatch hp), h.distinct⟩
  | picked p hplace hknown hnew => exact h.turnTo hnew
  | exhausted => exact h.quit
  | sent p due hplace =>
    obtain ⟨htried, hdistinct⟩ := h.sent hplace
    exact ⟨htried, fun _ hq => (nomatch hq), hdistinct⟩
  | cutOff => exact h.quit
  | took signal rest hplace =>
    have htook := h.took hplace signal
    exact ⟨htook.tried, htook.sending, htook.distinct⟩
  | abandoned => exact h.quit
  | lapsed due hplace => exact h.lapse hplace
  | tails due hplace => exact (h.lapse hplace).quit
  | gaveUp due hplace =>
    have hlapsed := h.lapse hplace
    have hcounted : v.lapse.count.Varies :=
      varies_of_recent_eq_nil v.recent_lapse
        (fun p hp => absurd (hplace.symm.trans hp) Place.noConfusion) hlapsed.distinct
    apply varies_of_recent_eq_nil
    · exact (recent_evict _).trans v.recent_lapse
    · exact fun p hp => nomatch hp
    · exact hcounted.distinct_evict
  | again p due hplace =>
    -- the same peer again, but the wait that ended separates the two sends
    apply varies_of_recent_eq_nil (v := v.lapse.count.turnTo p) v.recent_lapse
    · intro q hq
      obtain rfl := Place.sending.inj hq
      exact List.mem_cons_self
    · exact (h.lapse hplace).distinct
  | missed due hplace =>
    apply varies_of_recent_eq_nil (v := v.lapse.count.seek) v.recent_lapse
    · exact fun p hp => nomatch hp
    · exact (h.lapse hplace).distinct
  | left => exact ⟨h.tried, fun _ hp => (nomatch hp), h.distinct⟩
  | told => exact ⟨h.tried, h.sending, h.distinct⟩
  | dismissed => exact ⟨h.tried, h.sending, h.distinct⟩
  | changed => exact ⟨h.tried, h.sending, h.distinct⟩

/-- **In a calm stretch no peer is sent to twice.** -/
theorem nodup_sentTo (h : v.Varies) {before stretch after : List Deed}
    (htrace : v.trace = before ++ stretch ++ after) (hcalm : Calm stretch) :
    (sentTo stretch).Nodup := by
  have hall := h.distinct (before ++ stretch) ⟨after, htrace.symm⟩
  rw [recent_append_calm before hcalm] at hall
  exact (List.nodup_append.1 hall).2.1

/-! ### The end -/

/-- The end is reported once. -/
theorem reports_leads (h : v.reports = if v.place = .gone then 1 else 0) (hleads : v.Leads s v') :
    v'.reports = if v'.place = .gone then 1 else 0 := by
  have hzero : v.place ≠ .gone → v.reports = 0 := fun hplace => h.trans (if_neg hplace)
  cases hleads with
  | left hplace => simp [hzero, hplace]
  | told | dismissed | changed => exact h
  | took signal rest hplace =>
    have hbefore := hzero (by simp [hplace])
    cases signal <;> simp [hear, Shift.note, Shift.seek, Shift.forget, Shift.quit, hplace, hbefore]
  | begun hplace | picked _ hplace | exhausted hplace => exact hzero (by simp [hplace])
  | sent _ _ hplace | cutOff _ hplace | abandoned hplace => exact hzero (by simp [hplace])
  | tails _ hplace => exact hzero (by simp [hplace])
  | gaveUp _ hplace | again _ _ hplace | missed _ hplace => exact hzero (by simp [hplace])
  | lapsed _ hplace => simpa [lapse, Shift.note, hplace] using h

/-- **A worker that is done does nothing more.** -/
theorem ended_leads (hplace : v.place = .leaving ∨ v.place = .gone) (hleads : v.Leads s v') :
    (v'.place = .leaving ∨ v'.place = .gone) ∧ v'.condition = v.condition ∧ v'.trace = v.trace := by
  cases hleads with
  | left => exact ⟨Or.inr rfl, rfl, rfl⟩
  | told | dismissed | changed => exact ⟨hplace, rfl, rfl⟩
  | begun h | picked _ h | exhausted h | sent _ _ h | cutOff _ h => simp [h] at hplace
  | took _ _ h | abandoned h | lapsed _ h | tails _ h | gaveUp _ h => simp [h] at hplace
  | again _ _ h | missed _ h => simp [h] at hplace

theorem ended_run (hplace : v.place = .leaving ∨ v.place = .gone) (es : List Event) :
    (v.run s es).condition = v.condition ∧ (v.run s es).trace = v.trace := by
  have hkeeps : ((v.run s es).place = .leaving ∨ (v.run s es).place = .gone) ∧
      (v.run s es).condition = v.condition ∧ (v.run s es).trace = v.trace := by
    refine run_keeps (P := fun u => (u.place = .leaving ∨ u.place = .gone) ∧
      u.condition = v.condition ∧ u.trace = v.trace) ?_ ⟨hplace, rfl, rfl⟩ es
    rintro u u' ⟨hu, hcondition, htrace⟩ hleads
    obtain ⟨hu', hcondition', htrace'⟩ := ended_leads hu hleads
    exact ⟨hu', hcondition'.trans hcondition, htrace'.trans htrace⟩
  exact hkeeps.2

/-! ### Known peers -/

theorem sentTo_evict (v : Shift) : sentTo v.evict.trace = sentTo v.trace := by
  rcases v.trace_evict with hsame | ⟨p, -, hone⟩ <;> simp [*]

/-- What a step sends waited for room before. -/
theorem sentTo_leads (hleads : v.Leads s v') : sentTo v'.trace = sentTo v.trace ∨
    ∃ p, v.place = .sending p ∧ sentTo v'.trace = sentTo v.trace ++ [p] := by
  cases hleads with
  | sent p due hplace => exact Or.inr ⟨p, hplace, by simp [Shift.note]⟩
  | took signal =>
    left
    show sentTo ((v.note (.took signal)).hear signal).trace = sentTo v.trace
    simp [Shift.note]
  | lapsed | tails | again | missed =>
    left
    simp [Shift.turnTo, Shift.seek, Shift.count, Shift.forget, Shift.lapse, Shift.note, Shift.quit]
  | gaveUp =>
    left
    refine (sentTo_evict _).trans ?_
    simp [Shift.count, Shift.forget, Shift.lapse, Shift.note]
  | _ => exact Or.inl rfl

/-- A worker turns to a peer when that peer is known. -/
theorem known_of_sending (hleads : v.Leads s v') (hplace : v'.place = .sending p) :
    sentTo v'.trace = sentTo v.trace ∧ (v.place = .sending p ∨ p ∈ v.peers) := by
  cases hleads with
  | picked q _ hknown =>
    obtain rfl := Place.sending.inj hplace
    exact ⟨rfl, Or.inr hknown⟩
  | again q _ _ _ _ _ hknown =>
    -- a peer gets the rumor again only if it is known when the wait ends
    obtain rfl := Place.sending.inj hplace
    refine ⟨?_, Or.inr hknown⟩
    simp [Shift.turnTo, Shift.count, Shift.forget, Shift.lapse, Shift.note]
  | took signal _ hresting =>
    cases signal <;>
      simp [hear, Shift.note, Shift.seek, Shift.forget, Shift.quit, hresting] at hplace
  | lapsed _ hresting => exact absurd (hresting.symm.trans hplace) Place.noConfusion
  | told | dismissed | changed => exact ⟨rfl, Or.inl hplace⟩
  | _ => cases hplace

/-- Since the last send before, a peer that a worker is about to send to was known. -/
theorem exists_known_of_sending (id : Nat) (rumor : Rumor) (origin : Option PeerAddress)
    (peers : PeerSet) {es : List Event}
    (hplace : ((start id rumor origin peers).run s es).place = .sending p) :
    ∃ earlier, earlier <+: es ∧ p ∈ ((start id rumor origin peers).run s earlier).peers ∧
      sentTo ((start id rumor origin peers).run s earlier).trace =
        sentTo ((start id rumor origin peers).run s es).trace := by
  induction es using List.reverseRecOn with
  | nil => exact nomatch hplace
  | append_singleton es e ih =>
    rw [run_concat] at hplace ⊢
    have hprefix : es <+: es ++ [e] := List.prefix_append es [e]
    rcases ((start id rumor origin peers).run s es).leads_step s e with hsame | hleads
    · rw [hsame] at hplace ⊢
      obtain ⟨earlier, hearlier, hknown, hnone⟩ := ih hplace
      exact ⟨earlier, hearlier.trans hprefix, hknown, hnone⟩
    · obtain ⟨htrace, hbefore | hknown⟩ := known_of_sending hleads hplace
      · obtain ⟨earlier, hearlier, hknown, hnone⟩ := ih hbefore
        exact ⟨earlier, hearlier.trans hprefix, hknown, hnone.trans htrace.symm⟩
      · exact ⟨es, hprefix, hknown, htrace.symm⟩

/-- **Who is sent to was known since the send before.** -/
theorem exists_known_of_sends (id : Nat) (rumor : Rumor) (origin : Option PeerAddress)
    (peers : PeerSet) {es : List Event} {e : Event}
    (hsends : sentTo (((start id rumor origin peers).run s es).step s e).trace =
      sentTo ((start id rumor origin peers).run s es).trace ++ [p]) :
    ∃ earlier, earlier <+: es ∧ p ∈ ((start id rumor origin peers).run s earlier).peers ∧
      sentTo ((start id rumor origin peers).run s earlier).trace =
        sentTo ((start id rumor origin peers).run s es).trace := by
  apply exists_known_of_sending
  rcases ((start id rumor origin peers).run s es).leads_step s e with hsame | hleads
  · simp [hsame] at hsends
  · rcases sentTo_leads hleads with hnone | ⟨q, hplace, hone⟩
    · simp [hnone] at hsends
    · rw [hone] at hsends
      obtain rfl : q = p := by simpa using hsends
      exact hplace

/-! ### A whole run -/

/-- A worker is not in the middle of a move, and has begun. -/
def AtRest (v : Shift) : Prop := v.place = .resting ∨ v.place = .leaving ∨ v.place = .gone

theorem Situated.existsUnique_in (h : v.Situated) (hrest : v.AtRest) :
    ∃! situation, v.In situation := by
  have hsome : ∃ situation, v.In situation := by
    rcases hrest with hplace | hplace | hplace
    · rcases h.resting hplace with hwaits | hsyncs
      · exact ⟨_, hwaits⟩
      · exact ⟨_, hsyncs⟩
    all_goals
      simp only [Situated, hplace] at h
      exact ⟨.ended, h⟩
  -- a worker takes itself to be doing one thing
  obtain ⟨situation, hin⟩ := hsome
  refine ⟨situation, hin, fun other hother => ?_⟩
  cases situation <;> cases other <;> simp_all [In]

/-- A worker that reconciles has no wait that could end. -/
theorem Situated.expire_eq_self (h : v.Situated) (hsync : v.synchronizing = true) (w : Moment) :
    v.expire w s = v := by
  unfold expire
  split
  next due hplace hdue =>
    rcases h.resting hplace with ⟨-, -, hother, -⟩ | ⟨-, hnone, -⟩
    · simp [hsync] at hother
    · simp [hdue] at hnone
  next => rfl

/-- The peer that the rumor came from stays the same. -/
theorem origin_leads (hleads : v.Leads s v') : v'.origin = v.origin := by
  cases hleads with
  | took signal => exact hear_origin _ signal
  | _ => rfl

/-- **How a monger conducts itself.**  Whatever it is told, whenever its waits end, whatever the
coin and the picks are, and whatever others do to the known peers between any two of its steps: it
sends to all peers but the one that the rumor came from, and takes out no other.  When it is not in
the middle of a move, it is in exactly one of three situations: it waits for an answer of the peer
that it sent to last, or it waits for the end of reconciliation, or it is done.  Only the first has
an end of a wait, so that no wait ends while the monger reconciles.  When it is done, it does
nothing more, and its end is reported once.  In each stretch in which no wait ends and no news come,
all its sends go to different peers; and each goes to a peer that was known since the send before.
All that a watched monger does is such a run. -/
theorem conduct_of_run (s : MongerSettings) (id : Nat) (rumor : Rumor)
    (origin : Option PeerAddress) (peers : PeerSet) (es : List Event) :
    let v := (start id rumor origin peers).run s es
    (∀ p, .sent p ∈ v.trace ∨ .removed p ∈ v.trace → origin ≠ some p) ∧
    (v.AtRest → ∃! situation, v.In situation) ∧
    (v.synchronizing = true → ∀ w, v.step s (.expires w) = v) ∧
    (v.condition = .stopped → ∀ later,
      (v.run s later).condition = .stopped ∧ (v.run s later).trace = v.trace) ∧
    (v.reports = if v.place = .gone then 1 else 0) ∧
    (v.condition = .stopped → (v.step s .leaves).reports = 1) ∧
    (∀ before stretch after, v.trace = before ++ stretch ++ after → Calm stretch →
      (sentTo stretch).Nodup) ∧
    (∀ e p, sentTo (v.step s e).trace = sentTo v.trace ++ [p] →
      ∃ earlier, earlier <+: es ∧ p ∈ ((start id rumor origin peers).run s earlier).peers ∧
        sentTo ((start id rumor origin peers).run s earlier).trace = sentTo v.trace) ∧
    ∀ events, ∃ steps, ((start id rumor origin peers).run s steps).watch =
      (Watch.start id rumor origin peers).run s events := by
  intro v
  have hsituated : v.Situated := situated_run (situated_start id rumor origin peers) es
  have hspares : v.Spares := run_keeps Spares.leads (spares_start id rumor origin peers) es
  have hvaries : v.Varies := run_keeps Varies.leads (varies_start id rumor origin peers) es
  have hreports : v.reports = if v.place = .gone then 1 else 0 :=
    run_keeps (P := fun u => u.reports = if u.place = .gone then 1 else 0) reports_leads rfl es
  have horigin : v.origin = origin :=
    run_keeps (P := fun u => u.origin = origin) (fun hu hleads => (origin_leads hleads).trans hu)
      rfl es
  refine ⟨?_, hsituated.existsUnique_in, ?_, ?_, hreports, ?_, ?_, ?_, ?_⟩
  · intro p hp
    exact horigin ▸ hspares.trace p hp
  · intro hsync w
    exact hsituated.expire_eq_self hsync w
  · intro hstopped later
    obtain ⟨hcondition, htrace⟩ := ended_run (s := s) (hsituated.ended hstopped) later
    exact ⟨hcondition.trans hstopped, htrace⟩
  · intro hstopped
    show v.leave.reports = 1
    unfold leave
    rcases hsituated.ended hstopped with hplace | hplace
    · simp [hreports, hplace]
    · simp [hreports, hplace]
  · intro before stretch after htrace hcalm
    exact nodup_sentTo hvaries htrace hcalm
  · intro e p hsends
    exact exists_known_of_sends id rumor origin peers hsends
  · intro events
    exact exists_run_watch (situated_start id rumor origin peers) (Or.inl rfl) events

end Shift
end GossipLedger
