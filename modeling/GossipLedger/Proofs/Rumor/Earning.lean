import GossipLedger.Proofs.Rumor.Shift

/-!
# Sends that stay unanswered

A monger sends its rumor to a peer and waits.  When a wait ends without an answer it sends to the
same peer again, and after so many sends in a row it takes the peer out of the known ones.  An
answer, or the order to go on, starts the count anew; that there is news does not.  Other mongers
and the node itself add peers and take some away meanwhile.

Here a monger goes step by step, and others may come in between any two steps.  What it has counted
are always the last sends to its peer, and they stayed unanswered.  It may have counted fewer than
there were: a peer that is gone when a wait ends, and is back before the next pick, gets a new
count.  If others leave the known peers alone while one is about to be picked, that cannot happen.

## Main definitions

* `Earned` — the last deeds are sends to a peer, each without an answer.
* `Shift.Counts` — the invariant: what a worker has counted was sent, and stayed unanswered.
* `Shift.Exact` — the invariant: it has counted all of it.
* `Shift.Undisturbed` — others do not change the known peers while a peer is about to be picked.

## Main results

* `Shift.counts_run` — what a worker has counted was sent and stayed unanswered, always.
* `Shift.exact_run` — it has counted all of it, if it is not disturbed.
* `Shift.not_mem_peers_expire_iff` — who is taken out at the end of a wait.
* `Shift.Counts.earned_of_removed`, `Shift.Exact.removed_iff` — whoever is taken out earned it, and
  the other way round.
-/

namespace GossipLedger

/-- So many sends to a peer, each without an answer. -/
def unanswered (n : Nat) (p : PeerAddress) : List Deed :=
  (List.replicate n [.sent p, .expired]).flatten

/-- The deeds without the news that peers are worth another try. -/
def salient (trace : List Deed) : List Deed := trace.filter (· ≠ .took .forgetTried)

/-- The last deeds are so many sends to a peer, each without an answer. -/
def Earned (n : Nat) (p : PeerAddress) (trace : List Deed) : Prop :=
  unanswered n p <:+ salient trace

instance (n : Nat) (p : PeerAddress) (trace : List Deed) : Decidable (Earned n p trace) :=
  inferInstanceAs (Decidable (_ <:+ _))

/-- The last deed is a send to a peer, after so many that stayed without an answer. -/
def Awaits (n : Nat) (p : PeerAddress) (trace : List Deed) : Prop :=
  unanswered n p ++ [.sent p] <:+ salient trace

variable {p q : PeerAddress} {s : MongerSettings} {w : Moment} {trace : List Deed} {n k : Nat}

/-! ### Deeds -/

theorem unanswered_succ (n : Nat) (p : PeerAddress) :
    unanswered (n + 1) p = unanswered n p ++ [.sent p] ++ [.expired] := by
  unfold unanswered
  rw [List.replicate_succ', List.flatten_concat, List.append_assoc]
  rfl

theorem salient_concat {d : Deed} (hd : d ≠ .took .forgetTried) :
    salient (trace ++ [d]) = salient trace ++ [d] := by
  unfold salient
  rw [List.filter_append, List.filter_singleton, decide_eq_true hd]
  rfl

/-- News do not matter. -/
theorem salient_concat_forgetTried : salient (trace ++ [.took .forgetTried]) = salient trace := by
  unfold salient
  rw [List.filter_append]
  exact List.append_nil _

theorem earned_zero (p : PeerAddress) (trace : List Deed) : Earned 0 p trace := List.nil_suffix

theorem not_earned_succ_nil : ¬Earned (n + 1) p [] := by
  unfold Earned
  rw [unanswered_succ]
  intro hsuffix
  exact List.append_ne_nil_of_right_ne_nil _ (List.cons_ne_nil _ _) (List.suffix_nil.1 hsuffix)

/-- Of a send it turns out at the end of the wait that it stayed unanswered. -/
theorem earned_concat_expired : Earned (n + 1) p (trace ++ [.expired]) ↔ Awaits n p trace := by
  unfold Earned Awaits
  rw [unanswered_succ, salient_concat Deed.noConfusion, List.suffix_append_self_iff]

theorem awaits_concat_sent : Awaits n p (trace ++ [.sent p]) ↔ Earned n p trace := by
  unfold Earned Awaits
  rw [salient_concat Deed.noConfusion, List.suffix_append_self_iff]

/-- Nothing is earned but at the end of a wait. -/
theorem not_earned_succ_concat {d : Deed} (hd : d ≠ .took .forgetTried) (hd' : d ≠ .expired) :
    ¬Earned (n + 1) p (trace ++ [d]) := by
  unfold Earned
  rw [unanswered_succ, salient_concat hd]
  intro hsuffix
  have hlength : [Deed.expired].length = [d].length := rfl
  obtain ⟨-, hlast⟩ := (List.suffix_append_inj_of_length_eq hlength).1 hsuffix
  exact hd' (List.singleton_inj.1 hlast).symm

/-- The last send is to one peer only. -/
theorem Awaits.eq (h : Awaits n p trace) (h' : Awaits k q trace) : p = q := by
  have hlast := (List.suffix_append _ _).trans h
  have hlast' := (List.suffix_append _ _).trans h'
  have heq := (List.suffix_of_suffix_length_le hlast hlast' le_rfl).eq_of_length rfl
  exact Deed.sent.inj (List.singleton_inj.1 heq)

theorem Awaits.mono (h : Awaits k p trace) (hle : n ≤ k) : Awaits n p trace := by
  obtain ⟨m, rfl⟩ := Nat.exists_eq_add_of_le' hle
  have hsplit : unanswered (m + n) p = unanswered m p ++ unanswered n p := by
    unfold unanswered
    rw [List.replicate_add, List.flatten_append]
  unfold Awaits at h ⊢
  rw [hsplit, List.append_assoc] at h
  exact (List.suffix_append _ _).trans h

namespace Shift

variable {v v' : Shift}

/-! ### The end of a wait -/

theorem peers_evict (hp : v.current = some p) : v.evict.peers = v.peers.remove p := by
  unfold evict
  rw [hp]

theorem trace_evict_eq (hp : v.current = some p) :
    v.evict.trace = v.trace ++ if p ∈ v.peers then [.removed p] else [] := by
  unfold evict
  rw [hp]

theorem trace_evict_of_mem (hp : v.current = some p) (hknown : p ∈ v.peers) :
    v.lapse.count.evict.trace = v.trace ++ [.expired, .removed p] := by
  have htrace : v.lapse.count.evict.trace =
      v.trace ++ [.expired] ++ if p ∈ v.peers then [.removed p] else [] := trace_evict_eq hp
  rw [htrace, if_pos hknown, List.append_assoc]
  rfl

theorem expire_of_none (hdue : v.deadline = none) : v.expire w s = v := by
  unfold expire
  rw [hdue]
  split
  next hsome => exact nomatch hsome
  next => rfl

section
variable {due : Nat} (hplace : v.place = .resting) (hdue : v.deadline = some due)
  (hsync : v.synchronizing = false)
include hplace hdue hsync

theorem expire_of_tails (hw : w.coin = false) : v.expire w s = v.lapse.quit := by
  unfold expire
  rw [hplace, hdue, hsync]
  unfold retry
  rw [hw]
  rfl

/-- What a worker does on heads when a peer did not answer. -/
theorem expire_of_heads (hw : w.coin = true) (hp : v.current = some p) :
    v.expire w s =
      if s.maxRetries ≤ v.retries + 1 then { v.lapse.count.evict.seek with current := none }
      else if p ∈ v.peers then v.lapse.count.turnTo p
      else v.lapse.count.seek := by
  have hcurrent : v.lapse.current = some p := hp
  unfold expire
  rw [hplace, hdue, hsync]
  unfold retry
  rw [hw, hcurrent]
  rfl

/-- **Who is taken out at the end of a wait**: on heads, the peer that was waited for, if enough
sends were counted. -/
theorem not_mem_peers_expire_iff (hp : v.current = some p) (hq : q ∈ v.peers) :
    q ∉ (v.expire w s).peers ↔ w.coin = true ∧ s.maxRetries ≤ v.retries + 1 ∧ q = p := by
  cases hw : w.coin with
  | false =>
    rw [expire_of_tails hplace hdue hsync hw]
    exact iff_of_false (not_not_intro hq) fun h => nomatch h.1
  | true =>
    rw [expire_of_heads hplace hdue hsync hw hp]
    by_cases hmany : s.maxRetries ≤ v.retries + 1
    · have hpeers : v.lapse.count.evict.peers = v.peers.remove p := peers_evict hp
      rw [if_pos hmany]
      show q ∉ v.lapse.count.evict.peers ↔ _
      rw [hpeers, PeerSet.mem_remove]
      tauto
    · rw [if_neg hmany]
      refine iff_of_false ?_ fun h => hmany h.2.1
      split <;> exact not_not_intro hq

/-- It is taken out at once. -/
theorem trace_expire_of_many (hw : w.coin = true) (hmany : s.maxRetries ≤ v.retries + 1)
    (hp : v.current = some p) (hknown : p ∈ v.peers) :
    (v.expire w s).trace = v.trace ++ [.expired, .removed p] := by
  rw [expire_of_heads hplace hdue hsync hw hp, if_pos hmany]
  exact trace_evict_of_mem hp hknown

end

/-- Only the end of a wait, or others, change the known peers. -/
theorem peers_step {e : Event} (hothers : ∀ peers, e ≠ .others peers)
    (hrests : v.place = .resting → ∀ w, e ≠ .expires w) : (v.step s e).peers = v.peers := by
  cases e with
  | begins =>
    show v.begin.peers = v.peers
    unfold begin
    split <;> rfl
  | picks w =>
    show (v.pick w).peers = v.peers
    unfold pick
    split
    next => split <;> rfl
    next => rfl
  | sends w =>
    show (v.dispatch w s).peers = v.peers
    unfold dispatch
    split
    next => split <;> rfl
    next => rfl
  | takes =>
    show v.take.peers = v.peers
    unfold take
    split
    next signal _ _ _ => cases signal <;> rfl
    next => split <;> rfl
    next => rfl
  | expires w =>
    show (v.expire w s).peers = v.peers
    unfold expire
    split
    next hplace _ => exact absurd rfl (hrests hplace w)
    next => rfl
  | leaves =>
    show v.leave.peers = v.peers
    unfold leave
    split <;> rfl
  | told signal =>
    show ((v.signal? signal).getD v).peers = v.peers
    unfold signal?
    split <;> rfl
  | dismissed => rfl
  | others peers => exact absurd rfl (hothers peers)

/-! ### The count of sends -/

/-- **The invariant**: the sends that a worker has counted are the last ones to its peer, and they
stayed unanswered. -/
def Counts (s : MongerSettings) (v : Shift) : Prop :=
  match v.place with
  | .outset => v.retries = 0 ∧ v.trace = []
  | .picking => v.retries = 0
  | .sending p => v.current = some p ∧ v.retries < s.maxRetries ∧ Earned v.retries p v.trace
  | .resting => v.synchronizing = false →
      ∃ p, v.current = some p ∧ v.retries < s.maxRetries ∧ Awaits v.retries p v.trace
  | .leaving => True
  | .gone => True

theorem counts_start (id : Nat) (rumor : Rumor) (origin : Option PeerAddress)
    (peers : PeerSet) : (start id rumor origin peers).Counts s := ⟨rfl, rfl⟩

theorem Counts.resting (h : v.Counts s) (hplace : v.place = .resting)
    (hsync : v.synchronizing = false) :
    ∃ p, v.current = some p ∧ v.retries < s.maxRetries ∧ Awaits v.retries p v.trace := by
  simp only [Counts, hplace] at h
  exact h hsync

theorem Counts.leads (hs : 1 ≤ s.maxRetries) (h : v.Counts s) (hleads : v.Leads s v') :
    v'.Counts s := by
  cases hleads with
  | begun hplace =>
    simp only [Counts, hplace] at h
    exact h.1
  | picked p hplace =>
    -- the count for a new peer begins
    simp only [Counts, hplace] at h
    refine ⟨rfl, h.trans_lt hs, ?_⟩
    show Earned v.retries p v.trace
    rw [h]
    exact earned_zero p v.trace
  | exhausted => trivial
  | sent p due hplace =>
    simp only [Counts, hplace] at h
    obtain ⟨hp, hfew, hearned⟩ := h
    intro _
    exact ⟨p, hp, hfew, awaits_concat_sent.2 hearned⟩
  | cutOff => trivial
  | took signal rest hplace hqueue =>
    cases signal with
    | sync =>
      simp only [Counts, hear, note, hplace]
      intro hsync
      exact Bool.noConfusion hsync
    | reset => exact rfl
    | forgetTried =>
      simp only [Counts, hear, note, forget, hplace]
      intro hsync
      obtain ⟨p, hp, hfew, hawaits⟩ := h.resting hplace hsync
      refine ⟨p, hp, hfew, ?_⟩
      unfold Awaits
      rw [salient_concat_forgetTried]
      exact hawaits
    | stop => trivial
  | abandoned => trivial
  | lapsed due hplace hdue hsync =>
    simp only [Counts, lapse, note, hplace, hsync]
    intro hnot
    exact Bool.noConfusion hnot
  | tails => trivial
  | gaveUp => exact rfl
  | again p due hplace hdue hsync hp hknown hfew =>
    obtain ⟨p', hp', -, hawaits⟩ := h.resting hplace hsync
    obtain rfl : p' = p := Option.some.inj (hp'.symm.trans hp)
    exact ⟨rfl, hfew, earned_concat_expired.2 hawaits⟩
  | missed => exact rfl
  | left => trivial
  | told => exact h
  | dismissed => exact h
  | changed => exact h

/-- **Whatever happens, a worker has counted nothing but unanswered sends.** -/
theorem counts_run (hs : 1 ≤ s.maxRetries) (h : v.Counts s) (es : List Event) :
    (v.run s es).Counts s :=
  run_keeps (Counts.leads hs) h es

/-! ### A worker that has counted everything -/

/-- Others do not change the known peers while the worker is about to pick one. -/
def Undisturbed (s : MongerSettings) (v : Shift) : List Event → Prop
  | [] => True
  | e :: es => (v.place = .picking → ∀ peers, e ≠ .others peers) ∧ (v.step s e).Undisturbed s es

/-- **The invariant**: no more unanswered sends to its peer stand right before than a worker has
counted. -/
def Exact (v : Shift) : Prop :=
  match v.place with
  | .outset => True
  | .picking => ∀ p ∈ v.peers, ¬Earned 1 p v.trace
  | .sending p => ¬Earned (v.retries + 1) p v.trace
  | .resting => v.synchronizing = false →
      ∀ p, v.current = some p → ¬Awaits (v.retries + 1) p v.trace
  | .leaving => True
  | .gone => True

theorem exact_start (id : Nat) (rumor : Rumor) (origin : Option PeerAddress) (peers : PeerSet) :
    (start id rumor origin peers).Exact := trivial

theorem Exact.resting (h : v.Exact) (hplace : v.place = .resting)
    (hsync : v.synchronizing = false) (hp : v.current = some p) :
    ¬Awaits (v.retries + 1) p v.trace := by
  simp only [Exact, hplace] at h
  exact h hsync p hp

/-- At the end of a wait only the peer that was waited for has an unanswered send. -/
theorem Counts.not_earned_one (h : v.Counts s) (hplace : v.place = .resting)
    (hsync : v.synchronizing = false) (hq : v.current ≠ some q) :
    ¬Earned 1 q (v.trace ++ [.expired]) := by
  obtain ⟨p, hp, -, hawaits⟩ := h.resting hplace hsync
  rw [earned_concat_expired]
  intro hother
  obtain rfl := hawaits.eq hother
  exact hq hp

theorem Exact.leads (h : v.Exact) (hcounts : v.Counts s) (hleads : v.Leads s v')
    (hpeers : v.place = .picking → v'.peers = v.peers) : v'.Exact := by
  cases hleads with
  | begun hplace =>
    simp only [Counts, hplace] at hcounts
    intro p _
    rw [hcounts.2]
    exact not_earned_succ_nil
  | picked p hplace hknown =>
    simp only [Counts, hplace] at hcounts
    simp only [Exact, hplace] at h
    show ¬Earned (v.retries + 1) p v.trace
    rw [hcounts]
    exact h p hknown
  | exhausted => trivial
  | sent p due hplace =>
    simp only [Counts, hplace] at hcounts
    simp only [Exact, hplace] at h
    intro _ q hq
    obtain rfl : p = q := Option.some.inj (hcounts.1.symm.trans hq)
    exact awaits_concat_sent.not.2 h
  | cutOff => trivial
  | took signal rest hplace hqueue =>
    cases signal with
    | sync =>
      simp only [Exact, hear, note, hplace]
      intro hsync
      exact Bool.noConfusion hsync
    | reset =>
      intro p _
      exact not_earned_succ_concat (by decide) Deed.noConfusion
    | forgetTried =>
      simp only [Exact, hear, note, forget, hplace]
      intro hsync p hp
      unfold Awaits
      rw [salient_concat_forgetTried]
      exact h.resting hplace hsync hp
    | stop => trivial
  | abandoned => trivial
  | lapsed due hplace hdue hsync =>
    simp only [Exact, lapse, note, hplace, hsync]
    intro hnot
    exact Bool.noConfusion hnot
  | tails => trivial
  | gaveUp due hplace hdue hsync =>
    obtain ⟨p, hp, -⟩ := hcounts.resting hplace hsync
    have hremove : v.lapse.count.evict.peers = v.peers.remove p := peers_evict hp
    intro q hq
    show ¬Earned 1 q v.lapse.count.evict.trace
    rcases v.lapse.count.trace_evict with htrace | ⟨r, -, htrace⟩
    · rw [htrace]
      refine hcounts.not_earned_one hplace hsync ?_
      intro hcurrent
      obtain rfl : p = q := Option.some.inj (hp.symm.trans hcurrent)
      exact (PeerSet.mem_remove.1 (hremove ▸ hq)).2 rfl
    · rw [htrace]
      exact not_earned_succ_concat Deed.noConfusion Deed.noConfusion
  | again p due hplace hdue hsync hp =>
    exact earned_concat_expired.not.2 (h.resting hplace hsync hp)
  | missed due hplace hdue hsync hgone =>
    intro q hq
    refine hcounts.not_earned_one hplace hsync ?_
    intro hcurrent
    exact hgone q hcurrent hq
  | left => trivial
  | told => exact h
  | dismissed => exact h
  | changed peers =>
    have hsame : v.place = .picking → peers = v.peers := hpeers
    cases hplace : v.place with
    | picking =>
      rw [hsame hplace]
      exact h
    | sending p => simpa only [Exact, hplace] using h
    | resting => simpa only [Exact, hplace] using h
    | outset | leaving | gone => simp only [Exact, hplace]

/-- **If nobody interferes, a worker has counted all unanswered sends.** -/
theorem exact_run (hs : 1 ≤ s.maxRetries) (hcounts : v.Counts s) (h : v.Exact) {es : List Event}
    (hes : v.Undisturbed s es) : (v.run s es).Exact := by
  induction es generalizing v with
  | nil => exact h
  | cons e es ih =>
    obtain ⟨hothers, hrest⟩ := hes
    refine ih (step_keeps (Counts.leads hs) hcounts e) ?_ hrest
    rcases v.leads_step s e with hsame | hleads
    · rw [hsame]
      exact h
    · refine h.leads hcounts hleads fun hplace => peers_step (hothers hplace) ?_
      rw [hplace]
      exact Place.noConfusion

/-- Who has earned it at the end of a wait: the peer that was waited for, if enough sends were
counted. -/
theorem Counts.earned_iff (hs : 1 ≤ s.maxRetries) (h : v.Counts s) (hexact : v.Exact)
    (hplace : v.place = .resting) (hsync : v.synchronizing = false) (hp : v.current = some p) :
    Earned s.maxRetries q (v.trace ++ [.expired]) ↔ s.maxRetries ≤ v.retries + 1 ∧ q = p := by
  obtain ⟨p', hp', hfew, hawaits⟩ := h.resting hplace hsync
  obtain rfl : p' = p := Option.some.inj (hp'.symm.trans hp)
  have hnot := hexact.resting hplace hsync hp
  obtain ⟨m, hm⟩ := Nat.exists_eq_add_of_le' hs
  rw [hm, earned_concat_expired]
  rw [hm] at hfew
  constructor
  · intro hother
    obtain rfl := hawaits.eq hother
    refine ⟨?_, rfl⟩
    by_contra hmore
    exact hnot (hother.mono (by omega))
  · rintro ⟨hmany, rfl⟩
    obtain rfl : m = v.retries := by omega
    exact hawaits

/-- Whoever is taken out earned it. -/
theorem Counts.earned_of_removed {e : Event} (h : v.Counts s) (hsituated : v.Situated)
    (hothers : ∀ peers, e ≠ .others peers) (hknown : p ∈ v.peers)
    (hgone : p ∉ (v.step s e).peers) :
    (v.step s e).trace = v.trace ++ [.expired, .removed p] ∧
      Earned s.maxRetries p (v.trace ++ [.expired]) := by
  -- only the end of a wait can have taken the peer out
  obtain ⟨hplace, w, rfl⟩ : v.place = .resting ∧ ∃ w, e = .expires w := by
    by_contra hnot
    have hsame : (v.step s e).peers = v.peers :=
      peers_step hothers fun hplace w he => hnot ⟨hplace, w, he⟩
    exact hgone (hsame ▸ hknown)
  obtain ⟨due, hdue⟩ : ∃ due, v.deadline = some due := by
    rw [← Option.ne_none_iff_exists']
    intro hnone
    have hsame : v.step s (.expires w) = v := expire_of_none hnone
    exact hgone (hsame.symm ▸ hknown)
  have hwaits := hsituated.waiting_of_due hplace (Option.isSome_of_eq_some hdue)
  obtain ⟨q, hq, hfew, hawaits⟩ := h.resting hplace hwaits.2.2.1
  obtain ⟨hcoin, hmany, rfl⟩ :=
    (not_mem_peers_expire_iff hplace hdue hwaits.2.2.1 hq hknown).1 hgone
  have hcount : s.maxRetries = v.retries + 1 := Nat.le_antisymm hmany hfew
  refine ⟨trace_expire_of_many hplace hdue hwaits.2.2.1 hcoin hmany hq hknown, ?_⟩
  rw [hcount]
  exact earned_concat_expired.2 hawaits

/-- Whoever has earned it is taken out on heads, if all unanswered sends were counted. -/
theorem Exact.removed_iff (hs : 1 ≤ s.maxRetries) (h : v.Exact) (hcounts : v.Counts s)
    (hsituated : v.Situated) (hplace : v.place = .resting) (hsome : v.deadline.isSome)
    (hknown : p ∈ v.peers) :
    p ∉ (v.expire w s).peers ↔ w.coin = true ∧ Earned s.maxRetries p (v.trace ++ [.expired]) := by
  obtain ⟨-, -, hsync, -⟩ := hsituated.waiting_of_due hplace hsome
  obtain ⟨due, hdue⟩ := Option.isSome_iff_exists.1 hsome
  obtain ⟨q, hq, -⟩ := hcounts.resting hplace hsync
  rw [hcounts.earned_iff hs h hplace hsync hq]
  exact not_mem_peers_expire_iff hplace hdue hsync hq hknown

end Shift
end GossipLedger
