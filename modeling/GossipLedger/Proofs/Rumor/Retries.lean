import GossipLedger.Proofs.Rumor.Earning

/-!
# Which peers a monger gives up

A monger takes a peer out only right after as many sends to this peer as the settings say, each of
which stayed unanswered, and it always does so then, unless the coin ends it.  Left alone it goes
through all peers but the one that the rumor came from, takes out each, and stops.

A worker that is left alone has gone through some of these peers at any time, and is at work on the
next one.  Whatever happens to it then either does nothing or brings it nearer to its end by exactly
one step, so that it gets there after as many steps as can be told beforehand.

## Main definitions

* `Shift.Event.Alone` — what happens to a worker that is left alone.
* `Shift.course` — what a worker does that goes through peers and takes out each.
* `Shift.OnCourse` — the invariant of a worker that is left alone.
* `Shift.toGo` — how many times something still happens to it.

## Main results

* `Shift.OnCourse.step` — every step of a worker that is left alone brings it nearer to its end.
* `Shift.OnCourse.exists_step_ne` — there is a step until its end is reported.
* `Shift.removed_iff_earned` — **a monger takes out exactly the peers that earned it.**
-/

namespace GossipLedger

variable {p q : PeerAddress} {s : MongerSettings} {w : Moment} {n : Nat}

namespace Shift

variable {v v' : Shift}

/-! ### A worker that is left alone -/

/-- What happens to a worker that nobody tells anything, that meets heads and a transport with room,
and whose peers are left as they are. -/
def Event.Alone : Event → Prop
  | .begins => True
  | .picks _ => True
  | .sends w => w.online = true
  | .takes => True
  | .expires w => w.coin = true
  | .leaves => True
  | .told _ => False
  | .dismissed => False
  | .others _ => False

/-- What a worker does that goes through peers and takes out each. -/
def course (n : Nat) (order : List PeerAddress) : List Deed :=
  order.flatMap fun p => unanswered n p ++ [.removed p]

theorem course_concat (n : Nat) (order : List PeerAddress) (p : PeerAddress) :
    course n (order ++ [p]) = course n order ++ unanswered n p ++ [.removed p] := by
  unfold course
  rw [List.flatMap_append, List.flatMap_singleton, List.append_assoc]

/-- The peers that a worker may send to. -/
def candidates (v : Shift) : List PeerAddress := v.peers.toList.filter (· ∉ v.origin.toList)

theorem mem_candidates : q ∈ v.candidates ↔ q ∈ v.peers ∧ v.origin ≠ some q := by
  unfold candidates
  rw [List.mem_filter, decide_eq_true_eq, Option.mem_toList]
  rfl

/-- When a candidate is taken out, one less is left. -/
theorem length_candidates_of_remove (hp : p ∈ v.candidates) (hpeers : v'.peers = v.peers.remove p)
    (horigin : v'.origin = v.origin) : v'.candidates.length + 1 = v.candidates.length := by
  have herase : v'.candidates = v.candidates.erase p := by
    have hnodup : v.candidates.Nodup := v.peers.nodup.filter _
    unfold candidates at hnodup ⊢
    rw [hnodup.erase_eq_filter, hpeers, horigin, List.filter_filter]
    show (v.peers.toList.filter _).filter _ = _
    rw [List.filter_filter]
    refine List.filter_congr fun q _ => ?_
    by_cases hq : q = p <;> simp [hq]
  rw [herase, List.length_erase_of_mem hp]
  exact Nat.sub_add_cancel (List.length_pos_of_mem hp)

/-- How far a worker is that has gone through some peers and now turns to the next one. -/
def Stage (s : MongerSettings) (v : Shift) (done : List PeerAddress) : Prop :=
  match v.place with
  | .outset => v.tried = v.origin.toList ∧ v.retries = 0 ∧ v.trace = course s.maxRetries done
  | .picking => v.tried = v.origin.toList ∧ v.retries = 0 ∧ v.trace = course s.maxRetries done
  | .sending p => v.current = some p ∧ p ∈ v.candidates ∧ v.retries < s.maxRetries ∧
      v.trace = course s.maxRetries done ++ unanswered v.retries p
  | .resting => v.deadline.isSome ∧ ∃ p, v.current = some p ∧ p ∈ v.candidates ∧
      v.retries < s.maxRetries ∧
        v.trace = course s.maxRetries done ++ unanswered v.retries p ++ [.sent p]
  | .leaving => v.candidates = [] ∧ v.trace = course s.maxRetries done
  | .gone => v.candidates = [] ∧ v.trace = course s.maxRetries done

/-- **The invariant**: a worker that is left alone has gone through some of the peers, has taken out
each of them, and no other one. -/
structure OnCourse (s : MongerSettings) (origin : Option PeerAddress) (peers : PeerSet)
    (v : Shift) (done : List PeerAddress) : Prop where
  queue : v.queue = []
  dismissed : v.dismissed = false
  awake : v.synchronizing = false
  source : v.origin = origin
  nodup : done.Nodup
  known : ∀ q ∈ done, q ∈ peers ∧ origin ≠ some q
  peers : ∀ q, q ∈ v.peers ↔ q ∈ peers ∧ q ∉ done
  stage : v.Stage s done

/-- How many times something still happens to a worker that is left alone. -/
def toGo (s : MongerSettings) (v : Shift) : Nat :=
  let left := v.candidates.length * (2 * s.maxRetries + 1)
  match v.place with
  | .outset => left + 3
  | .picking => left + 2
  | .sending _ => left + 1 - 2 * v.retries
  | .resting => left - 2 * v.retries
  | .leaving => 1
  | .gone => 0

/-- A worker that is left alone has come nearer to its end by one step, or did nothing. -/
def Advances (s : MongerSettings) (origin : Option PeerAddress) (peers : PeerSet)
    (v v' : Shift) : Prop :=
  v' = v ∨ (∃ done, v'.OnCourse s origin peers done) ∧ v'.toGo s + 1 = v.toGo s

section
variable {origin : Option PeerAddress} {peers : PeerSet} {done : List PeerAddress}

theorem onCourse_start (id : Nat) (rumor : Rumor) (origin : Option PeerAddress) (peers : PeerSet) :
    (start id rumor origin peers).OnCourse s origin peers [] where
  queue := rfl
  dismissed := rfl
  awake := rfl
  source := rfl
  nodup := List.nodup_nil
  known _ hq := nomatch hq
  peers _ := ⟨fun hq => ⟨hq, List.not_mem_nil⟩, And.left⟩
  stage := ⟨rfl, rfl, rfl⟩

/-- A worker that only goes on to its next stage stays on course. -/
theorem OnCourse.goes_on (h : v.OnCourse s origin peers done) {v' : Shift}
    (hqueue : v'.queue = v.queue) (hdismissed : v'.dismissed = v.dismissed)
    (hawake : v'.synchronizing = v.synchronizing) (horigin : v'.origin = v.origin)
    (hpeers : v'.peers = v.peers) (hstage : v'.Stage s done) : v'.OnCourse s origin peers done where
  queue := hqueue.trans h.queue
  dismissed := hdismissed.trans h.dismissed
  awake := hawake.trans h.awake
  source := horigin.trans h.source
  nodup := h.nodup
  known := h.known
  peers q := hpeers ▸ h.peers q
  stage := hstage

theorem OnCourse.begin (h : v.OnCourse s origin peers done) :
    v.Advances s origin peers v.begin := by
  unfold Shift.begin
  split
  next hplace =>
    have hstage := h.stage
    simp only [Stage, hplace] at hstage
    refine Or.inr ⟨⟨done, h.goes_on rfl rfl rfl rfl rfl hstage⟩, ?_⟩
    simp only [toGo, hplace]
    rfl
  next => exact Or.inl rfl

/-- A worker turns to a candidate, or is done when there is none. -/
theorem OnCourse.pick (hs : 1 ≤ s.maxRetries) (h : v.OnCourse s origin peers done) (w : Moment) :
    v.Advances s origin peers (v.pick w) := by
  unfold Shift.pick
  split
  next hplace =>
    have hstage := h.stage
    simp only [Stage, hplace] at hstage
    obtain ⟨htried, hzero, htrace⟩ := hstage
    right
    split
    next p hpick =>
      have hmem : p ∈ v.candidates := by
        rw [PeerSet.pick, htried] at hpick
        exact w.picker.mem_of_pick hpick
      refine ⟨⟨done, h.goes_on rfl rfl rfl rfl rfl ⟨rfl, hmem, hzero.trans_lt hs, ?_⟩⟩, ?_⟩
      · show v.trace = _ ++ unanswered v.retries p
        rw [hzero, htrace]
        exact (List.append_nil _).symm
      · simp only [toGo, hplace]
        show _ + 1 - 2 * v.retries + 1 = _
        rw [hzero]
        rfl
    next hnone =>
      have hempty : v.candidates = [] := by
        rw [PeerSet.pick, htried, Picker.pick_eq_none_iff] at hnone
        exact hnone
      refine ⟨⟨done, h.goes_on rfl rfl rfl rfl rfl ⟨hempty, htrace⟩⟩, ?_⟩
      simp only [toGo, hplace, hempty]
      simp [quit]
  next => exact Or.inl rfl

theorem two_mul_lt (hp : p ∈ v.candidates) (hfew : v.retries < s.maxRetries) :
    2 * v.retries < v.candidates.length * (2 * s.maxRetries + 1) := by
  have hpos := Nat.le_mul_of_pos_left (2 * s.maxRetries + 1) (List.length_pos_of_mem hp)
  omega

theorem OnCourse.dispatch (h : v.OnCourse s origin peers done) (hw : w.online = true) :
    v.Advances s origin peers (v.dispatch w s) := by
  unfold Shift.dispatch
  split
  next p hplace =>
    have hstage := h.stage
    simp only [Stage, hplace] at hstage
    obtain ⟨hp, hmem, hfew, htrace⟩ := hstage
    rw [if_pos hw]
    refine Or.inr ⟨⟨done, h.goes_on rfl rfl rfl rfl rfl ⟨rfl, p, hp, hmem, hfew, ?_⟩⟩, ?_⟩
    · exact congrArg (· ++ [Deed.sent p]) htrace
    · have hlt := two_mul_lt hmem hfew
      simp only [toGo, hplace]
      show v.candidates.length * (2 * s.maxRetries + 1) - 2 * v.retries + 1 = _
      omega
  next => exact Or.inl rfl

theorem OnCourse.take (h : v.OnCourse s origin peers done) : v.take = v := by
  unfold Shift.take
  rw [h.queue, h.dismissed]
  split
  next hqueue => exact nomatch hqueue
  next => rfl
  next => rfl

/-- A worker that gives up a peer has gone through this one, too. -/
theorem OnCourse.gives_up (h : v.OnCourse s origin peers done) (hplace : v.place = .resting)
    (hp : v.current = some p) (hmem : p ∈ v.candidates) (hcount : v.retries + 1 = s.maxRetries)
    (htrace : v.trace ++ [.expired] = course s.maxRetries done ++ unanswered s.maxRetries p) :
    let v' := { v.lapse.count.evict.seek with current := none }
    v'.OnCourse s origin peers (done ++ [p]) ∧ v'.toGo s + 1 = v.toGo s := by
  intro v'
  obtain ⟨hknown, hother⟩ := mem_candidates.1 hmem
  obtain ⟨hmember, hnew⟩ := (h.peers p).1 hknown
  have hpeers : v'.peers = v.peers.remove p := peers_evict hp
  have hdeeds : v'.trace = v.trace ++ [.expired, .removed p] := trace_evict_of_mem hp hknown
  refine ⟨⟨h.queue, h.dismissed, h.awake, h.source, ?_, ?_, ?_, rfl, rfl, ?_⟩, ?_⟩
  · refine List.nodup_append.2 ⟨h.nodup, List.nodup_singleton p, ?_⟩
    rintro q hq r hr rfl
    exact hnew (List.mem_singleton.1 hr ▸ hq)
  · intro q hq
    rcases List.mem_append.1 hq with hq | hq
    · exact h.known q hq
    · obtain rfl := List.mem_singleton.1 hq
      exact ⟨hmember, h.source ▸ hother⟩
  · intro q
    rw [hpeers, PeerSet.mem_remove, h.peers, List.mem_append, List.mem_singleton, not_or, and_assoc]
  · rw [hdeeds, course_concat, ← htrace]
    exact List.append_cons _ _ _
  · have hless := length_candidates_of_remove hmem hpeers rfl
    simp only [toGo, hplace]
    show v'.candidates.length * (2 * s.maxRetries + 1) + 2 + 1 = _
    rw [← hless, Nat.add_mul, Nat.one_mul]
    omega

/-- At the end of a wait the peer gets the rumor again, or is taken out. -/
theorem OnCourse.expire (h : v.OnCourse s origin peers done) (hw : w.coin = true) :
    v.Advances s origin peers (v.expire w s) := by
  by_cases hends : v.place = .resting ∧ v.deadline.isSome
  · obtain ⟨hplace, hsome⟩ := hends
    obtain ⟨due, hdue⟩ := Option.isSome_iff_exists.1 hsome
    have hstage := h.stage
    simp only [Stage, hplace] at hstage
    obtain ⟨-, p, hp, hmem, hfew, htrace⟩ := hstage
    have hexpired : v.trace ++ [.expired] =
        course s.maxRetries done ++ unanswered (v.retries + 1) p := by
      rw [htrace, unanswered_succ]
      simp only [List.append_assoc]
    right
    rw [expire_of_heads hplace hdue h.awake hw hp]
    by_cases hmany : s.maxRetries ≤ v.retries + 1
    · have hcount : v.retries + 1 = s.maxRetries := Nat.le_antisymm hfew hmany
      rw [hcount] at hexpired
      obtain ⟨hnext, hless⟩ := h.gives_up hplace hp hmem hcount hexpired
      rw [if_pos hmany]
      exact ⟨⟨_, hnext⟩, hless⟩
    · have hknown : p ∈ v.peers := (mem_candidates.1 hmem).1
      rw [if_neg hmany, if_pos hknown]
      refine ⟨⟨done, h.goes_on rfl rfl rfl rfl rfl ⟨rfl, hmem, Nat.lt_of_not_le hmany, ?_⟩⟩, ?_⟩
      · exact hexpired
      · have hlt := two_mul_lt hmem hfew
        simp only [toGo, hplace]
        show v.candidates.length * (2 * s.maxRetries + 1) + 1 - 2 * (v.retries + 1) + 1 = _
        omega
  · left
    unfold Shift.expire
    split
    next hplace hdue => exact absurd ⟨hplace, Option.isSome_of_eq_some hdue⟩ hends
    next => rfl

theorem OnCourse.leave (h : v.OnCourse s origin peers done) :
    v.Advances s origin peers v.leave := by
  unfold Shift.leave
  split
  next hplace =>
    have hstage := h.stage
    simp only [Stage, hplace] at hstage
    refine Or.inr ⟨⟨done, h.goes_on rfl rfl rfl rfl rfl hstage⟩, ?_⟩
    simp only [toGo, hplace]
  next => exact Or.inl rfl

/-- **Every step of a worker that is left alone brings it nearer to its end**, or is none. -/
theorem OnCourse.step (hs : 1 ≤ s.maxRetries) (h : v.OnCourse s origin peers done) {e : Event}
    (he : e.Alone) : v.Advances s origin peers (v.step s e) := by
  cases e with
  | begins => exact h.begin
  | picks w => exact h.pick hs w
  | sends w => exact h.dispatch he
  | takes => exact Or.inl h.take
  | expires w => exact h.expire he
  | leaves => exact h.leave
  | told | dismissed | others => exact he.elim

/-- Something can happen to a worker that is left alone until its end is reported. -/
theorem OnCourse.exists_step_ne (h : v.OnCourse s origin peers done) (hgone : v.place ≠ .gone) :
    ∃ e : Event, e.Alone ∧ v.step s e ≠ v := by
  have hmoves : ∀ v' : Shift, v'.place ≠ v.place → v' ≠ v := fun v' hne heq =>
    hne (congrArg (fun u => u.place) heq)
  let w : Moment := ⟨0, .first, true, true⟩
  have hstage := h.stage
  cases hplace : v.place with
  | outset =>
    refine ⟨.begins, trivial, hmoves _ ?_⟩
    show v.begin.place ≠ _
    unfold Shift.begin
    rw [if_pos hplace, hplace]
    exact Place.noConfusion
  | picking =>
    refine ⟨.picks w, trivial, hmoves _ ?_⟩
    show (v.pick w).place ≠ _
    unfold Shift.pick
    rw [hplace]
    dsimp only
    split <;> exact Place.noConfusion
  | sending p =>
    refine ⟨.sends w, rfl, hmoves _ ?_⟩
    show (v.dispatch w s).place ≠ _
    unfold Shift.dispatch
    rw [hplace]
    exact Place.noConfusion
  | resting =>
    simp only [Stage, hplace] at hstage
    obtain ⟨hsome, p, hp, -⟩ := hstage
    obtain ⟨due, hdue⟩ := Option.isSome_iff_exists.1 hsome
    refine ⟨.expires w, rfl, hmoves _ ?_⟩
    show (v.expire w s).place ≠ _
    rw [expire_of_heads hplace hdue h.awake rfl hp, hplace]
    split
    next => exact Place.noConfusion
    next => split <;> exact Place.noConfusion
  | leaving =>
    refine ⟨.leaves, trivial, hmoves _ ?_⟩
    show v.leave.place ≠ _
    unfold Shift.leave
    rw [if_pos hplace, hplace]
    exact Place.noConfusion
  | gone => exact absurd hplace hgone

/-- How many times something happens to a worker that changes it. -/
def changes (s : MongerSettings) (v : Shift) : List Event → Nat
  | [] => 0
  | e :: es => (if v.step s e = v then 0 else 1) + (v.step s e).changes s es

theorem OnCourse.run (hs : 1 ≤ s.maxRetries) (h : v.OnCourse s origin peers done)
    {es : List Event} (hes : ∀ e ∈ es, e.Alone) :
    (∃ done, (v.run s es).OnCourse s origin peers done) ∧
      v.changes s es + (v.run s es).toGo s = v.toGo s := by
  induction es generalizing v done with
  | nil => exact ⟨⟨done, h⟩, Nat.zero_add _⟩
  | cons e es ih =>
    have hrest : ∀ e ∈ es, e.Alone := fun e' he' => hes e' (List.mem_cons_of_mem _ he')
    show (∃ done, ((v.step s e).run s es).OnCourse s origin peers done) ∧
      (if v.step s e = v then 0 else 1) + (v.step s e).changes s es +
        ((v.step s e).run s es).toGo s = v.toGo s
    rcases h.step hs (hes e List.mem_cons_self) with hsame | ⟨⟨done', hnext⟩, hless⟩
    · rw [hsame, if_pos rfl, Nat.zero_add]
      exact ih h hrest
    · have hne : v.step s e ≠ v := by
        intro heq
        rw [heq] at hless
        omega
      obtain ⟨hdone, hsum⟩ := ih hnext hrest
      rw [if_neg hne]
      exact ⟨hdone, by omega⟩

theorem OnCourse.toGo_eq_zero_iff (h : v.OnCourse s origin peers done) :
    v.toGo s = 0 ↔ v.place = .gone := by
  have hstage := h.stage
  cases hplace : v.place with
  | sending p =>
    simp only [Stage, hplace] at hstage
    have hlt := two_mul_lt hstage.2.1 hstage.2.2.1
    simp only [toGo, hplace, reduceCtorEq, iff_false]
    omega
  | resting =>
    simp only [Stage, hplace] at hstage
    obtain ⟨-, p, -, hmem, hfew, -⟩ := hstage
    have hlt := two_mul_lt hmem hfew
    simp only [toGo, hplace, reduceCtorEq, iff_false]
    omega
  | outset | picking | leaving | gone => simp [toGo, hplace]

/-- A worker that was left alone and is done has gone through all peers that it may send to. -/
theorem OnCourse.ended (h : v.OnCourse s origin peers done)
    (hplace : v.place = .leaving ∨ v.place = .gone) :
    (∀ p, p ∈ v.peers ↔ p ∈ peers ∧ origin = some p) ∧
      (∀ p, p ∈ done ↔ p ∈ peers ∧ origin ≠ some p) ∧ v.trace = course s.maxRetries done := by
  obtain ⟨hempty, htrace⟩ : v.candidates = [] ∧ v.trace = course s.maxRetries done := by
    have hstage := h.stage
    rcases hplace with hplace | hplace
    all_goals simpa only [Stage, hplace] using hstage
  have hnone : ∀ p, p ∈ v.peers → origin = some p := by
    intro p hp
    by_contra hother
    exact List.not_mem_nil (hempty ▸ mem_candidates.2 ⟨hp, h.source ▸ hother⟩)
  refine ⟨fun p => ⟨fun hp => ⟨((h.peers p).1 hp).1, hnone p hp⟩, ?_⟩, fun p => ⟨h.known p, ?_⟩,
    htrace⟩
  · rintro ⟨hp, horigin⟩
    refine (h.peers p).2 ⟨hp, ?_⟩
    intro hdone
    exact (h.known p hdone).2 horigin
  · rintro ⟨hp, hother⟩
    by_contra hleft
    exact hother (hnone p ((h.peers p).2 ⟨hp, hleft⟩))

end

/-- **Which peers a monger takes out.**  Whatever it is told, whatever the coin and the picks are,
and whatever others do to the known peers between any two of its steps: a peer that it takes out
earned it by as many sends in a row as the settings say, each without an answer, and is taken out
right after the last one.  A signal counts when it is taken.  If others change the known peers only
while none is about to be picked, at the end of a wait it takes out, on heads, who is known and has
earned it.  Left alone, on heads, it sends so many times in a row to each peer but the one that the
rumor came from and takes out each once; then, after a fixed number of steps and no sooner, it stops
with only that one left. -/
theorem removed_iff_earned (hs : 1 ≤ s.maxRetries) (id : Nat) (rumor : Rumor)
    (origin : Option PeerAddress) (peers : PeerSet) :
    (∀ es e p,
      let v := (start id rumor origin peers).run s es
      (∀ others, e ≠ .others others) → p ∈ v.peers → p ∉ (v.step s e).peers →
        (v.step s e).trace = v.trace ++ [.expired, .removed p] ∧
          Earned s.maxRetries p (v.trace ++ [.expired])) ∧
    (∀ es w p,
      let v := (start id rumor origin peers).run s es
      (start id rumor origin peers).Undisturbed s es → v.place = .resting → v.deadline.isSome →
        p ∈ v.peers → (p ∉ (v.step s (.expires w)).peers ↔
          w.coin = true ∧ Earned s.maxRetries p (v.trace ++ [.expired]))) ∧
    ∀ es : List Event, (∀ e ∈ es, e.Alone) →
      let v := (start id rumor origin peers).run s es
      let others := (peers.toList.filter fun p => origin ≠ some p).length
      let steps := others * (2 * s.maxRetries + 1) + 3
      (v.condition = .stopped → (∀ p, p ∈ v.peers ↔ p ∈ peers ∧ origin = some p) ∧
        ∃ order : List PeerAddress, order.Nodup ∧
          (∀ p, p ∈ order ↔ p ∈ peers ∧ origin ≠ some p) ∧ v.trace = course s.maxRetries order) ∧
      (v.place ≠ .gone → ∃ e : Event, e.Alone ∧ v.step s e ≠ v) ∧
      (start id rumor origin peers).changes s es ≤ steps ∧
      (v.place = .gone ↔ (start id rumor origin peers).changes s es = steps) := by
  have hcounts : ∀ es, ((start id rumor origin peers).run s es).Counts s := fun es =>
    counts_run hs (counts_start id rumor origin peers) es
  have hsituated : ∀ es, ((start id rumor origin peers).run s es).Situated := fun es =>
    situated_run (situated_start id rumor origin peers) es
  refine ⟨?_, ?_, ?_⟩
  · intro es e p v hothers hknown hgone
    exact (hcounts es).earned_of_removed (hsituated es) hothers hknown hgone
  · intro es w p v hes hplace hsome hknown
    have hexact : v.Exact := exact_run hs (counts_start id rumor origin peers)
      (exact_start id rumor origin peers) hes
    exact hexact.removed_iff hs (hcounts es) (hsituated es) hplace hsome hknown
  · intro es hes v others steps
    obtain ⟨⟨done, h⟩, hsum⟩ := (onCourse_start id rumor origin peers).run hs hes
    have hsteps : (start id rumor origin peers).toGo s = steps := by
      have hcandidates : (start id rumor origin peers).candidates =
          peers.toList.filter fun p => origin ≠ some p :=
        List.filter_congr fun p _ => decide_eq_decide.2 (not_congr Option.mem_toList)
      show (start id rumor origin peers).candidates.length * _ + 3 = steps
      rw [hcandidates]
    rw [hsteps] at hsum
    refine ⟨fun hstopped => ?_, h.exists_step_ne, hsum ▸ Nat.le_add_right _ _, ?_⟩
    · obtain ⟨hpeers, hdone, htrace⟩ := h.ended ((hsituated es).ended hstopped)
      exact ⟨hpeers, done, h.nodup, hdone, htrace⟩
    · rw [← h.toGo_eq_zero_iff, ← hsum]
      exact Nat.left_eq_add.symm

/-- A monger that gives up after two sends knows two peers, and its rumor came from one of them. -/
theorem removed_after_two :
    let s : MongerSettings := ⟨1000, 2⟩
    let w : Moment := ⟨0, .first, true, true⟩
    let peer (port : UInt16) : PeerAddress := .v4 ⟨127, 0, 0, 1⟩ port
    let es : List Event := [.begins, .picks w, .sends w, .expires w, .sends w]
    let v := (start 1 ⟨"a", 1, "text"⟩ (some (peer 1)) (.ofList [peer 1, peer 2])).run s es
    let v' := v.run s [.expires w, .picks w, .leaves]
    1 ≤ s.maxRetries ∧ v.trace = [.sent (peer 2), .expired, .sent (peer 2)] ∧
      Earned 2 (peer 2) (v.trace ++ [.expired]) ∧
      (v.step s (.expires w)).trace = v.trace ++ [.expired, .removed (peer 2)] ∧
      peer 2 ∉ (v.step s (.expires w)).peers ∧
      v'.place = .gone ∧ ∀ p, p ∈ v'.peers ↔ p ∈ PeerSet.ofList [peer 1, peer 2] ∧ p = peer 1 := by
  intro s w peer es v v'
  obtain ⟨honly, halways, halone⟩ := removed_iff_earned (s := s) (by decide) 1 ⟨"a", 1, "text"⟩
    (some (peer 1)) (.ofList [peer 1, peer 2])
  have hknown : peer 2 ∈ v.peers := by decide +kernel
  have hes : (start 1 ⟨"a", 1, "text"⟩ (some (peer 1))
      (.ofList [peer 1, peer 2])).Undisturbed s es := by
    simp [es, Undisturbed]
  have hgone : peer 2 ∉ (v.step s (.expires w)).peers :=
    (halways es w (peer 2) hes (by decide +kernel) (by decide +kernel) hknown).2
      ⟨rfl, by decide +kernel⟩
  have hplace : v'.place = .gone := by decide +kernel
  have hall : ∀ e ∈ es ++ [.expires w, .picks w, .leaves], e.Alone := by
    simp [es, w, Event.Alone]
  obtain ⟨htrace, hearned⟩ := honly es (.expires w) (peer 2) (by simp) hknown hgone
  obtain ⟨hends, -⟩ := halone _ hall
  rw [run_append] at hends
  refine ⟨by decide, by decide +kernel, hearned, htrace, hgone, hplace, fun p => ?_⟩
  rw [(hends (by decide +kernel)).1 p, Option.some_inj]
  exact and_congr_right fun _ => eq_comm

/-- A peer that is gone when a wait ends, and back when the next peer is picked, gets a new count:
then it stays, although two sends to it in a row were not answered. -/
example :
    let s : MongerSettings := ⟨1000, 2⟩
    let w : Moment := ⟨0, .first, true, true⟩
    let p : PeerAddress := .v4 ⟨127, 0, 0, 1⟩ 1
    let v := (start 1 ⟨"a", 1, "text"⟩ none (.ofList [p])).run s
      [.begins, .picks w, .sends w, .others (.ofList []), .expires w, .others (.ofList [p]),
        .picks w, .sends w, .expires w]
    v.trace = [.sent p, .expired, .sent p, .expired] ∧ Earned 2 p v.trace ∧ p ∈ v.peers := by
  decide +kernel

end Shift
end GossipLedger
