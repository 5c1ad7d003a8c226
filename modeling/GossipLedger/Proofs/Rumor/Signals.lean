import GossipLedger.Proofs.Rumor.Turns

/-!
# What reaches a monger

What a monger is told goes into a queue, and it takes one signal after the other between its moves.
Nothing that is in the queue gets lost or overtaken.  But there is room for sixteen signals only,
and what finds the queue full is lost.

A full queue does not say that the monger is about to stop.  There is news for it with each rumor
that another brings, and while it waits for room in the transport, or does not get to move, sixteen
pieces of news fill the queue as well.  If it reconciles and it is the end of reconciliation that is
lost then, it reconciles for ever.

## Main definitions

* `Shift.Closing` — a worker is done, or it was told to stop.
* `Shift.Heeds` — whatever is lost in a run is lost to a worker that is closing.
* `Shift.Stuck` — a worker reconciles, and nothing in its queue ends that.

## Main results

* `Shift.Queues.leads` — what went into the queue is what was taken and what is still in it.
* `Shift.heeds_of_few` — the first sixteen signals are not lost to a worker that is not done.
* `Shift.heeds_iff_room` — **nothing is lost to a worker that is not closing exactly if there are
  never sixteen signals before it.**
* `Shift.reset_lost` — **the end of reconciliation gets lost, and the worker reconciles for ever.**
-/

namespace GossipLedger
namespace Shift

variable {s : MongerSettings} {v v' : Shift}

/-! ### The queue -/

/-- What becomes of the queue: it stays as it is, or its oldest signal is taken, or one more goes
in. -/
inductive Passes (v v' : Shift) : Prop
  | idle (hqueue : v'.queue = v.queue) (haccepted : v'.accepted = v.accepted)
      (htaken : taken v'.trace = taken v.trace)
  | took (signal : Signal) (hqueue : v.queue = signal :: v'.queue)
      (haccepted : v'.accepted = v.accepted) (htaken : taken v'.trace = taken v.trace ++ [signal])
  | told (signal : Signal) (hroom : v.queue.length < Task.capacity)
      (hqueue : v'.queue = v.queue ++ [signal]) (haccepted : v'.accepted = v.accepted ++ [signal])
      (htaken : taken v'.trace = taken v.trace)

theorem taken_evict (v : Shift) : taken v.evict.trace = taken v.trace := by
  rcases v.trace_evict with hsame | ⟨p, -, hone⟩ <;> simp [*]

theorem passes_of_leads (hleads : v.Leads s v') : Passes v v' := by
  cases hleads with
  | took signal rest hplace hqueue =>
    refine .took signal hqueue (hear_accepted _ signal) ?_
    show taken ((v.note (.took signal)).hear signal).trace = taken v.trace ++ [signal]
    simp [note]
  | told signal hplace hroom => exact .told signal hroom rfl rfl rfl
  | sent | lapsed | tails | again | missed =>
    refine .idle rfl rfl ?_
    simp [note, lapse, quit, count, forget, turnTo, seek]
  | gaveUp =>
    refine .idle rfl rfl ((taken_evict _).trans ?_)
    simp [note, lapse, count, forget]
  | begun | picked | exhausted | cutOff | abandoned | left | dismissed | changed =>
    exact .idle rfl rfl rfl

/-- The invariant of the queue: what went into it is what was taken and what is still in it. -/
structure Queues (v : Shift) : Prop where
  accepted : v.accepted = taken v.trace ++ v.queue
  room : v.queue.length ≤ Task.capacity

/-- **What went into the queue is what was taken and what is still in it.** -/
theorem Queues.leads (h : v.Queues) (hleads : v.Leads s v') : v'.Queues := by
  obtain ⟨haccepted, hroom⟩ := h
  cases passes_of_leads hleads with
  | idle hqueue haccepted' htaken =>
    refine ⟨?_, by rwa [hqueue]⟩
    rw [haccepted', htaken, hqueue, haccepted]
  | took signal hqueue haccepted' htaken =>
    rw [hqueue, List.length_cons] at hroom
    refine ⟨?_, by omega⟩
    rw [haccepted', htaken, haccepted, hqueue, List.append_cons]
  | told signal hless hqueue haccepted' htaken =>
    refine ⟨?_, ?_⟩
    · rw [haccepted', htaken, hqueue, haccepted, List.append_assoc]
    · rw [hqueue, List.length_append]
      exact hless

/-- Nothing that went into the queue is forgotten. -/
theorem accepted_prefix_of_leads (hleads : v.Leads s v') : v.accepted <+: v'.accepted := by
  cases passes_of_leads hleads with
  | idle _ haccepted => exact haccepted ▸ List.prefix_rfl
  | took _ _ haccepted => exact haccepted ▸ List.prefix_rfl
  | told signal _ _ haccepted =>
    rw [haccepted]
    exact List.prefix_append _ _

theorem accepted_prefix_run (es : List Event) : v.accepted <+: (v.run s es).accepted :=
  run_keeps (P := fun u => v.accepted <+: u.accepted)
    (fun hu hleads => hu.trans (accepted_prefix_of_leads hleads)) List.prefix_rfl es

/-- A signal is lost exactly if the queue is closed, or sixteen signals are before it. -/
theorem Queues.signal?_eq_none_iff (h : v.Queues) (signal : Signal) : v.signal? signal = none ↔
    v.place = .gone ∨ v.accepted.length = (taken v.trace).length + Task.capacity := by
  have hlength : v.accepted.length = (taken v.trace).length + v.queue.length := by
    rw [h.accepted, List.length_append]
  have hroom := h.room
  unfold signal?
  simp only [ite_eq_right_iff, reduceCtorEq, imp_false, not_and_or, not_not]
  rw [hlength]
  refine or_congr_right ?_
  omega

/-! ### What is lost -/

/-- A worker is done, or it was told to stop. -/
def Closing (v : Shift) : Prop := v.condition = .stopped ∨ .stop ∈ v.queue

/-- Whatever is lost in a run is lost to a worker that is closing. -/
def Heeds (s : MongerSettings) (v : Shift) (es : List Event) : Prop :=
  ∀ before signal after, es = before ++ .told signal :: after →
    (v.run s before).signal? signal = none → (v.run s before).Closing

/-- Somebody tells something. -/
def Event.tells : Event → Bool
  | .told _ => true
  | _ => false

/-- Only what a worker is told goes into its queue. -/
theorem accepted_step_of_not_tells (s : MongerSettings) (v : Shift) {e : Event}
    (he : e.tells = false) : (v.step s e).accepted = v.accepted := by
  cases e with
  | told signal => exact nomatch he
  | takes =>
    simp only [step, take]
    split
    next => simp [note]
    next => split <;> rfl
    next => rfl
  | begins | picks | sends | expires | leaves | dismissed | others =>
    simp only [step, begin, pick, dispatch, expire, retry, leave]
    repeat' split
    all_goals rfl

theorem length_accepted_step (s : MongerSettings) (v : Shift) (e : Event) :
    (v.step s e).accepted.length ≤ v.accepted.length + if e.tells then 1 else 0 := by
  cases he : e.tells with
  | false =>
    rw [accepted_step_of_not_tells s v he]
    exact le_rfl
  | true =>
    rcases v.leads_step s e with hsame | hleads
    · rw [hsame]
      exact Nat.le_add_right _ _
    · cases passes_of_leads hleads with
      | idle _ haccepted => simp [haccepted]
      | took _ _ haccepted => simp [haccepted]
      | told _ _ _ haccepted => simp [haccepted]

/-- No more goes into the queue than a worker is told. -/
theorem length_accepted_run (s : MongerSettings) (v : Shift) (es : List Event) :
    (v.run s es).accepted.length ≤ v.accepted.length + es.countP Event.tells := by
  induction es generalizing v with
  | nil => simp [run]
  | cons e es ih =>
    have hstep := v.length_accepted_step s e
    have hrest := ih (v.step s e)
    rw [List.countP_cons]
    refine hrest.trans ?_
    omega

variable {id : Nat} {rumor : Rumor} {origin : Option PeerAddress} {peers : PeerSet}

theorem queues_start : (start id rumor origin peers).Queues := ⟨rfl, Nat.zero_le _⟩

theorem queues_run (es : List Event) : ((start id rumor origin peers).run s es).Queues :=
  run_keeps Queues.leads queues_start es

/-- A worker whose queue is closed is done. -/
theorem closing_of_gone (h : v.Situated) (hplace : v.place = .gone) : v.Closing := by
  simp only [Situated, hplace] at h
  exact Or.inl h.1

/-- A run is heeded exactly if there is room whenever a worker that is not closing is told
something. -/
theorem heeds_iff (es : List Event) : (start id rumor origin peers).Heeds s es ↔
    ∀ before signal after, es = before ++ .told signal :: after →
      let v := (start id rumor origin peers).run s before
      v.Closing ∨ v.accepted.length < (taken v.trace).length + Task.capacity := by
  constructor
  · intro h before signal after hes v
    by_cases hless : v.accepted.length < (taken v.trace).length + Task.capacity
    · exact Or.inr hless
    · -- there are sixteen signals between what was taken and what went in, so this one is lost
      left
      have hqueues : v.Queues := queues_run before
      have hlength : v.accepted.length = (taken v.trace).length + v.queue.length := by
        rw [hqueues.accepted, List.length_append]
      have hroom := hqueues.room
      apply h before signal after hes
      rw [hqueues.signal?_eq_none_iff]
      right
      omega
  · intro h before signal after hes hlost
    have hqueues : ((start id rumor origin peers).run s before).Queues := queues_run before
    rcases h before signal after hes with hcloses | hless
    · exact hcloses
    · rcases (hqueues.signal?_eq_none_iff signal).1 hlost with hplace | hfull
      · exact closing_of_gone (situated_run (situated_start id rumor origin peers) before) hplace
      · omega

/-- **The first sixteen signals are not lost to a worker that is not done.** -/
theorem heeds_of_few {es : List Event} (hfew : es.countP Event.tells ≤ Task.capacity) :
    (start id rumor origin peers).Heeds s es := by
  rw [heeds_iff]
  intro before signal after hes v
  right
  have hlength : v.accepted.length ≤ 0 + before.countP Event.tells :=
    length_accepted_run s (start id rumor origin peers) before
  have hone : before.countP Event.tells < es.countP Event.tells := by
    rw [hes, List.countP_append, List.countP_cons]
    simp only [Event.tells, if_true]
    omega
  omega

/-- **What reaches a monger.**  In every run of a worker with whatever others do meanwhile: nothing
is lost to a worker that is not closing exactly if, whenever it is told something, there are fewer
than sixteen signals that it has not taken; so it is if it is told no more than sixteen things.  All
that went into the queue by now is later on taken or still there, in this order, and a worker that
is between two moves takes the oldest signal. -/
theorem heeds_iff_room (s : MongerSettings) (id : Nat) (rumor : Rumor)
    (origin : Option PeerAddress) (peers : PeerSet) (es : List Event) :
    ((start id rumor origin peers).Heeds s es ↔
      ∀ before signal after, es = before ++ .told signal :: after →
        let v := (start id rumor origin peers).run s before
        v.Closing ∨ v.accepted.length < (taken v.trace).length + Task.capacity) ∧
    (es.countP Event.tells ≤ Task.capacity → (start id rumor origin peers).Heeds s es) ∧
    let v := (start id rumor origin peers).run s es
    (∀ later, v.accepted <+: taken (v.run s later).trace ++ (v.run s later).queue) ∧
      ∀ signal rest, v.place = .resting → v.queue = signal :: rest →
        taken (v.step s .takes).trace = taken v.trace ++ [signal] := by
  refine ⟨heeds_iff es, heeds_of_few, ?_, ?_⟩
  · intro later
    have hqueues : (((start id rumor origin peers).run s es).run s later).Queues :=
      run_keeps Queues.leads (queues_run es) later
    rw [← hqueues.accepted]
    exact accepted_prefix_run later
  · intro signal rest hplace hqueue
    have htrace : ((start id rumor origin peers).run s es).take.trace =
        ((start id rumor origin peers).run s es).trace ++ [.took signal] := by
      unfold take
      rw [hplace, hqueue]
      exact hear_trace _ signal
    show taken ((start id rumor origin peers).run s es).take.trace = _
    simp [htrace]

/-! ### What is stuck -/

/-- What ends a reconciliation. -/
def Event.rouses : Event → Bool
  | .told .reset => true
  | .told .stop => true
  | .dismissed => true
  | _ => false

/-- A worker reconciles, and nothing in its queue ends that. -/
structure Stuck (v : Shift) : Prop where
  place : v.place = .resting
  syncs : v.In .synchronizing
  held : v.dismissed = false
  queue : ∀ signal ∈ v.queue, signal = .sync ∨ signal = .forgetTried

/-- **A worker that is stuck stays stuck, and sends nothing.** -/
theorem Stuck.step (h : v.Stuck) {e : Event} (he : e.rouses = false) :
    (v.step s e).Stuck ∧ sentTo (v.step s e).trace = sentTo v.trace := by
  obtain ⟨hplace, ⟨hcondition, hdue, hsync⟩, hheld, hqueue⟩ := h
  have hself : v.Stuck := ⟨hplace, ⟨hcondition, hdue, hsync⟩, hheld, hqueue⟩
  cases e with
  | begins => simpa [Shift.step, begin, hplace] using hself
  | picks w => simpa [Shift.step, pick, hplace] using hself
  | sends w => simpa [Shift.step, dispatch, hplace] using hself
  | expires w => simpa [Shift.step, expire, hplace, hdue] using hself
  | leaves => simpa [Shift.step, leave, hplace] using hself
  | takes =>
    cases hfirst : v.queue with
    | nil => simpa [Shift.step, take, hplace, hfirst, hheld] using hself
    | cons signal rest =>
      have hrest : ∀ other ∈ rest, other = .sync ∨ other = .forgetTried := fun other hother =>
        hqueue other (by simp [hfirst, hother])
      -- neither news nor the beginning of a reconciliation ends one
      rcases hqueue signal (by simp [hfirst]) with rfl | rfl
      · simp only [Shift.step, take, hplace, hfirst]
        exact ⟨⟨hplace, ⟨rfl, rfl, rfl⟩, hheld, hrest⟩, by simp [hear, note]⟩
      · simp only [Shift.step, take, hplace, hfirst]
        exact ⟨⟨hplace, ⟨hcondition, hdue, hsync⟩, hheld, hrest⟩, by simp [hear, note, forget]⟩
  | told signal =>
    have hnews : signal = .sync ∨ signal = .forgetTried := by
      cases signal with
      | sync => exact Or.inl rfl
      | forgetTried => exact Or.inr rfl
      | reset => cases he
      | stop => cases he
    show ((v.signal? signal).getD v).Stuck ∧ sentTo ((v.signal? signal).getD v).trace = _
    unfold signal?
    split
    next =>
      refine ⟨⟨hplace, ⟨hcondition, hdue, hsync⟩, hheld, fun other hother => ?_⟩, rfl⟩
      rcases List.mem_append.1 hother with hother | hother
      · exact hqueue other hother
      · rwa [List.mem_singleton.1 hother]
    next => exact ⟨hself, rfl⟩
  | dismissed => cases he
  | others peers => exact ⟨⟨hplace, ⟨hcondition, hdue, hsync⟩, hheld, hqueue⟩, rfl⟩

theorem Stuck.run (h : v.Stuck) {es : List Event} (hes : ∀ e ∈ es, e.rouses = false) :
    (v.run s es).Stuck ∧ sentTo (v.run s es).trace = sentTo v.trace := by
  induction es generalizing v with
  | nil => exact ⟨h, rfl⟩
  | cons e es ih =>
    obtain ⟨hstep, hnone⟩ := h.step (s := s) (hes e List.mem_cons_self)
    have hrest : ∀ other ∈ es, other.rouses = false := fun other hother =>
      hes other (List.mem_cons_of_mem e hother)
    obtain ⟨hlast, hnothing⟩ := ih hstep hrest
    exact ⟨hlast, hnothing.trans hnone⟩

/-- What it is told in vain makes no difference. -/
theorem Stuck.run_lost (h : v.Stuck) {signal : Signal} (hlost : v.signal? signal = none)
    {later : List Event} (hlater : ∀ e ∈ later, e.rouses = false) :
    (v.run s (.told signal :: later)).place = .resting ∧
      (v.run s (.told signal :: later)).condition = .synchronizing ∧
      sentTo (v.run s (.told signal :: later)).trace = sentTo v.trace := by
  have hsame : v.run s (.told signal :: later) = v.run s later := by
    show ((v.signal? signal).getD v).run s later = v.run s later
    rw [hlost, Option.getD_none]
  obtain ⟨hlast, hnone⟩ := h.run (s := s) hlater
  rw [hsame]
  exact ⟨hlast.place, hlast.syncs.1, hnone⟩

/-- **The end of reconciliation gets lost, and the worker reconciles for ever.**  A worker has sent
to the only known peer and reconciles with it.  It is told sixteen pieces of news before it moves,
and then of the end.  Unless it is told of another end, or to stop, or left by all, it never does
anything else. -/
theorem reset_lost :
    let s : MongerSettings := ⟨1000, 3⟩
    let w : Moment := ⟨0, .first, true, true⟩
    let p : PeerAddress := .v4 ⟨127, 0, 0, 1⟩ 5001
    let v₀ := start 1 ⟨"a", 1, "text"⟩ none (.ofList [p])
    let before := [.begins, .picks w, .sends w, .told .sync, .takes] ++
      List.replicate 16 (.told .forgetTried)
    let v := v₀.run s before
    ¬ v₀.Heeds s (before ++ [.told .reset]) ∧ v.signal? .reset = none ∧
      v.watch.task.signal? .reset = none ∧
      ∀ later, (∀ e ∈ later, e.rouses = false) →
        let v' := v.run s (.told .reset :: later)
        v'.place = .resting ∧ v'.condition = .synchronizing ∧ sentTo v'.trace = [p] := by
  intro s w p v₀ before v
  have hlost : v.signal? .reset = none := by decide +kernel
  have hlives : v.condition = .synchronizing := by decide +kernel
  have hopen : ¬ v.Closing := not_or.2 ⟨by decide +kernel, by decide +kernel⟩
  have hstuck : v.Stuck := by
    constructor
    · decide +kernel
    · exact ⟨hlives, by decide +kernel, by decide +kernel⟩
    · decide +kernel
    · decide +kernel
  refine ⟨fun hheeds => ?_, hlost, by decide +kernel, fun later hlater => ?_⟩
  · exact hopen (hheeds before .reset [] rfl hlost)
  · have hsent : sentTo v.trace = [p] := by decide +kernel
    obtain ⟨hplace, hcondition, hnone⟩ := hstuck.run_lost (s := s) hlost hlater
    exact ⟨hplace, hcondition, hnone.trans hsent⟩

end Shift
end GossipLedger
