import GossipLedger.Proofs.Rumor.Watch

/-!
# A monger step by step

A monger that is watched makes each move at once.  At work it can be held up in the middle of one.
Between two moves it waits for a signal or for the end of a wait.  A move may make it look for a
peer, and others may change the known peers before it does.  The rumor may then have to wait for
room in the transport, and others may tell it something before there is any.

Here a monger is taken apart into these steps, with everything that it keeps while it works: what it
takes itself to be doing, whether it reconciles, when its wait ends, whom it talks to, whom it does
not pick and how many sends it has counted.  Nothing ties these to each other but what the steps
do.

## Main definitions

* `Worker` — a monger with all that it keeps, and how far it is in a move.
* `Shift` — a worker with its queue, the known peers and its history.
* `Shift.Event`, `Shift.step`, `Shift.run` — the steps of the worker, and what others do meanwhile.
* `Shift.Leads` — all that a step can do.
* `Shift.Situated` — the invariant: what a worker keeps fits to how far it is.

## Main results

* `Shift.leads_step` — a step does one of the things that it can do, or nothing.
* `Shift.situated_run` — the invariant holds always.
-/

namespace GossipLedger

/-- What a worker takes itself to be doing. -/
inductive Condition
  | idle
  /-- It looks for a peer. -/
  | mongering
  /-- It waits for an answer. -/
  | waiting
  /-- It waits for the end of reconciliation. -/
  | synchronizing
  | stopped
  deriving DecidableEq, Repr

/-- How far a worker is in a move. -/
inductive Place
  /-- It has not begun. -/
  | outset
  /-- It is about to pick a peer. -/
  | picking
  /-- The rumor for a peer waits for room in the transport. -/
  | sending (p : PeerAddress)
  /-- It is between two moves. -/
  | resting
  /-- It is done, but its queue is still open. -/
  | leaving
  /-- Its queue is closed, and its end is reported. -/
  | gone
  deriving DecidableEq

/-- A monger with all that it keeps while it works. -/
structure Worker where
  id : Nat
  rumor : Rumor
  /-- The peer the rumor came from. -/
  origin : Option PeerAddress
  /-- The peers that are not picked. -/
  tried : List PeerAddress
  /-- The peer sent to last. -/
  current : Option PeerAddress
  /-- The sends in a row without an answer. -/
  retries : Nat
  /-- Whether the ends of waits are to be passed over. -/
  synchronizing : Bool
  condition : Condition
  /-- The end of the wait. -/
  deadline : Option Nat
  place : Place
  deriving DecidableEq

/-- A worker with its queue, the known peers and its history. -/
structure Shift extends Worker where
  /-- The signals that it has not taken yet, oldest first. -/
  queue : List Signal
  /-- Whether nobody can tell it anything any more. -/
  dismissed : Bool
  peers : PeerSet
  /-- All its deeds, oldest first. -/
  trace : List Deed
  /-- All signals that went into its queue, oldest first. -/
  accepted : List Signal
  /-- How often its end was reported. -/
  reports : Nat
  deriving DecidableEq

/-- The peers that the rumor was sent to, oldest first. -/
def sentTo (trace : List Deed) : List PeerAddress :=
  trace.filterMap fun
    | .sent p => some p
    | _ => none

/-- The signals that were taken, oldest first. -/
def taken (trace : List Deed) : List Signal :=
  trace.filterMap fun
    | .took signal => some signal
    | _ => none

@[simp] theorem sentTo_nil : sentTo [] = [] := rfl

@[simp] theorem sentTo_append (before after : List Deed) :
    sentTo (before ++ after) = sentTo before ++ sentTo after := List.filterMap_append

@[simp] theorem sentTo_sent (p : PeerAddress) : sentTo [.sent p] = [p] := rfl

@[simp] theorem sentTo_expired : sentTo [.expired] = [] := rfl

@[simp] theorem sentTo_took (signal : Signal) : sentTo [.took signal] = [] := rfl

@[simp] theorem sentTo_removed (p : PeerAddress) : sentTo [.removed p] = [] := rfl

@[simp] theorem taken_nil : taken [] = [] := rfl

@[simp] theorem taken_append (before after : List Deed) :
    taken (before ++ after) = taken before ++ taken after := List.filterMap_append

@[simp] theorem taken_sent (p : PeerAddress) : taken [.sent p] = [] := rfl

@[simp] theorem taken_expired : taken [.expired] = [] := rfl

@[simp] theorem taken_took (signal : Signal) : taken [.took signal] = [signal] := rfl

@[simp] theorem taken_removed (p : PeerAddress) : taken [.removed p] = [] := rfl

namespace Shift

/-! ### Steps -/

/-- What may happen. -/
inductive Event
  /-- The worker begins. -/
  | begins
  /-- It picks a peer, if it is about to. -/
  | picks (w : Moment)
  /-- There is room for its rumor, or the transport is gone. -/
  | sends (w : Moment)
  /-- It takes the oldest signal, if it is between two moves. -/
  | takes
  /-- Its wait ends. -/
  | expires (w : Moment)
  /-- Its queue is closed and its end reported, if it is done. -/
  | leaves
  /-- It is told something. -/
  | told (signal : Signal)
  /-- Nobody can tell it anything any more. -/
  | dismissed
  /-- Others change the known peers. -/
  | others (peers : PeerSet)

/-- A worker that has not begun. -/
def start (id : Nat) (rumor : Rumor) (origin : Option PeerAddress) (peers : PeerSet) : Shift where
  id := id
  rumor := rumor
  origin := origin
  tried := origin.toList
  current := none
  retries := 0
  synchronizing := false
  condition := .idle
  deadline := none
  place := .outset
  queue := []
  dismissed := false
  peers := peers
  trace := []
  accepted := []
  reports := 0

/-- One more deed. -/
def note (v : Shift) (d : Deed) : Shift := { v with trace := v.trace ++ [d] }

/-- The worker is done. -/
def quit (v : Shift) : Shift :=
  { v with condition := .stopped, deadline := none, place := .leaving }

/-- Only the origin of the rumor counts as tried. -/
def forget (v : Shift) : Shift := { v with tried := v.origin.toList }

/-- The worker turns to a peer. -/
def turnTo (v : Shift) (p : PeerAddress) : Shift :=
  { v with tried := p :: v.tried, current := some p, place := .sending p }

/-- The worker is about to pick a peer that it has not sent to. -/
def seek (v : Shift) : Shift := { v with retries := 0, place := .picking }

/-- The peer sent to last is taken out of the known ones, if it is one of them. -/
def evict (v : Shift) : Shift :=
  { v with
    peers := match v.current with
      | some p => v.peers.remove p
      | none => v.peers
    trace := v.trace ++ match v.current with
      | some p => if p ∈ v.peers then [.removed p] else []
      | none => [] }

/-- The wait ends. -/
def lapse (v : Shift) : Shift := { v.note .expired with deadline := none }

/-- One more send was not answered.  Peers tried before may be picked again. -/
def count (v : Shift) : Shift := { v.forget with retries := v.retries + 1 }

/-- What a worker does first when it is told something. -/
def hear (v : Shift) : Signal → Shift
  | .sync =>
      { v with synchronizing := true, retries := 0, deadline := none, condition := .synchronizing }
  | .reset => { v.seek with synchronizing := false, condition := .mongering }
  | .forgetTried => v.forget
  | .stop => v.quit

@[simp] theorem hear_origin (v : Shift) (signal : Signal) :
    (v.hear signal).origin = v.origin := by
  cases signal <;> rfl

@[simp] theorem hear_trace (v : Shift) (signal : Signal) : (v.hear signal).trace = v.trace := by
  cases signal <;> rfl

@[simp] theorem hear_accepted (v : Shift) (signal : Signal) :
    (v.hear signal).accepted = v.accepted := by
  cases signal <;> rfl

def begin (v : Shift) : Shift :=
  if v.place = .outset then { v with condition := .mongering, place := .picking } else v

def pick (w : Moment) (v : Shift) : Shift :=
  match v.place with
  | .picking =>
      match v.peers.pick w.picker v.tried with
      | some p => v.turnTo p
      | none => v.quit
  | _ => v

def dispatch (w : Moment) (s : MongerSettings) (v : Shift) : Shift :=
  match v.place with
  | .sending p =>
      if w.online then
        { v.note (.sent p) with
          deadline := some (w.now + s.timeout), condition := .waiting, place := .resting }
      else v.quit
  | _ => v

/-- A worker that nobody can tell anything any more is done when its queue is empty. -/
def take (v : Shift) : Shift :=
  match v.place, v.queue with
  | .resting, signal :: rest => { (v.note (.took signal)).hear signal with queue := rest }
  | .resting, [] => if v.dismissed then v.quit else v
  | _, _ => v

/-- A wait ends in vain: the coin may end the work, the peer may be given up or gets the rumor
again if it is still known. -/
def retry (w : Moment) (s : MongerSettings) (v : Shift) : Shift :=
  if !w.coin then v.quit
  else if s.maxRetries ≤ v.count.retries then { v.count.evict.seek with current := none }
  else
    match v.current with
    | some p => if p ∈ v.peers then v.count.turnTo p else v.count.seek
    | none => v.count.seek

def expire (w : Moment) (s : MongerSettings) (v : Shift) : Shift :=
  match v.place, v.deadline with
  | .resting, some _ => if v.synchronizing then v.lapse else v.lapse.retry w s
  | _, _ => v

def leave (v : Shift) : Shift :=
  if v.place = .leaving then { v with place := .gone, reports := v.reports + 1 } else v

/-- The worker with a signal put into its queue; nothing if the signal is lost. -/
def signal? (v : Shift) (signal : Signal) : Option Shift :=
  if v.place ≠ .gone ∧ v.queue.length < Task.capacity then
    some { v with queue := v.queue ++ [signal], accepted := v.accepted ++ [signal] }
  else none

/-- Something happens. -/
def step (s : MongerSettings) (v : Shift) : Event → Shift
  | .begins => v.begin
  | .picks w => v.pick w
  | .sends w => v.dispatch w s
  | .takes => v.take
  | .expires w => v.expire w s
  | .leaves => v.leave
  | .told signal => (v.signal? signal).getD v
  | .dismissed => { v with dismissed := true }
  | .others peers => { v with peers := peers }

/-- Several things happen, one after the other. -/
def run (s : MongerSettings) (v : Shift) (es : List Event) : Shift := es.foldl (step s) v

variable {s : MongerSettings} {v v' : Shift} {w : Moment} {p : PeerAddress}

theorem run_append (s : MongerSettings) (v : Shift) (es es' : List Event) :
    v.run s (es ++ es') = (v.run s es).run s es' := List.foldl_append

@[simp] theorem run_concat (s : MongerSettings) (v : Shift) (es : List Event) (e : Event) :
    v.run s (es ++ [e]) = (v.run s es).step s e := by
  simp [run]

/-- A peer is taken out only if the worker talked to it. -/
theorem trace_evict (v : Shift) : v.evict.trace = v.trace ∨
    ∃ p, v.current = some p ∧ v.evict.trace = v.trace ++ [.removed p] := by
  unfold evict
  cases hp : v.current with
  | none => exact Or.inl (List.append_nil _)
  | some p =>
    by_cases hknown : p ∈ v.peers
    · exact Or.inr ⟨p, rfl, by simp [hknown]⟩
    · exact Or.inl (by simp [hknown])

/-! ### What a step can do -/

/-- **All that a step can do.** -/
inductive Leads (s : MongerSettings) (v : Shift) : Shift → Prop
  | begun (hplace : v.place = .outset) :
      Leads s v { v with condition := .mongering, place := .picking }
  | picked (p : PeerAddress) (hplace : v.place = .picking) (hknown : p ∈ v.peers)
      (hnew : p ∉ v.tried) : Leads s v (v.turnTo p)
  | exhausted (hplace : v.place = .picking) (hall : ∀ p ∈ v.peers, p ∈ v.tried) : Leads s v v.quit
  | sent (p : PeerAddress) (due : Nat) (hplace : v.place = .sending p) :
      Leads s v { v.note (.sent p) with
        deadline := some due, condition := .waiting, place := .resting }
  | cutOff (p : PeerAddress) (hplace : v.place = .sending p) : Leads s v v.quit
  | took (signal : Signal) (rest : List Signal) (hplace : v.place = .resting)
      (hqueue : v.queue = signal :: rest) :
      Leads s v { (v.note (.took signal)).hear signal with queue := rest }
  | abandoned (hplace : v.place = .resting) (hqueue : v.queue = [])
      (hdismissed : v.dismissed = true) : Leads s v v.quit
  | lapsed (due : Nat) (hplace : v.place = .resting) (hdue : v.deadline = some due)
      (hsync : v.synchronizing = true) : Leads s v v.lapse
  | tails (due : Nat) (hplace : v.place = .resting) (hdue : v.deadline = some due)
      (hsync : v.synchronizing = false) : Leads s v v.lapse.quit
  | gaveUp (due : Nat) (hplace : v.place = .resting) (hdue : v.deadline = some due)
      (hsync : v.synchronizing = false) (hmany : s.maxRetries ≤ v.retries + 1) :
      Leads s v { v.lapse.count.evict.seek with current := none }
  | again (p : PeerAddress) (due : Nat) (hplace : v.place = .resting)
      (hdue : v.deadline = some due) (hsync : v.synchronizing = false) (hp : v.current = some p)
      (hknown : p ∈ v.peers) (hfew : v.retries + 1 < s.maxRetries) :
      Leads s v (v.lapse.count.turnTo p)
  | missed (due : Nat) (hplace : v.place = .resting) (hdue : v.deadline = some due)
      (hsync : v.synchronizing = false) (hgone : ∀ p, v.current = some p → p ∉ v.peers) :
      Leads s v v.lapse.count.seek
  | left (hplace : v.place = .leaving) :
      Leads s v { v with place := .gone, reports := v.reports + 1 }
  | told (signal : Signal) (hplace : v.place ≠ .gone) (hroom : v.queue.length < Task.capacity) :
      Leads s v { v with queue := v.queue ++ [signal], accepted := v.accepted ++ [signal] }
  | dismissed : Leads s v { v with dismissed := true }
  | changed (peers : PeerSet) : Leads s v { v with peers := peers }

theorem leads_pick (w : Moment) (v : Shift) : v.pick w = v ∨ v.Leads s (v.pick w) := by
  unfold pick
  split
  next hplace =>
    right
    split
    next p hpick =>
      have hmem := w.picker.mem_of_pick hpick
      simp only [List.mem_filter, decide_eq_true_eq] at hmem
      exact .picked p hplace hmem.1 hmem.2
    next hnone =>
      refine .exhausted hplace fun p hp => ?_
      rw [PeerSet.pick, Picker.pick_eq_none_iff, List.filter_eq_nil_iff] at hnone
      exact not_not.1 fun hnew => hnone p hp (decide_eq_true hnew)
  next => exact Or.inl rfl

theorem leads_dispatch (w : Moment) (v : Shift) :
    v.dispatch w s = v ∨ v.Leads s (v.dispatch w s) := by
  unfold dispatch
  split
  next p hplace =>
    right
    split
    next => exact .sent p _ hplace
    next => exact .cutOff p hplace
  next => exact Or.inl rfl

theorem leads_take (v : Shift) : v.take = v ∨ v.Leads s v.take := by
  unfold take
  split
  next signal rest hplace hqueue => exact Or.inr (.took signal rest hplace hqueue)
  next hplace hqueue =>
    split
    next hdismissed => exact Or.inr (.abandoned hplace hqueue hdismissed)
    next => exact Or.inl rfl
  next => exact Or.inl rfl

theorem leads_expire (w : Moment) (v : Shift) : v.expire w s = v ∨ v.Leads s (v.expire w s) := by
  unfold expire
  split
  next due hplace hdue =>
    right
    split
    next hsync => exact .lapsed due hplace hdue hsync
    next hsync =>
      have hsync : v.synchronizing = false := Bool.eq_false_iff.2 hsync
      unfold retry
      split
      next => exact .tails due hplace hdue hsync
      next =>
        split
        next hmany => exact .gaveUp due hplace hdue hsync hmany
        next hfew =>
          split
          next p hp =>
            split
            next hknown => exact .again p due hplace hdue hsync hp hknown (Nat.lt_of_not_le hfew)
            next hgone =>
              refine .missed due hplace hdue hsync fun q hq => ?_
              obtain rfl : p = q := Option.some.inj (hp.symm.trans hq)
              exact hgone
          next hp =>
            refine .missed due hplace hdue hsync fun q hq => ?_
            exact nomatch hp.symm.trans hq
  next => exact Or.inl rfl

theorem leads_begin (v : Shift) : v.begin = v ∨ v.Leads s v.begin := by
  unfold begin
  split
  next hplace => exact Or.inr (.begun hplace)
  next => exact Or.inl rfl

theorem leads_leave (v : Shift) : v.leave = v ∨ v.Leads s v.leave := by
  unfold leave
  split
  next hplace => exact Or.inr (.left hplace)
  next => exact Or.inl rfl

theorem leads_signal? (v : Shift) (signal : Signal) :
    (v.signal? signal).getD v = v ∨ v.Leads s ((v.signal? signal).getD v) := by
  unfold signal?
  split
  next h => exact Or.inr (.told signal h.1 h.2)
  next => exact Or.inl rfl

/-- **A step does one of the things that it can do, or nothing.** -/
theorem leads_step (s : MongerSettings) (v : Shift) (e : Event) :
    v.step s e = v ∨ v.Leads s (v.step s e) := by
  cases e with
  | begins => exact v.leads_begin
  | picks w => exact v.leads_pick w
  | sends w => exact v.leads_dispatch w
  | takes => exact v.leads_take
  | expires w => exact v.leads_expire w
  | leaves => exact v.leads_leave
  | told signal => exact v.leads_signal? signal
  | dismissed => exact Or.inr .dismissed
  | others peers => exact Or.inr (.changed peers)

/-- What all that a step can do keeps, every step keeps. -/
theorem step_keeps {P : Shift → Prop} (hP : ∀ {v v'}, P v → v.Leads s v' → P v') (hv : P v)
    (e : Event) : P (v.step s e) := by
  rcases v.leads_step s e with hsame | hleads
  · rw [hsame]
    exact hv
  · exact hP hv hleads

/-- **What all that a step can do keeps holds after any steps.** -/
theorem run_keeps {P : Shift → Prop} (hP : ∀ {v v'}, P v → v.Leads s v' → P v') (hv : P v)
    (es : List Event) : P (v.run s es) := by
  induction es generalizing v with
  | nil => exact hv
  | cons e es ih => exact ih (step_keeps hP hv e)

/-! ### What a worker keeps fits to how far it is -/

/-- The situations of a worker that is not in the middle of a move. -/
inductive Situation
  /-- It waits for an answer of the peer that it has sent to. -/
  | waiting
  /-- It waits for the end of reconciliation. -/
  | synchronizing
  /-- It is done. -/
  | ended
  deriving DecidableEq

/-- What a worker keeps in each situation. -/
def In (v : Shift) : Situation → Prop
  | .waiting => v.condition = .waiting ∧ v.deadline.isSome ∧ v.synchronizing = false ∧
      ∃ p, v.current = some p ∧ (sentTo v.trace).getLast? = some p
  | .synchronizing =>
      v.condition = .synchronizing ∧ v.deadline = none ∧ v.synchronizing = true
  | .ended => v.condition = .stopped ∧ v.deadline = none

/-- **The invariant**: what a worker keeps fits to how far it is. -/
def Situated (v : Shift) : Prop :=
  match v.place with
  | .outset => v.condition = .idle ∧ v.synchronizing = false
  | .picking => v.condition ≠ .stopped ∧ v.synchronizing = false
  | .sending p => v.condition ≠ .stopped ∧ v.synchronizing = false ∧ v.current = some p
  | .resting => v.In .waiting ∨ v.In .synchronizing
  | .leaving => v.In .ended
  | .gone => v.In .ended

theorem situated_start (id : Nat) (rumor : Rumor) (origin : Option PeerAddress)
    (peers : PeerSet) : (start id rumor origin peers).Situated := ⟨rfl, rfl⟩

theorem Situated.resting (h : v.Situated) (hplace : v.place = .resting) :
    v.In .waiting ∨ v.In .synchronizing := by
  simpa only [Situated, hplace] using h

/-- While a worker passes over the ends of waits, there is none. -/
theorem Situated.waiting (h : v.Situated) (hplace : v.place = .resting)
    (hsync : v.synchronizing = false) : v.In .waiting := by
  rcases h.resting hplace with hwaits | ⟨-, -, hother⟩
  · exact hwaits
  · simp [hsync] at hother

/-- A worker whose wait can end waits for a peer. -/
theorem Situated.waiting_of_due (h : v.Situated) (hplace : v.place = .resting)
    (hsome : v.deadline.isSome) : v.In .waiting := by
  refine (h.resting hplace).resolve_right ?_
  rintro ⟨-, hnone, -⟩
  rw [hnone] at hsome
  exact nomatch hsome

theorem Situated.leads (h : v.Situated) (hleads : v.Leads s v') : v'.Situated := by
  cases hleads with
  | begun hplace =>
    simp only [Situated, hplace] at h
    exact ⟨Condition.noConfusion, h.2⟩
  | picked p hplace =>
    simp only [Situated, hplace] at h
    exact ⟨h.1, h.2, rfl⟩
  | exhausted => exact ⟨rfl, rfl⟩
  | sent p due hplace =>
    simp only [Situated, hplace] at h
    refine Or.inl ⟨rfl, rfl, h.2.1, p, h.2.2, ?_⟩
    simp [note]
  | cutOff => exact ⟨rfl, rfl⟩
  | took signal rest hplace =>
    cases signal with
    | sync =>
      simp only [Situated, hear, note, hplace]
      exact Or.inr ⟨rfl, rfl, rfl⟩
    | reset => exact ⟨Condition.noConfusion, rfl⟩
    | forgetTried =>
      simp only [Situated, hear, note, forget, hplace]
      refine (h.resting hplace).imp_left fun hwaits => ?_
      simpa [In] using hwaits
    | stop => exact ⟨rfl, rfl⟩
  | abandoned => exact ⟨rfl, rfl⟩
  | lapsed due hplace hdue hsync =>
    -- a worker that passes over the ends of waits has no wait that could end
    rcases h.resting hplace with ⟨-, -, hother, -⟩ | ⟨-, hnone, -⟩
    · simp [hsync] at hother
    · simp [hdue] at hnone
  | tails => exact ⟨rfl, rfl⟩
  | gaveUp due hplace hdue hsync =>
    have hwaits := h.waiting hplace hsync
    refine ⟨?_, hsync⟩
    simp [seek, evict, count, forget, lapse, note, hwaits.1]
  | again p due hplace hdue hsync hp =>
    have hwaits := h.waiting hplace hsync
    refine ⟨?_, hsync, rfl⟩
    simp [turnTo, count, forget, lapse, note, hwaits.1]
  | missed due hplace hdue hsync =>
    have hwaits := h.waiting hplace hsync
    refine ⟨?_, hsync⟩
    simp [seek, count, forget, lapse, note, hwaits.1]
  | left hplace =>
    simp only [Situated, hplace] at h
    exact h
  | told signal => exact h
  | dismissed => exact h
  | changed peers => exact h

theorem situated_run (h : v.Situated) (es : List Event) : (v.run s es).Situated :=
  run_keeps Situated.leads h es

/-- A worker that has stopped is done. -/
theorem Situated.ended (h : v.Situated) (hstopped : v.condition = .stopped) :
    v.place = .leaving ∨ v.place = .gone := by
  unfold Situated at h
  split at h
  next => exact absurd hstopped (by simp [h.1])
  next => exact absurd hstopped h.1
  next => exact absurd hstopped h.1
  next => rcases h with h | h <;> exact absurd hstopped (by simp [h.1])
  next hplace => exact Or.inl hplace
  next hplace => exact Or.inr hplace

end Shift
end GossipLedger
