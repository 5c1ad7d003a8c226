import GossipLedger.Proofs.Rumor.Shift

/-!
# Moves without a hold

A worker that is not held up makes each move at once, as a monger does that is watched: it begins,
or takes a signal, or its wait ends, and then it picks a peer, sends to it or leaves if that comes
next.  What it keeps says what such a monger is doing.  So a worker is nothing but a monger that
others may interrupt.  Where a wait is at its end while a signal is there, either may come first.

## Main definitions

* `Shift.watch` — the watched monger that a worker is between two moves.
* `Shift.turn` — a move without a hold.
* `Shift.Settled` — a worker is not in the middle of a move.

## Main results

* `Shift.watch_turn` — **a worker that is not held up makes the move of the watched monger.**
* `Shift.watch_signal?` — a signal is lost to the one exactly if it is lost to the other.
* `Shift.exists_run_watch` — **all that a watched monger does is done by a worker as well.**
-/

namespace GossipLedger
namespace Shift

variable {s : MongerSettings} {v v' : Shift} {w : Moment} {p : PeerAddress}

/-- What a worker is doing, as far as it is between two moves. -/
def phase (v : Shift) : Phase :=
  match v.condition, v.deadline with
  | .waiting, some due => .waiting due
  | .synchronizing, _ => .synchronizing
  | .stopped, _ => .stopped
  | _, _ => .starting

/-- The monger that a worker is, apart from what it is doing. -/
def monger (v : Shift) (phase : Phase) : Monger :=
  ⟨v.rumor, v.origin, v.tried, v.current, v.retries, phase⟩

/-- The watched monger that a worker is between two moves. -/
def watch (v : Shift) : Watch := ⟨⟨v.id, v.monger v.phase, v.queue⟩, v.peers, v.trace⟩

/-- The rest of a move without a hold. -/
def proceed (w : Moment) (s : MongerSettings) (v : Shift) : Shift := ((v.pick w).dispatch w s).leave

/-- A move without a hold: a worker begins, or takes a signal if there is one, or its wait ends. -/
def turn (w : Moment) (s : MongerSettings) (v : Shift) : Shift :=
  match v.place, v.queue with
  | .outset, _ => v.begin.proceed w s
  | .resting, [] => (v.expire w s).proceed w s
  | .resting, _ => v.take.proceed w s
  | _, _ => v

/-- What a move of a monger with these peers and deeds before it leads to. -/
def after (v : Shift) (turn : Turn) : Watch :=
  ⟨⟨v.id, turn.monger, v.queue⟩, turn.peers, v.trace ++ turn.sent.map .sent⟩

theorem proceed_turnTo (w : Moment) (s : MongerSettings) (v : Shift) (p : PeerAddress)
    (phase : Phase) :
    ((v.turnTo p).proceed w s).watch = v.after ((v.monger phase).send w s v.peers p) := by
  have hpick : (v.turnTo p).pick w = v.turnTo p := rfl
  unfold proceed
  rw [hpick]
  cases hw : w.online with
  | false =>
    simp [dispatch, turnTo, hw, quit, leave, watch, after, Monger.send, Monger.stop, Shift.monger,
      Shift.phase]
  | true =>
    simp [dispatch, turnTo, hw, note, leave, watch, after, Monger.send, Shift.monger, Shift.phase]

theorem proceed_quit (w : Moment) (s : MongerSettings) (v : Shift) (phase : Phase) :
    (v.quit.proceed w s).watch = v.after ⟨(v.monger phase).stop, v.peers, []⟩ := by
  simp [proceed, pick, dispatch, quit, leave, watch, after, Monger.stop, Shift.monger, Shift.phase]

theorem proceed_seek (w : Moment) (s : MongerSettings) (v : Shift)
    (phase : Phase) (hplace : v.place = .picking) :
    (v.proceed w s).watch = v.after ((v.monger phase).spread w s v.peers) := by
  have htried : (v.monger phase).tried = v.tried := rfl
  unfold Monger.spread
  rw [htried]
  cases hpick : v.peers.pick w.picker v.tried with
  | none =>
    have hquit : v.proceed w s = v.quit.proceed w s := by
      unfold proceed pick
      simp [hplace, hpick, quit]
    rw [hquit]
    exact v.proceed_quit w s phase
  | some p =>
    have hturn : v.proceed w s = (v.turnTo p).proceed w s := by
      unfold proceed pick
      simp [hplace, hpick, turnTo]
    rw [hturn]
    exact v.proceed_turnTo w s p phase

theorem proceed_resting (hplace : v.place = .resting) : v.proceed w s = v := by
  simp [proceed, pick, dispatch, leave, hplace]

/-- A worker begins like the watched monger. -/
theorem watch_begin (h : v.Situated) (hplace : v.place = .outset) :
    (v.begin.proceed w s).watch = v.watch.step s (.moves w) := by
  simp only [Situated, hplace] at h
  have hphase : v.phase = .starting := by simp [phase, h.1]
  have hnext : v.watch.task.next? = some (0, .begin) := by simp [watch, monger, Task.next?, hphase]
  have hbegin : v.begin.place = .picking := by simp [begin, hplace]
  have hsame : v.begin.monger v.phase = v.monger v.phase := by
    unfold begin
    rw [if_pos hplace]
    rfl
  rw [Watch.step_moves hnext, Watch.move_begin, proceed_seek w s v.begin v.phase hbegin, hsame]
  unfold begin
  rw [if_pos hplace]
  simp [watch, after, Monger.spread_peers]

/-- It takes a signal like the watched monger. -/
theorem watch_take (h : v.Situated) (hplace : v.place = .resting) {signal : Signal}
    {rest : List Signal} (hqueue : v.queue = signal :: rest) :
    (v.take.proceed w s).watch = v.watch.step s (.moves w) := by
  have htake : v.take = { (v.note (.took signal)).hear signal with queue := rest } := by
    simp [take, hplace, hqueue]
  have hnext : v.watch.task.next? = some (0, .take signal rest) := by
    rcases h.resting hplace with ⟨hcondition, hdue, -⟩ | ⟨hcondition, hdue, -⟩
    · obtain ⟨due, hdue⟩ := Option.isSome_iff_exists.1 hdue
      simp [watch, monger, Task.next?, phase, hcondition, hdue, hqueue]
    · simp [watch, monger, Task.next?, phase, hcondition, hqueue]
  rw [Watch.step_moves hnext, Watch.move_take, htake]
  cases signal with
  | sync =>
    rw [proceed_resting (by exact hplace)]
    rfl
  | forgetTried =>
    rw [proceed_resting (by exact hplace)]
    rfl
  | stop =>
    let u : Shift := { v.note (.took .stop) with queue := rest }
    show (u.quit.proceed w s).watch = _
    rw [u.proceed_quit w s v.phase]
    simp [u, after, note, watch, monger, Monger.onSignal]
  | reset =>
    let u : Shift := { (v.note (.took .reset)).hear .reset with queue := rest }
    show (u.proceed w s).watch = _
    rw [proceed_seek w s u v.phase rfl]
    simp [u, after, note, hear, seek, watch, monger, Monger.onSignal, Monger.spread_peers]

/-- A wait that ends in vain leads to what it leads to for the watched monger. -/
theorem watch_retry (hp : v.current = some p) :
    ((v.lapse.retry w s).proceed w s).watch = v.watch.move s w .expire := by
  have hmonger : (v.monger v.phase).current = some p := hp
  have hmove : v.watch.move s w .expire =
      ⟨⟨v.id, ((v.monger v.phase).onTimeout w s v.peers).monger, v.queue⟩,
        ((v.monger v.phase).onTimeout w s v.peers).peers,
        v.trace ++ (.expired :: ((v.monger v.phase).onTimeout w s v.peers).deeds v.peers)⟩ := rfl
  rw [hmove, Monger.deeds_onTimeout hmonger]
  have hretries : (v.monger v.phase).retries = v.retries := rfl
  cases hw : w.coin with
  | false =>
    have hquit : v.lapse.retry w s = v.lapse.quit := by simp [retry, hw]
    rw [hquit, v.lapse.proceed_quit w s v.phase, Monger.onTimeout_of_tails hw]
    simp [after, lapse, note, monger]
  | true =>
    rw [Monger.onTimeout_of_heads hw hmonger, hretries]
    by_cases hmany : s.maxRetries ≤ v.retries + 1
    · have hgone : v.lapse.retry w s = { v.lapse.count.evict.seek with current := none } := by
        simp [retry, hw, count, forget, lapse, note, hmany]
      rw [hgone, proceed_seek w s _ v.phase rfl, if_pos hmany]
      by_cases hknown : p ∈ v.peers
      · simp [after, evict, seek, count, forget, lapse, note, monger, Monger.forget, hp, hmany,
          hknown, Monger.spread_peers]
      · simp [after, evict, seek, count, forget, lapse, note, monger, Monger.forget, hp, hmany,
          hknown, Monger.spread_peers]
    · rw [if_neg hmany]
      by_cases hknown : p ∈ v.peers
      · have hagain : v.lapse.retry w s = v.lapse.count.turnTo p := by
          simp [retry, hw, count, forget, lapse, note, hmany, hp, hknown]
        rw [hagain, proceed_turnTo w s _ p v.phase, if_pos hknown]
        simp [after, count, forget, lapse, note, monger, Monger.forget, hmany]
      · have hmissed : v.lapse.retry w s = v.lapse.count.seek := by
          simp [retry, hw, count, forget, lapse, note, hmany, hp, hknown]
        rw [hmissed, proceed_seek w s _ v.phase rfl, if_neg hknown]
        simp [after, seek, count, forget, lapse, note, monger, Monger.forget, hmany,
          Monger.spread_peers]

/-- Its wait ends like that of the watched monger, whether or not there is a signal. -/
theorem watch_expires (h : v.Situated) (hplace : v.place = .resting) :
    ((v.expire w s).proceed w s).watch = v.watch.step s (.expires w) := by
  rcases h.resting hplace with ⟨hcondition, hdue, hsync, p, hp, -⟩ | ⟨hcondition, hdue, -⟩
  · obtain ⟨due, hdue⟩ := Option.isSome_iff_exists.1 hdue
    have hphase : v.watch.task.monger.phase = .waiting due := by
      simp [watch, monger, phase, hcondition, hdue]
    have hexpire : v.expire w s = v.lapse.retry w s := by
      simp [expire, hplace, hdue, hsync]
    rw [hexpire, watch_retry hp, Watch.step, hphase]
  · -- without a wait nothing happens
    have hphase : v.watch.task.monger.phase = .synchronizing := by
      simp [watch, monger, phase, hcondition]
    have hexpire : v.expire w s = v := by simp [expire, hplace, hdue]
    rw [hexpire, proceed_resting hplace, Watch.step, hphase]

/-- Without a signal the end of the wait is the next move of the watched monger. -/
theorem watch_expire (h : v.Situated) (hplace : v.place = .resting) (hqueue : v.queue = []) :
    ((v.expire w s).proceed w s).watch = v.watch.step s (.moves w) := by
  rw [watch_expires h hplace]
  rcases h.resting hplace with ⟨hcondition, hdue, -⟩ | ⟨hcondition, -⟩
  · obtain ⟨due, hdue⟩ := Option.isSome_iff_exists.1 hdue
    simp [Watch.step, watch, monger, Task.next?, phase, hcondition, hdue, hqueue]
  · simp [Watch.step, watch, monger, Task.next?, phase, hcondition, hqueue]

/-- A worker is not in the middle of a move. -/
def Settled (v : Shift) : Prop := v.place = .outset ∨ v.place = .resting ∨ v.place = .gone

/-- **A worker that is not held up makes the move of the watched monger.** -/
theorem watch_turn (h : v.Situated) (hsettled : v.Settled) :
    (v.turn w s).watch = v.watch.step s (.moves w) := by
  rcases hsettled with hplace | hplace | hplace
  · have hturn : v.turn w s = v.begin.proceed w s := by simp [turn, hplace]
    rw [hturn, watch_begin h hplace]
  · cases hqueue : v.queue with
    | nil =>
      have hturn : v.turn w s = (v.expire w s).proceed w s := by simp [turn, hplace, hqueue]
      rw [hturn, watch_expire h hplace hqueue]
    | cons signal rest =>
      have hturn : v.turn w s = v.take.proceed w s := by simp [turn, hplace, hqueue]
      rw [hturn, watch_take h hplace hqueue]
  · -- the queue of a monger that has stopped is not looked at
    have hturn : v.turn w s = v := by simp [turn, hplace]
    simp only [Situated, hplace, In] at h
    have hnext : v.watch.task.next? = none := by
      simp [watch, monger, Task.next?, phase, h.1]
    rw [hturn, Watch.step, hnext]

/-- A worker begins once. -/
theorem Leads.place_ne (hleads : v.Leads s v') (hplace : v.place ≠ .outset) :
    v'.place ≠ .outset := by
  cases hleads with
  | took signal rest hresting =>
    cases signal <;> simp [hear, seek, forget, quit, note, hresting]
  | begun | picked | exhausted | sent | cutOff | abandoned => exact Place.noConfusion
  | tails | again | gaveUp | missed | left => exact Place.noConfusion
  | lapsed | told | dismissed | changed => exact hplace

/-- A move without a hold comes to its end. -/
theorem settled_proceed (hplace : v.place ≠ .outset) : (v.proceed w s).Settled := by
  have hsends : ∀ u : Shift, u.place ≠ .outset → u.place ≠ .picking →
      ((u.dispatch w s).leave).Settled := by
    intro u houtset hpicking
    cases hu : u.place with
    | outset => exact absurd hu houtset
    | picking => exact absurd hu hpicking
    | sending p =>
      cases hw : w.online with
      | false => simp [Settled, dispatch, leave, quit, hu, hw]
      | true => simp [Settled, dispatch, leave, note, hu, hw]
    | resting => simp [Settled, dispatch, leave, hu]
    | leaving => simp [Settled, dispatch, leave, hu]
    | gone => simp [Settled, dispatch, leave, hu]
  refine hsends _ ?_ ?_
  all_goals
    unfold pick
    split
    next => split <;> simp [turnTo, quit]
    next hother => first | exact hplace | exact hother

/-- A move without a hold is a sequence of steps. -/
theorem exists_run_turn (w : Moment) (s : MongerSettings) (hsettled : v.Settled) :
    (v.turn w s).Settled ∧ ∃ es, v.turn w s = v.run s es := by
  unfold turn
  split
  next hplace =>
    refine ⟨settled_proceed ?_, [.begins, .picks w, .sends w, .leaves], rfl⟩
    simp [begin, hplace]
  next hplace _ =>
    refine ⟨settled_proceed ?_, [.expires w, .picks w, .sends w, .leaves], rfl⟩
    exact step_keeps (e := .expires w) (fun hv hleads => hleads.place_ne hv) (by simp [hplace])
  next hplace _ =>
    refine ⟨settled_proceed ?_, [.takes, .picks w, .sends w, .leaves], rfl⟩
    exact step_keeps (s := s) (e := .takes) (fun hv hleads => hleads.place_ne hv) (by simp [hplace])
  next => exact ⟨hsettled, [], rfl⟩

theorem place_signal? (v : Shift) (signal : Signal) :
    ((v.signal? signal).getD v).place = v.place := by
  unfold signal?
  split <;> rfl

/-- Between two moves, a signal is lost exactly if it is lost to the watched monger. -/
theorem watch_signal? (h : v.Situated) (hsettled : v.Settled) (signal : Signal) :
    ((v.signal? signal).getD v).watch = v.watch.step s (.told signal) := by
  have hgone : v.phase ≠ .stopped ↔ v.place ≠ .gone := by
    rcases hsettled with hplace | hplace | hplace
    · simp only [Situated, hplace] at h
      simp [phase, hplace, h.1]
    · rcases h.resting hplace with ⟨hcondition, hdue, -⟩ | ⟨hcondition, -⟩
      · obtain ⟨due, hdue⟩ := Option.isSome_iff_exists.1 hdue
        simp [phase, hplace, hcondition, hdue]
      · simp [phase, hplace, hcondition]
    · simp only [Situated, hplace, In] at h
      simp [phase, hplace, h.1]
  show _ = { v.watch with task := (v.watch.task.signal? signal).getD v.watch.task }
  unfold signal? Task.signal?
  by_cases hroom : v.place ≠ .gone ∧ v.queue.length < Task.capacity
  · rw [if_pos hroom, if_pos ⟨hgone.2 hroom.1, hroom.2⟩]
    rfl
  · rw [if_neg hroom, if_neg fun hopen => hroom ⟨hgone.1 hopen.1, hopen.2⟩]
    rfl

/-- **All that a watched monger does is done by a worker as well.** -/
theorem exists_run_watch (h : v.Situated) (hsettled : v.Settled) (es : List Watch.Event) :
    ∃ es', (v.run s es').watch = v.watch.run s es := by
  induction es generalizing v with
  | nil => exact ⟨[], rfl⟩
  | cons e es ih =>
    -- each thing that happens to the watched monger is a sequence of steps
    have hstep : ∃ first, (v.run s first).watch = v.watch.step s e ∧ (v.run s first).Settled := by
      cases e with
      | moves w =>
        obtain ⟨hlast, first, hfirst⟩ := exists_run_turn w s hsettled
        exact ⟨first, hfirst ▸ watch_turn h hsettled, hfirst ▸ hlast⟩
      | expires w =>
        rcases hsettled with hplace | hplace | hplace
        · simp only [Situated, hplace] at h
          refine ⟨[], ?_, Or.inl hplace⟩
          simp [run, Watch.step, watch, monger, phase, h.1]
        · refine ⟨[.expires w, .picks w, .sends w, .leaves], watch_expires h hplace, ?_⟩
          refine settled_proceed ?_
          exact step_keeps (e := .expires w) (fun hv hleads => hleads.place_ne hv) (by simp [hplace])
        · simp only [Situated, hplace, In] at h
          refine ⟨[], ?_, Or.inr (Or.inr hplace)⟩
          simp [run, Watch.step, watch, monger, phase, h.1]
      | told signal =>
        refine ⟨[.told signal], watch_signal? h hsettled signal, ?_⟩
        unfold Settled
        have hplace : (v.run s [.told signal]).place = v.place := v.place_signal? signal
        rwa [hplace]
      | others peers => exact ⟨[.others peers], rfl, hsettled⟩
    obtain ⟨first, hfirst, hlast⟩ := hstep
    obtain ⟨later, hlater⟩ := ih (situated_run h first) hlast
    refine ⟨first ++ later, ?_⟩
    rw [run_append, hlater, hfirst]
    rfl

end Shift
end GossipLedger
