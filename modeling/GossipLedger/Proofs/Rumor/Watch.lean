import GossipLedger.Proofs.Rumor.Peers

/-!
# A monger that is watched

A single monger is watched among others, with all that it does and takes notice of.  It makes each
of its moves at once, from what brings the move about to the send that it leads to.  Where a signal
waits in its queue and its wait is at its end as well, either may come first.  Other mongers and the
node itself change the known peers between its moves.

## Main definitions

* `Deed` — what a monger does and takes notice of.
* `Watch` — a monger with the known peers and all its deeds.
* `Watch.Event`, `Watch.step`, `Watch.run` — its moves, and what others do meanwhile.

## Main results

* `Monger.deeds_onTimeout` — what is done at the end of a wait.
* `Watch.exists_move_of_step?` — what a monger does among others is a move of the watched one.
-/

namespace GossipLedger

/-- What a monger does and takes notice of. -/
inductive Deed
  /-- The rumor goes to a peer. -/
  | sent (p : PeerAddress)
  /-- A wait ends without an answer. -/
  | expired
  /-- A signal is taken. -/
  | took (signal : Signal)
  /-- A peer is taken out of the known ones. -/
  | removed (p : PeerAddress)
  deriving DecidableEq

/-- What brings a move about. -/
def Move.deeds : Move → List Deed
  | .begin => []
  | .take signal _ => [.took signal]
  | .expire => [.expired]

/-- What a move leads to: peers are taken out before the rumor is sent. -/
def Turn.deeds (peers : PeerSet) (turn : Turn) : List Deed :=
  (peers.toList.filter (· ∉ turn.peers)).map .removed ++ turn.sent.map .sent

/-- A monger with the known peers and all its deeds, oldest first. -/
structure Watch where
  task : Task
  peers : PeerSet
  trace : List Deed
  deriving DecidableEq

namespace Watch

/-- What may happen to a monger. -/
inductive Event
  /-- It makes its next move, if there is one.  A signal comes before the end of a wait. -/
  | moves (w : Moment)
  /-- Its wait ends, if there is one, whether or not there is a signal. -/
  | expires (w : Moment)
  /-- It is told something. -/
  | told (signal : Signal)
  /-- Others change the known peers. -/
  | others (peers : PeerSet)

/-- A monger that has not begun. -/
def start (id : Nat) (rumor : Rumor) (origin : Option PeerAddress) (peers : PeerSet) : Watch :=
  ⟨⟨id, .new rumor origin, []⟩, peers, []⟩

/-- The watch after a move, which is not interrupted. -/
def move (s : MongerSettings) (w : Moment) (v : Watch) (m : Move) : Watch :=
  let moved := v.task.run w s v.peers m
  ⟨moved.1, moved.2.peers, v.trace ++ (m.deeds ++ moved.2.deeds v.peers)⟩

/-- Something happens. -/
def step (s : MongerSettings) (v : Watch) : Event → Watch
  | .moves w =>
      match v.task.next? with
      | none => v
      | some (_, m) => v.move s w m
  | .expires w =>
      match v.task.monger.phase with
      | .waiting _ => v.move s w .expire
      | _ => v
  | .told signal => { v with task := (v.task.signal? signal).getD v.task }
  | .others peers => { v with peers := peers }

/-- Several things happen, one after the other. -/
def run (s : MongerSettings) (v : Watch) (es : List Event) : Watch := es.foldl (step s) v

end Watch

variable {p : PeerAddress} {s : MongerSettings} {w : Moment} {peers : PeerSet} {m : Monger}

/-! ### What moves lead to -/

theorem Turn.deeds_of_same {turn : Turn} (hsame : turn.peers = peers) :
    turn.deeds peers = turn.sent.map .sent := by
  have hnone : peers.toList.filter (· ∉ turn.peers) = [] := by
    rw [List.filter_eq_nil_iff, hsame]
    exact fun q hq hnot => of_decide_eq_true hnot hq
  rw [deeds, hnone]
  rfl

theorem Turn.deeds_of_remove {turn : Turn} (hremove : turn.peers = peers.remove p) :
    turn.deeds peers = (if p ∈ peers then [.removed p] else []) ++ turn.sent.map .sent := by
  have hgone : peers.toList.filter (· ∉ turn.peers) = if p ∈ peers then [p] else [] := by
    have hcongr : peers.toList.filter (· ∉ turn.peers) = peers.toList.filter (· = p) := by
      refine List.filter_congr fun q hq => ?_
      have hmem : q ∈ peers := hq
      rw [hremove, decide_eq_decide, PeerSet.mem_remove]
      tauto
    rw [hcongr, List.filter_eq]
    split
    next hp => rw [List.count_eq_one_of_mem peers.nodup hp]; rfl
    next hp => rw [List.count_eq_zero_of_not_mem hp]; rfl
  rw [deeds, hgone]
  split <;> rfl

namespace Monger

theorem send_peers (w : Moment) (s : MongerSettings) (peers : PeerSet) (m : Monger)
    (p : PeerAddress) : (m.send w s peers p).peers = peers := by
  unfold send
  dsimp only
  split <;> rfl

theorem spread_peers (w : Moment) (s : MongerSettings) (peers : PeerSet) (m : Monger) :
    (m.spread w s peers).peers = peers := by
  unfold spread
  split
  next => exact send_peers ..
  next => rfl

theorem onSignal_peers (w : Moment) (s : MongerSettings) (peers : PeerSet) (m : Monger)
    (signal : Signal) : (m.onSignal w s peers signal).peers = peers := by
  cases signal with
  | reset => exact spread_peers ..
  | _ => rfl

theorem onTimeout_of_tails (hw : w.coin = false) :
    m.onTimeout w s peers = ⟨m.stop, peers, []⟩ := by
  unfold onTimeout
  rw [hw]
  rfl

/-- What a monger does on heads when a peer did not answer. -/
theorem onTimeout_of_heads (hw : w.coin = true) (hp : m.current = some p) :
    m.onTimeout w s peers =
      if s.maxRetries ≤ m.retries + 1 then
        { m.forget with retries := 0, current := none }.spread w s (peers.remove p)
      else if p ∈ peers then { m.forget with retries := m.retries + 1 }.send w s peers p
      else { m.forget with retries := 0 }.spread w s peers := by
  have hcurrent : m.forget.current = some p := hp
  unfold onTimeout
  dsimp only
  rw [hw, hcurrent]
  rfl

/-- At the end of a wait the peer is taken out that the monger waited for, or none. -/
theorem deeds_onTimeout (hp : m.current = some p) : (m.onTimeout w s peers).deeds peers =
    (if w.coin = true ∧ s.maxRetries ≤ m.retries + 1 ∧ p ∈ peers then [.removed p] else []) ++
      (m.onTimeout w s peers).sent.map .sent := by
  cases hw : w.coin with
  | false =>
    rw [onTimeout_of_tails hw, if_neg (by simp)]
    exact Turn.deeds_of_same rfl
  | true =>
    rw [onTimeout_of_heads hw hp]
    by_cases hmany : s.maxRetries ≤ m.retries + 1
    · rw [if_pos hmany, Turn.deeds_of_remove (spread_peers ..)]
      congr 1
      exact if_congr (by simp [hmany]) rfl rfl
    · have hnot : ¬(true = true ∧ s.maxRetries ≤ m.retries + 1 ∧ p ∈ peers) := fun h => hmany h.2.1
      rw [if_neg hmany, if_neg hnot]
      split
      next => exact Turn.deeds_of_same (send_peers ..)
      next => exact Turn.deeds_of_same (spread_peers ..)

end Monger

/-! ### Moves -/

namespace Watch

variable {v : Watch} {due : Nat} {move : Move}

theorem step_moves (hnext : v.task.next? = some (due, move)) :
    v.step s (.moves w) = v.move s w move := by
  unfold step
  rw [hnext]

theorem move_begin (s : MongerSettings) (w : Moment) (v : Watch) : v.move s w .begin =
    ⟨⟨v.task.id, (v.task.monger.spread w s v.peers).monger, v.task.queue⟩, v.peers,
      v.trace ++ (v.task.monger.spread w s v.peers).sent.map .sent⟩ := by
  unfold Watch.move
  simp only [Task.run, Move.deeds, List.nil_append]
  rw [Turn.deeds_of_same (Monger.spread_peers ..), Monger.spread_peers]

theorem move_take (s : MongerSettings) (w : Moment) (v : Watch) (signal : Signal)
    (rest : List Signal) : v.move s w (.take signal rest) =
    ⟨⟨v.task.id, (v.task.monger.onSignal w s v.peers signal).monger, rest⟩, v.peers,
      v.trace ++ (.took signal :: (v.task.monger.onSignal w s v.peers signal).sent.map .sent)⟩ := by
  unfold Watch.move
  simp only [Task.run, Move.deeds]
  rw [Turn.deeds_of_same (Monger.onSignal_peers ..), Monger.onSignal_peers]
  rfl

/-- **What a monger of a crew does in its turn is a move of the watched one**, whatever it did
before. -/
theorem exists_move_of_step? {c c' : Crew} {sent : List Outbound}
    (h : c.step? w s = some (c', sent)) : ∃ t ∈ c.tasks, ∀ trace,
      c' = ⟨((⟨t, c.peers, trace⟩ : Watch).step s (.moves w)).peers,
        c.tasks.erase t ++ [((⟨t, c.peers, trace⟩ : Watch).step s (.moves w)).task]⟩ := by
  unfold Crew.step? at h
  split at h
  next t move hturn =>
    obtain ⟨ht, due, hnext, -, -⟩ := Crew.le_of_turn? hturn
    refine ⟨t, ht, fun trace => ?_⟩
    have hstep := step_moves (s := s) (w := w) (v := ⟨t, c.peers, trace⟩) hnext
    rw [hstep]
    exact (Prod.mk.inj (Option.some.inj h)).1.symm
  next => exact nomatch h

end Watch

end GossipLedger
