import GossipLedger.Rumor.Monger
import GossipLedger.Wire.Outbound

/-!
# Crews of mongers

The mongers of a node work on their own but share the peers that the node knows.
Each has a queue of signals, which it takes one at a time.  A signal that does
not fit into the queue, or comes after the monger stopped, is lost.

The mongers stand in line.  Time may pass the ends of several waits at once; they
are then made up for in the order in which they came, and those of one time in
line.  Who has moved goes to the end of the line, so that of two waits that end
together the one that began first counts first.

## Main definitions

* `Task` — a monger with its number and its queue.
* `Task.signal?` — a signal put into the queue.
* `Task.next?`, `Task.run` — what a monger can do and when, and doing it.
* `Crew` — the mongers of a node with its peers.
* `Crew.turn?`, `Crew.step?` — whose turn it is, and the crew after that move.
* `Crew.settle` — everything that can be done now is done.

## Main results

* `Crew.le_of_turn?` — nobody could move before the task whose turn it is.
-/

namespace GossipLedger

/-- A monger with its queue of signals. -/
structure Task where
  /-- The number of the monger; later ones have higher numbers. -/
  id : Nat
  monger : Monger
  /-- The signals that the monger has not taken yet, oldest first. -/
  queue : List Signal
  deriving DecidableEq

/-- What a monger can do. -/
inductive Move
  /-- Send the rumor for the first time. -/
  | begin
  /-- Take the oldest signal. -/
  | take (signal : Signal) (rest : List Signal)
  /-- Give up waiting. -/
  | expire
  deriving DecidableEq

namespace Task

/-- The number of signals that fit into a queue. -/
def capacity : Nat := 16

/-- The task with a signal put into its queue; nothing if the signal is lost. -/
def signal? (t : Task) (s : Signal) : Option Task :=
  if t.monger.phase ≠ .stopped ∧ t.queue.length < capacity then
    some { t with queue := t.queue ++ [s] }
  else none

/-- What the monger does next and the time from which it can.  To begin and to take a
signal it need not wait, and a signal comes before the end of a wait: where a monger finds
both at once either may come first, and a crew that settles makes this choice for it. -/
def next? (t : Task) : Option (Nat × Move) :=
  match t.monger.phase, t.queue with
  | .stopped, _ => none
  | .starting, _ => some (0, .begin)
  | .synchronizing, [] => none
  | .synchronizing, s :: rest => some (0, .take s rest)
  | .waiting deadline, [] => some (deadline, .expire)
  | .waiting _, s :: rest => some (0, .take s rest)

/-- The time from which the monger can do something. -/
def due? (t : Task) : Option Nat := t.next?.map Prod.fst

/-- The task after a move, and what the move leads to. -/
def run (w : Moment) (s : MongerSettings) (peers : PeerSet) (t : Task) : Move → Task × Turn
  | .begin =>
      let turn := t.monger.spread w s peers
      ({ t with monger := turn.monger }, turn)
  | .take signal rest =>
      let turn := t.monger.onSignal w s peers signal
      ({ t with monger := turn.monger, queue := rest }, turn)
  | .expire =>
      let turn := t.monger.onTimeout w s peers
      ({ t with monger := turn.monger }, turn)

end Task

/-- The mongers of a node with its peers. -/
structure Crew where
  peers : PeerSet
  /-- The mongers in line; the one that moved last is the last. -/
  tasks : List Task
  deriving DecidableEq

namespace Crew

/-- Nobody at work. -/
def new (peers : PeerSet) : Crew := ⟨peers, []⟩

/-- A monger with a new number is taken on, at the end of the line. -/
def start (c : Crew) (id : Nat) (rumor : Rumor) (origin : Option PeerAddress) : Crew :=
  { c with tasks := c.tasks ++ [⟨id, .new rumor origin, []⟩] }

/-- The task of a given number. -/
def task? (c : Crew) (id : Nat) : Option Task := c.tasks.find? fun t => t.id = id

/-- The crew after a signal to the monger of a given number, lost or not. -/
def signal (c : Crew) (id : Nat) (s : Signal) : Crew :=
  { c with tasks := c.tasks.map fun t => if t.id = id then (t.signal? s).getD t else t }

/-- The crew after a signal to everyone. -/
def signalAll (c : Crew) (s : Signal) : Crew :=
  { c with tasks := c.tasks.map fun t => (t.signal? s).getD t }

/-- The oldest monger that is talking to a peer about a rumor of a kind. -/
def talkingTo? (c : Crew) (p : PeerAddress) (isRoute : Bool) : Option Nat :=
  let talking := c.tasks.filter fun t => t.monger.isRoute = isRoute && t.monger.target = some p
  (talking.map Task.id).min?

/-- The crew without the mongers that have stopped. -/
def reap (c : Crew) : Crew :=
  { c with tasks := c.tasks.filter fun t => t.monger.phase ≠ .stopped }

/-- The task whose turn it is, with its move: among those that can move now the one
that could move first, and of several such the first in line. -/
def turn? (now : Nat) (c : Crew) : Option (Task × Move) :=
  c.tasks.findSome? fun t =>
    match t.next? with
    | some (due, move) =>
        if due ≤ now ∧ ∀ u ∈ c.tasks, ∀ later ∈ u.due?, due ≤ later then some (t, move) else none
    | none => none

/-- The task whose turn it is can move now, and nobody could move before it. -/
theorem le_of_turn? {now : Nat} {c : Crew} {t : Task} {move : Move}
    (h : c.turn? now = some (t, move)) :
    t ∈ c.tasks ∧ ∃ due, t.next? = some (due, move) ∧ due ≤ now ∧
      ∀ u ∈ c.tasks, ∀ later ∈ u.due?, due ≤ later := by
  obtain ⟨u, hu, hmove⟩ := List.exists_of_findSome?_eq_some h
  split at hmove
  case h_2 => contradiction
  case h_1 due m hnext =>
    split at hmove
    case isFalse => contradiction
    case isTrue hdue =>
      cases hmove
      exact ⟨hu, due, hnext, hdue⟩

/-- The crew after the move of the task whose turn it is, and what was sent. -/
def step? (w : Moment) (s : MongerSettings) (c : Crew) : Option (Crew × List Outbound) :=
  match c.turn? w.now with
  | some (t, move) =>
      let (t', turn) := t.run w s c.peers move
      some (⟨turn.peers, c.tasks.erase t ++ [t']⟩,
        turn.sent.map fun p => .unicast p (.rumor t.monger.rumor))
  | none => none

/-- At most `fuel` moves, one after the other, as long as anything can be done. -/
def stepUpTo (w : Moment) (s : MongerSettings) : Nat → Crew → Crew × List Outbound
  | 0, c => (c, [])
  | fuel + 1, c =>
      match c.step? w s with
      | none => (c, [])
      | some (c, sent) =>
          let (c, later) := stepUpTo w s fuel c
          (c, sent ++ later)

/-- More moves than can be made at one time: each task begins, empties its queue
and, if it does not wait at all, sends to each peer until that is given up. -/
def patience (s : MongerSettings) (c : Crew) : Nat :=
  c.tasks.length * (Task.capacity + 2 + (s.maxRetries + 1) * (c.peers.size + 1))

/-- Everything that can be done now is done. -/
def settle (w : Moment) (s : MongerSettings) (c : Crew) : Crew × List Outbound :=
  c.stepUpTo w s (c.patience s)

end Crew

end GossipLedger
