import GossipLedger.Config
import GossipLedger.Net.PeerSet
import GossipLedger.Wire.Packet

/-!
# Mongers

A monger spreads one rumor: it sends it to a peer and waits for a status in
return.  Without one it flips a coin and stops, or sends the rumor to the same
peer again; a peer that leaves several sends in a row unanswered is no longer a
peer.  When a status comes, the monger waits for the two nodes to reconcile and
is then told to go on with another peer or to stop.

## Main definitions

* `Moment` — the time, the pick, the coin and the transport that a monger meets.
* `Monger` — the state, with its `Phase`.
* `Monger.spread` — sending to a peer not tried yet.
* `Monger.onSignal`, `Monger.onTimeout` — the moves of a monger.
-/

namespace GossipLedger

/-- What a node meets when it acts. -/
structure Moment where
  /-- The time in milliseconds. -/
  now : Nat
  /-- The pick of a peer. -/
  picker : Picker PeerAddress
  /-- Whether the coin says to go on. -/
  coin : Bool
  /-- Whether the transport takes packets. -/
  online : Bool

/-- How a monger waits. -/
structure MongerSettings where
  /-- The time after which a send counts as unanswered. -/
  timeout : Nat
  /-- The number of unanswered sends after which a peer is given up. -/
  maxRetries : Nat
  deriving DecidableEq, Repr

/-- The settings of the mongers of a node.  At least one send has to fail before a
peer is given up. -/
def GossipSettings.monger (s : GossipSettings) : MongerSettings :=
  ⟨s.mongerTimeout, max 1 s.maxRetries.toNat⟩

/-- What a monger is told. -/
inductive Signal
  /-- Its peer answered; reconciliation begins. -/
  | sync
  /-- Reconciliation ended and the coin says to go on. -/
  | reset
  | stop
  /-- There is news, so that peers tried before are worth another try. -/
  | forgetTried
  deriving DecidableEq, Repr

/-- What a monger is doing. -/
inductive Phase
  /-- Nothing yet. -/
  | starting
  /-- Waiting for an answer until a deadline. -/
  | waiting (deadline : Nat)
  /-- Waiting for the end of reconciliation. -/
  | synchronizing
  | stopped
  deriving DecidableEq, Repr

/-- The state of a monger. -/
structure Monger where
  rumor : Rumor
  /-- The peer the rumor came from, which is never sent to. -/
  origin : Option PeerAddress
  /-- The peers that are not picked. -/
  tried : List PeerAddress
  /-- The peer sent to last. -/
  current : Option PeerAddress
  /-- The sends to it in a row without an answer. -/
  retries : Nat
  phase : Phase
  deriving DecidableEq

/-- What a move of a monger leads to. -/
structure Turn where
  monger : Monger
  /-- The known peers afterwards. -/
  peers : PeerSet
  /-- The peers that the rumor was sent to. -/
  sent : List PeerAddress
  deriving DecidableEq

namespace Monger

/-- A monger that has not begun. -/
def new (rumor : Rumor) (origin : Option PeerAddress) : Monger :=
  ⟨rumor, origin, origin.toList, none, 0, .starting⟩

/-- Whether the monger spreads a rumor that only makes a way known. -/
def isRoute (m : Monger) : Bool := m.rumor.isRoute

/-- The peer that the monger is talking to. -/
def target (m : Monger) : Option PeerAddress :=
  if m.phase = .stopped then none else m.current

/-- The monger at its end. -/
def stop (m : Monger) : Monger := { m with phase := .stopped }

/-- The monger with only the origin of the rumor counted as tried. -/
def forget (m : Monger) : Monger := { m with tried := m.origin.toList }

/-- The rumor goes to a peer.  A monger stops when the transport is gone. -/
def send (w : Moment) (s : MongerSettings) (peers : PeerSet) (m : Monger) (p : PeerAddress) :
    Turn :=
  let m := { m with current := some p, tried := p :: m.tried }
  if w.online then ⟨{ m with phase := .waiting (w.now + s.timeout) }, peers, [p]⟩
  else ⟨m.stop, peers, []⟩

/-- The rumor goes to a peer that was not tried.  A monger stops when there is
none. -/
def spread (w : Moment) (s : MongerSettings) (peers : PeerSet) (m : Monger) : Turn :=
  match peers.pick w.picker m.tried with
  | some p => m.send w s peers p
  | none => ⟨m.stop, peers, []⟩

/-- The move of a monger that is told something. -/
def onSignal (w : Moment) (s : MongerSettings) (peers : PeerSet) (m : Monger) : Signal → Turn
  | .sync => ⟨{ m with retries := 0, phase := .synchronizing }, peers, []⟩
  | .reset => { m with retries := 0 }.spread w s peers
  | .forgetTried => ⟨m.forget, peers, []⟩
  | .stop => ⟨m.stop, peers, []⟩

/-- The move of a monger whose last send stayed unanswered.  The coin may end it;
otherwise the peer gets the rumor again, unless it left so many sends unanswered
that it is given up, or is no longer known. -/
def onTimeout (w : Moment) (s : MongerSettings) (peers : PeerSet) (m : Monger) : Turn :=
  if !w.coin then ⟨m.stop, peers, []⟩
  else
    let retries := m.retries + 1
    let m := m.forget
    match m.current with
    | some p =>
        if s.maxRetries ≤ retries then
          { m with retries := 0, current := none }.spread w s (peers.remove p)
        else if p ∈ peers then { m with retries := retries }.send w s peers p
        else { m with retries := 0 }.spread w s peers
    | none => { m with retries := 0 }.spread w s peers

end Monger

end GossipLedger
