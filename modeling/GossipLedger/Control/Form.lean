import GossipLedger.Json.Message
import GossipLedger.Wire.Codec

/-!
# Forms

The bodies of the demands that come with one.  Everything may be left out as far
as JSON goes; what a demand cannot do without is asked for later.

## Main definitions

* `StartForm`, `MessageForm`, `TransactionForm`, `PeersForm` — the bodies, each
  with its `form`.
-/

namespace GossipLedger

open Json

/-- How to start a node. -/
structure StartForm where
  name : Option String := none
  address : Option String := none
  /-- Addresses with commas between them. -/
  peers : Option String := none

/-- The form as it is read. -/
def StartForm.form : Form StartForm where
  title := "struct StartNodeRequest"
  blank := {}
  fields := [
    .nullable "name" readText fun s f => { f with name := s },
    .nullable "address" readText fun s f => { f with address := s },
    .nullable "peers" readText fun s f => { f with peers := s }]

/-- A text to be sent. -/
structure MessageForm where
  text : Option String := none
  /-- The node that is to get it; without one it is for everyone. -/
  destination : Option String := none
  /-- Whether a text for everyone is flooded. -/
  broadcast : Bool := false

/-- The form as it is read. -/
def MessageForm.form : Form MessageForm where
  title := "struct MessageRequest"
  blank := {}
  fields := [
    .nullable "text" readText fun s f => { f with text := s },
    .nullable "destination" readText fun s f => { f with destination := s },
    .defaulting "broadcast" readFlag fun b f => { f with broadcast := b }]

/-- A transaction to be made. -/
structure TransactionForm where
  input : Option String := none
  output : Option String := none
  amount : Option UInt32 := none

/-- The form as it is read. -/
def TransactionForm.form : Form TransactionForm where
  title := "struct TransactionRequest"
  blank := {}
  fields := [
    .nullable "input" readText fun s f => { f with input := s },
    .nullable "output" readText fun s f => { f with output := s },
    .nullable "amount" readWord fun n f => { f with amount := n }]

/-- Peers to be made known. -/
structure PeersForm where
  /-- Addresses with commas between them. -/
  peers : Option String := none

/-- The form as it is read. -/
def PeersForm.form : Form PeersForm where
  title := "struct PeerRequest"
  blank := {}
  fields := [.nullable "peers" readText fun s f => { f with peers := s }]

end GossipLedger
