import GossipLedger.Catalog
import GossipLedger.Wire.Packet

/-!
# Message stores

Messages are numbered by their origin from one on.  A store keeps the messages of
each origin as far as it has them without a gap, and a status vector says for
each origin which number comes next.

Numbers have 32 bits.  After the last one comes zero, and then they come again; a
store goes on with them.

## Main definitions

* `Sequenced` — messages with an origin and a number.
* `StatusVector` — the next number of each origin, and what it is on the wire.
* `MessageStore` — the messages of each origin in order, with the `length` of each log.
* `MessageStore.last` — the number of the last message of an origin.
* `MessageStore.append?` — the store with the next message of its origin.
* `MessageStore.compare`, `firstGap?`, `statusVector` — what a store says about
  numbers and about what another store lacks.
-/

namespace GossipLedger

/-- Messages that are numbered by their origin. -/
class Sequenced (α : Type) where
  origin : α → String
  sequence : α → UInt32

instance : Sequenced Rumor := ⟨Rumor.origin, Rumor.sequence⟩

instance : Sequenced PrivateMessage := ⟨PrivateMessage.origin, PrivateMessage.sequence⟩

/-- A number compared with what is stored of its origin. -/
inductive Freshness
  /-- Past the last message, or of an unknown origin. -/
  | new
  /-- The number of the last message. -/
  | inSync
  /-- A number before that of the last message. -/
  | old
  deriving DecidableEq, Repr

/-! ### Status vectors -/

/-- The number that comes next for each origin. -/
abbrev StatusVector := NameMap UInt32

namespace StatusVector

/-- The entries of a status as a vector.  Of several for one origin the last
counts. -/
def ofWant (entries : List PeerStatus) : StatusVector :=
  Catalog.ofList (entries.map fun e => (e.identifier, e.nextSequence))

/-- A vector as the entries of a status. -/
def toWant (v : StatusVector) : List PeerStatus := v.toList.map fun e => ⟨e.1, e.2⟩

end StatusVector

/-! ### Stores -/

/-- The messages of each origin, oldest first. -/
abbrev MessageStore (α : Type) := NameMap (List α)

namespace MessageStore

variable {α : Type}

/-- The messages of an origin. -/
def log (s : MessageStore α) (origin : String) : List α := (s.get? origin).getD []

/-- How many messages there are of an origin. -/
def length (s : MessageStore α) (origin : String) : Nat := (s.log origin).length

/-- The number of the last message of an origin, zero if there is none. -/
def last (s : MessageStore α) (origin : String) : UInt32 := UInt32.ofNat (s.length origin)

/-- A number compared with what is stored of its origin. -/
def compare (s : MessageStore α) (origin : String) (sequence : UInt32) : Freshness :=
  if s.contains origin then
    if s.last origin < sequence then .new
    else if sequence = s.last origin then .inSync
    else .old
  else .new

/-- The store with the next message of its origin; nothing if it is not the
next. -/
def append? [Sequenced α] (s : MessageStore α) (m : α) : Option (MessageStore α) :=
  let origin := Sequenced.origin m
  if Sequenced.sequence m = s.last origin + 1 then
    some (s.set origin (s.log origin ++ [m]))
  else none

/-- The message of an origin with a given number. -/
def message? (s : MessageStore α) (origin : String) (sequence : UInt32) : Option α :=
  if sequence = 0 then none else (s.log origin)[sequence.toNat - 1]?

/-- The number that comes next for each origin with messages. -/
def statusVector (s : MessageStore α) : StatusVector :=
  Catalog.ofList (s.toList.map fun e => (e.1, UInt32.ofNat (e.2.length + 1)))

/-- The first message of the first origin that a status vector lacks. -/
def firstGap? (s : MessageStore α) (theirs : StatusVector) : Option α :=
  match s.toList.find? fun e => !theirs.contains e.1 with
  | some e => e.2.head?
  | none => none

/-- The last message of each origin. -/
def latest (s : MessageStore α) : List α := s.toList.filterMap fun e => e.2.getLast?

/-- The number of messages. -/
def count (s : MessageStore α) : Nat := (s.toList.map fun e => e.2.length).foldr (· + ·) 0

end MessageStore

end GossipLedger
