import GossipLedger.Time.Date

/-!
# Timestamps

A timestamp is a date with a time of day in UTC, to the nanosecond.  The last
second of a minute may be followed by a leap second: its nanoseconds continue
those of the second before, from `10 ^ 9` on.

## Main definitions

* `Timestamp` — a date and a time of day.
* `Timestamp.millis` — whole milliseconds since the start of 1970.
* `Timestamp.ofMillis?` — the timestamp of a number of milliseconds.
* `Timestamp.shift?` — a local time turned into UTC.
-/

namespace GossipLedger

/-- A date and a time of day. -/
structure Timestamp where
  date : Date
  /-- Seconds since midnight. -/
  second : Nat
  /-- Nanoseconds since the second began. -/
  nano : Nat
  second_lt : second < 86400
  nano_lt : nano < 1_000_000_000 ∨ (second % 60 = 59 ∧ nano < 2_000_000_000)
  deriving DecidableEq

namespace Timestamp

/-- Whole seconds since the start of 1970. -/
def epochSeconds (t : Timestamp) : Int := t.date.dayNumber * 86400 + t.second

/-- Whole milliseconds since the start of 1970.  A leap second counts on from the
second before it. -/
def millis (t : Timestamp) : Int := t.epochSeconds * 1000 + (t.nano / 1_000_000 : Nat)

/-- The timestamp of a number of milliseconds since the start of 1970. -/
def ofMillis? (ms : Int) : Option Timestamp :=
  (Date.ofDayNumber? (ms / 86400000)).map fun date =>
    let rest := (ms % 86400000).toNat
    ⟨date, rest / 1000, rest % 1000 * 1_000_000, by omega, by omega⟩

/-- The start of 1970. -/
def epoch : Timestamp :=
  ⟨⟨1970, 1, 1, by decide, by decide⟩, 0, 0, by decide, .inl (by decide)⟩

instance : Inhabited Timestamp := ⟨epoch⟩

/-- The timestamp of a date and a time of day that is `offset` seconds ahead of
UTC, less than a day.  It may fall on a neighbouring day; a leap second stays at
the end of a minute only if the offset is a number of whole minutes. -/
def shift? (date : Date) (second nano : Nat) (offset : Int) : Option Timestamp :=
  let s := (second : Int) - offset
  let day := if s < 0 then date.previous? else if 86400 ≤ s then date.next? else some date
  let s := (s % 86400).toNat
  match day with
  | none => none
  | some day =>
      if h : s < 86400 ∧ (nano < 1_000_000_000 ∨ (s % 60 = 59 ∧ nano < 2_000_000_000)) then
        some ⟨day, s, nano, h.1, h.2⟩
      else none

end Timestamp

end GossipLedger
