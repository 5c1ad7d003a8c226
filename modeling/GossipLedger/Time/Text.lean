import GossipLedger.Text.Blank
import GossipLedger.Time.Timestamp

/-!
# Timestamps as text

A timestamp is written as `2024-01-31T23:59:59.5Z`: always in UTC, with no, three,
six or nine digits of a second's fraction, and with a sign where the year does
not have four digits.  The reader accepts more: one-digit fields, blanks around
the marks, a blank or a small `t` between date and time, any number of digits of
the fraction, `UTC` for `Z`, and an offset of hours and minutes.

## Main definitions

* `Timestamp.text` — the written form.
* `TimestampFault`, `Timestamp.parse` — the reader, with the first thing wrong.
-/

namespace GossipLedger

/-! ### Writing -/

/-- A number in decimal with zeros in front up to a width. -/
def paddedDigits (width n : Nat) : List Char :=
  let ds := Nat.toDigits 10 n
  List.replicate (width - ds.length) '0' ++ ds

/-- A year: four digits if they suffice, and otherwise a sign and at least four. -/
def yearChars (year : Int) : List Char :=
  if 0 ≤ year ∧ year ≤ 9999 then paddedDigits 4 year.toNat
  else (if year < 0 then '-' else '+') :: paddedDigits 4 year.natAbs

/-- The fraction of a second in the fewest of no, three, six or nine digits. -/
def fractionChars (nano : Nat) : List Char :=
  if nano = 0 then []
  else if nano % 1_000_000 = 0 then '.' :: paddedDigits 3 (nano / 1_000_000)
  else if nano % 1000 = 0 then '.' :: paddedDigits 6 (nano / 1000)
  else '.' :: paddedDigits 9 nano

/-- The characters of a timestamp.  A leap second is the sixtieth. -/
def Timestamp.chars (t : Timestamp) : List Char :=
  let leap := if 1_000_000_000 ≤ t.nano then 1 else 0
  yearChars t.date.year ++ '-' :: paddedDigits 2 t.date.month ++ '-' :: paddedDigits 2 t.date.day
    ++ 'T' :: paddedDigits 2 (t.second / 3600) ++ ':' :: paddedDigits 2 (t.second / 60 % 60)
    ++ ':' :: paddedDigits 2 (t.second % 60 + leap) ++ fractionChars (t.nano % 1_000_000_000) ++ ['Z']

/-- The written form of a timestamp. -/
def Timestamp.text (t : Timestamp) : String := String.ofList t.chars

/-! ### Reading -/

/-- What keeps a text from being a timestamp. -/
inductive TimestampFault
  /-- A field holds a number that it cannot have. -/
  | outOfRange
  /-- The time in UTC would lie outside the supported years. -/
  | impossible
  /-- A character stands where it cannot. -/
  | invalid
  /-- The text ends too early. -/
  | tooShort
  /-- Something follows the timestamp. -/
  | tooLong
  deriving DecidableEq, Repr

/-- The diagnostic for a text that is not a timestamp. -/
def TimestampFault.message : TimestampFault → String
  | .outOfRange => "input is out of range"
  | .impossible => "no possible date and time matching input"
  | .invalid => "input contains invalid characters"
  | .tooShort => "premature end of input"
  | .tooLong => "trailing input"

/-- The value of a decimal digit. -/
def digitOf (c : Char) : Nat := c.toNat - 48

/-- The number that digits stand for. -/
def digitsValue (ds : List Char) : Nat := ds.foldl (fun n c => 10 * n + digitOf c) 0

/-- A number of at least one and at most `width` digits. -/
def scanDigits (width : Nat) (cs : List Char) : Except TimestampFault (List Char × List Char) :=
  let ds := (cs.take width).takeWhile Char.isDigit
  match cs, ds with
  | [], _ => .error .tooShort
  | _, [] => .error .invalid
  | _, _ => .ok (ds, cs.drop ds.length)

/-- A field of one or two digits between two bounds, blanks before it allowed. -/
def scanField (low high : Nat) (cs : List Char) : Except TimestampFault (Nat × List Char) := do
  let (ds, rest) ← scanDigits 2 (trimBlankStart cs)
  let n := digitsValue ds
  if low ≤ n ∧ n ≤ high then return (n, rest) else .error .outOfRange

/-- A year: up to four digits, or a sign and any number of digits. -/
def scanYear (cs : List Char) : Except TimestampFault (Int × List Char) := do
  let cs := trimBlankStart cs
  let (year, rest) ← match cs with
    | '-' :: rest => do
        let (ds, rest) ← scanDigits rest.length rest
        pure (-(digitsValue ds : Int), rest)
    | '+' :: rest => do
        let (ds, rest) ← scanDigits rest.length rest
        pure ((digitsValue ds : Int), rest)
    | _ => do
        let (ds, rest) ← scanDigits 4 cs
        pure ((digitsValue ds : Int), rest)
  if -2_147_483_648 ≤ year ∧ year < 2_147_483_648 then return (year, rest) else .error .outOfRange

/-- A mark between two fields, blanks before it allowed. -/
def scanMark (mark : Char) (cs : List Char) : Except TimestampFault (List Char) :=
  match trimBlankStart cs with
  | [] => .error .tooShort
  | c :: rest => if c = mark then .ok rest else .error .invalid

/-- The mark between date and time. -/
def scanSeparator : List Char → Except TimestampFault (List Char)
  | [] => .error .tooShort
  | c :: rest => if c = 't' || c = 'T' || c = ' ' then .ok rest else .error .invalid

/-- The nanoseconds of a fraction, if there is one.  Digits after the ninth are
ignored. -/
def scanFraction : List Char → Except TimestampFault (Nat × List Char)
  | '.' :: rest => do
      let (ds, rest) ← scanDigits 9 rest
      return (digitsValue ds * Nat.pow 10 (9 - ds.length), rest.dropWhile Char.isDigit)
  | cs => .ok (0, cs)

/-- Two digits. -/
def scanPair : List Char → Except TimestampFault ((Nat × Nat) × List Char)
  | a :: b :: rest =>
      if a.isDigit && b.isDigit then .ok ((digitOf a, digitOf b), rest) else .error .invalid
  | [a] => if a.toNat < 128 then .error .tooShort else .error .invalid
  | [] => .error .tooShort

/-- The seconds of an offset of hours and minutes after its sign. -/
def scanOffsetAmount (cs : List Char) : Except TimestampFault (Nat × List Char) := do
  let ((h₁, h₂), rest) ← scanPair cs
  let ((m₁, m₂), rest) ← scanPair (rest.dropWhile fun c => c = ':' || isBlank c)
  if m₁ ≤ 5 then return ((10 * h₁ + h₂) * 3600 + (10 * m₁ + m₂) * 60, rest)
  else .error .outOfRange

/-- The offset from UTC in seconds. -/
def scanOffset (cs : List Char) : Except TimestampFault (Int × List Char) :=
  match cs with
  | u :: t :: c :: rest =>
      if u.toUpper = 'U' && t.toUpper = 'T' && c.toUpper = 'C' then .ok (0, rest)
      else scanNumericOffset cs
  | _ => scanNumericOffset cs
where
  /-- An offset that is not written as `UTC`. -/
  scanNumericOffset : List Char → Except TimestampFault (Int × List Char)
    | [] => .error .tooShort
    | c :: rest =>
        if c = 'Z' || c = 'z' then .ok (0, rest)
        else if c = '+' then (scanOffsetAmount rest).map fun r => ((r.1 : Int), r.2)
        else if c = '-' || c = '\u2212' then
          (scanOffsetAmount rest).map fun r => (-(r.1 : Int), r.2)
        else .error .invalid

/-- The timestamp written in a list of characters. -/
def Timestamp.parseChars (cs : List Char) : Except TimestampFault Timestamp := do
  let (year, cs) ← scanYear cs
  let cs ← scanMark '-' cs
  let (month, cs) ← scanField 1 12 cs
  let cs ← scanMark '-' cs
  let (day, cs) ← scanField 1 31 cs
  let cs ← scanSeparator cs
  let (hour, cs) ← scanField 0 23 cs
  let cs ← scanMark ':' cs
  let (minute, cs) ← scanField 0 59 cs
  let cs ← scanMark ':' cs
  let (second, cs) ← scanField 0 60 cs
  let (nano, cs) ← scanFraction cs
  let (offset, cs) ← scanOffset (trimBlankStart cs)
  if !(trimBlankStart cs).isEmpty then .error .tooLong
  else match Date.ofParts? year month day with
    | none => .error .outOfRange
    | some date =>
        if 86400 ≤ offset.natAbs then .error .outOfRange
        else
          let leap := if second = 60 then 1 else 0
          match shift? date (hour * 3600 + minute * 60 + (second - leap)) (nano + leap * 1_000_000_000)
              offset with
          | none => .error .impossible
          | some t => .ok t

/-- The timestamp written in a text. -/
def Timestamp.parse (s : String) : Except TimestampFault Timestamp := parseChars s.toList

end GossipLedger
