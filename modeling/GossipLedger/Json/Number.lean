import GossipLedger.Bytes
import GossipLedger.Json.Fault

/-!
# Numbers of a JSON text

A number is a sign, whole digits, an optional fraction and an optional exponent.
Without fraction and exponent it is a whole number as long as it fits in 64
bits, signed if negative.  Any other number is a floating-point number: the
digits that fit in 64 bits form an integer, rounded once, which is multiplied or
divided by a power of ten, rounded again.

A number that is skipped rather than read only has to follow the grammar.

## Main definitions

* `NumberText` — the parts of a number as written.
* `NumberText.scan` — the number at the beginning of a text.
* `NumberText.value` — the number it denotes.
-/

namespace GossipLedger.Json

/-- Whether a byte is a decimal digit. -/
def isDigit (b : UInt8) : Bool := 48 ≤ b && b ≤ 57

/-- The value of a decimal digit. -/
def digitValue (b : UInt8) : Nat := b.toNat - 48

/-- The parts of a number as written. -/
structure NumberText where
  /-- Whether a minus sign stands in front. -/
  negative : Bool
  /-- The digits before the point. -/
  whole : List Nat
  /-- The digits after the point, if there is one. -/
  fraction : Option (List Nat)
  /-- The exponent, if there is one: whether it is negative, and its digits. -/
  exponent : Option (Bool × List Nat)
  deriving DecidableEq, Repr

namespace NumberText

/-- The leading digits of a text and the text after them. -/
def spanDigits (text : Bytes) : List Nat × Bytes :=
  ((text.takeWhile isDigit).map digitValue, text.dropWhile isDigit)

/-- What is missing at a place where a digit must follow. -/
def digitFlaw : Bytes → Flaw
  | [] => .truncated
  | _ => .malformed

/-- The exponent after the parts read so far, and the text after it. -/
def scanExponent (number : NumberText) (text : Bytes) : Except Flaw (NumberText × Bytes) :=
  match text with
  | b :: rest =>
      if b = 101 || b = 69 then
        let (negative, rest) :=
          match rest with
          | s :: after =>
            if s = 43 then (false, after) else if s = 45 then (true, after) else (false, rest)
          | [] => (false, rest)
        let (digits, after) := spanDigits rest
        if digits.isEmpty then .error (digitFlaw after)
        else .ok ({ number with exponent := some (negative, digits) }, after)
      else .ok (number, text)
  | [] => .ok (number, text)

/-- The fraction and the exponent after the whole digits, and the text after. -/
def scanFraction (number : NumberText) (text : Bytes) : Except Flaw (NumberText × Bytes) :=
  match text with
  | b :: rest =>
      if b = 46 then
        let (digits, after) := spanDigits rest
        if digits.isEmpty then .error (digitFlaw after)
        else scanExponent { number with fraction := some digits } after
      else scanExponent number text
  | [] => .ok (number, text)

/-- The number at the beginning of a text, and the text after it.  No digit may
follow a leading zero. -/
def scan (text : Bytes) : Except Flaw (NumberText × Bytes) :=
  let (negative, text) :=
    match text with
    | b :: rest => if b = 45 then (true, rest) else (false, text)
    | [] => (false, text)
  let (digits, after) := spanDigits text
  match digits with
  | [] => .error (digitFlaw after)
  | 0 :: _ :: _ => .error .malformed
  | _ => scanFraction ⟨negative, digits, none, none⟩ after

/-! ### Value -/

/-- Digits appended to a number as long as it stays below `2 ^ 64`: the number,
and the digits that are left over. -/
def gather (n : Nat) : List Nat → Nat × List Nat
  | [] => (n, [])
  | d :: ds => if 10 * n + d < UInt64.size then gather (10 * n + d) ds else (n, d :: ds)

/-- The digits of an exponent as a number. -/
def exponentValue : Option (Bool × List Nat) → Int
  | none => 0
  | some (negative, digits) =>
      let n : Nat := digits.foldl (fun n d => 10 * n + d) 0
      if negative then -n else n

/-- A power of ten up to `10 ^ 308`, rounded once. -/
def powerOfTen (n : Nat) : Float := Float.ofScientific 1 false n

/-- A number multiplied by a power of ten, or nothing if that is too large.
Below `10 ^ (-308)` it is divided in stages; after `fuel` of them nothing is left
of any number below `2 ^ 64`. -/
def scale : Nat → Float → Int → Option Float
  | 0, x, _ => some x
  | fuel + 1, x, e =>
      if e.natAbs ≤ 308 then
        if 0 ≤ e then
          let y := x * powerOfTen e.natAbs
          if y.isInf then none else some y
        else some (x / powerOfTen e.natAbs)
      else if x == 0 then some x
      else if 0 ≤ e then none
      else scale fuel (x / powerOfTen 308) (e + 308)

/-- The floating-point number denoted by the parts. -/
def realValue (number : NumberText) : Option Float :=
  let (n, left) := gather 0 number.whole
  let fraction := number.fraction.getD []
  let (m, unused) := gather n fraction
  let e := (left.length : Int) - (fraction.length - unused.length : Nat)
    + exponentValue number.exponent
  (scale 4 (UInt64.ofNat m).toFloat e).map fun x => if number.negative then -x else x

/-- The number denoted by the parts.  A number too large for a floating-point
number is refused. -/
def value (number : NumberText) : Except Flaw Numeral :=
  let real := match number.realValue with
    | some x => .ok (.real x)
    | none => .error .malformed
  match number.fraction, number.exponent, gather 0 number.whole with
  | none, none, (n, []) =>
      if !number.negative then .ok (.whole n)
      else if 0 < n && n ≤ UInt64.size / 2 then .ok (.whole (-n))
      else real
  | _, _, _ => real

end NumberText

end GossipLedger.Json
