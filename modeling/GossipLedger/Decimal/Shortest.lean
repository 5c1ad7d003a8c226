/-!
# The shortest decimal of a binary fraction

A finite binary floating-point number is `m * 2 ^ q`, and every real of an
interval around it rounds to it; the ends belong to the interval when `m` is
even.  Its shortest decimal is the decimal of that interval with the fewest
digits, and of several with equally few the one nearest to the number.

For each number of digits only the two neighbours of the number on that decimal
grid are tried: if any point of the grid lies in the interval, one of them does.

## Main definitions

* `Binary` — a positive binary fraction with the shape of its interval.
* `Binary.shortest` — the digits and the decimal exponent of its shortest decimal.
* `Binary.ofFloat` — the sign and the magnitude of a finite number.
-/

namespace GossipLedger

/-- A positive number `mantissa * 2 ^ exponent`. -/
structure Binary where
  /-- The integer mantissa. -/
  mantissa : Nat
  /-- The exponent of two. -/
  exponent : Int
  /-- Whether the next smaller number is only half as far as the next larger. -/
  narrowBelow : Bool
  deriving DecidableEq, Repr

namespace Binary

/-- A power with an integer exponent, as a numerator and a denominator. -/
def powFrac (base : Nat) (e : Int) : Nat × Nat := (Nat.pow base e.toNat, Nat.pow base (-e).toNat)

/-- Whether `d * 10 ^ e` rounds to the number. -/
def covers (x : Binary) (d : Nat) (e : Int) : Bool :=
  let (up, down) := powFrac 2 (x.exponent - 2)
  let (tenUp, tenDown) := powFrac 10 e
  let point := d * tenUp * down
  let low := (4 * x.mantissa - if x.narrowBelow then 1 else 2) * up * tenDown
  let high := (4 * x.mantissa + 2) * up * tenDown
  if x.mantissa % 2 = 0 then low ≤ point && point ≤ high else low < point && point < high

/-- The greatest `d` for which `d * 10 ^ e` is not above the number. -/
def floorAt (x : Binary) (e : Int) : Nat :=
  let (up, down) := powFrac 2 x.exponent
  let (tenUp, tenDown) := powFrac 10 e
  x.mantissa * up * tenDown / (down * tenUp)

/-- Whether the number lies below the middle of `d * 10 ^ e` and the next point
of that grid, or in the middle with `d` even. -/
def nearFloor (x : Binary) (d : Nat) (e : Int) : Bool :=
  let (up, down) := powFrac 2 x.exponent
  let (tenUp, tenDown) := powFrac 10 e
  let twice := 2 * x.mantissa * up * tenDown
  let middle := (2 * d + 1) * down * tenUp
  twice < middle || (twice = middle && d % 2 = 0)

/-- The place of the first digit: `10 ^ magnitude` is the largest power of ten
not above the number.  No finite number of 64 bits is below `10 ^ (-340)`. -/
def magnitude (x : Binary) : Int :=
  ((Nat.toDigits 10 (x.floorAt (-340))).length : Int) - 341

/-- The decimal on the coarsest grid, from `10 ^ e` down, that has a point in the
interval. -/
def search (x : Binary) : Nat → Int → Nat × Int
  | 0, e => (x.floorAt e, e)
  | fuel + 1, e =>
      let d := x.floorAt e
      match x.covers d e && d != 0, x.covers (d + 1) e with
      | true, true => if x.nearFloor d e then (d, e) else (d + 1, e)
      | true, false => (d, e)
      | false, true => (d + 1, e)
      | false, false => search x fuel (e - 1)

/-- A decimal without its last zeros, at most `fuel` of them. -/
def dropZeros : Nat → Nat × Int → Nat × Int
  | 0, r => r
  | fuel + 1, (d, e) => if d % 10 = 0 then dropZeros fuel (d / 10, e + 1) else (d, e)

/-- The digits and the decimal exponent of the shortest decimal.  Seventeen
digits tell any two numbers of 64 bits apart. -/
def shortest (x : Binary) : Nat × Int := dropZeros 17 (x.search 17 x.magnitude)

/-- The sign of a finite number and its magnitude, absent at zero. -/
def ofFloat (x : Float) : Bool × Option Binary :=
  let bits : Nat := x.toBits.toNat
  let fraction : Nat := bits % (1 <<< 52)
  let field : Nat := (bits >>> 52) % (1 <<< 11)
  let magnitude : Option Binary :=
    if field = 0 then
      if fraction = 0 then none else some ⟨fraction, -1074, false⟩
    else some ⟨(1 <<< 52) + fraction, (field : Int) - 1075, fraction = 0 && field != 1⟩
  ((1 <<< 63) ≤ bits, magnitude)

end Binary

end GossipLedger
