import GossipLedger.Decimal.Shortest
import GossipLedger.Json.Fault

/-!
# Diagnostics of JSON readings

The wording for JSON of another shape than expected: what was found, then what
was expected.

## Main definitions

* `decimalText`, `realText` — a floating-point number written out.
* `Found.words` — what was found.
* `Mismatch.message` — the diagnostic.
-/

namespace GossipLedger.Json

/-! ### Numbers -/

/-- A decimal number written out: positional from `1e-5` up to below `1e16`,
always with a point, and otherwise with a signed exponent. -/
def decimalText (digits : Nat) (exponent : Int) : String :=
  let ds := Nat.toDigits 10 digits
  let top := exponent + ds.length - 1
  String.ofList <|
    if -5 ≤ top && top ≤ 15 then
      if 0 ≤ exponent then ds ++ List.replicate exponent.toNat '0' ++ ['.', '0']
      else if 0 ≤ top then
        ds.take (top.toNat + 1) ++ '.' :: ds.drop (top.toNat + 1)
      else '0' :: '.' :: List.replicate (-top - 1).toNat '0' ++ ds
    else
      let mantissa := if ds.length = 1 then ds else ds.take 1 ++ '.' :: ds.drop 1
      mantissa ++ 'e' :: (if top < 0 then '-' else '+') :: Nat.toDigits 10 top.natAbs

/-- A floating-point number in its shortest decimal. -/
def realText (x : Float) : String :=
  let (negative, magnitude) := Binary.ofFloat x
  let body := match magnitude with
    | none => "0.0"
    | some b => decimalText b.shortest.1 b.shortest.2
  if negative then "-" ++ body else body

/-! ### Wording -/

/-- How a diagnostic shows a number. -/
def Numeral.words : Numeral → String
  | .whole n => "integer \x60" ++ toString n ++ "\x60"
  | .real x => "floating point \x60" ++ realText x ++ "\x60"

/-- How a diagnostic shows what was found. -/
def Found.words : Found → String
  | .null => "null"
  | .boolean b => "boolean \x60" ++ (if b then "true" else "false") ++ "\x60"
  | .number n => n.words
  | .text s => "string " ++ quotedText s
  | .sequence => "sequence"
  | .map => "map"
  | .bareVariant => "unit variant"

/-- Names between the marks that set off code, as `a` or `b`, or as one of many. -/
def knownText (known : List String) : String :=
  let marked := known.map fun s => "\x60" ++ s ++ "\x60"
  match marked with
  | [a] => a
  | [a, b] => a ++ " or " ++ b
  | _ => "one of " ++ ", ".intercalate marked

/-- The diagnostic for JSON of another shape than expected. -/
def Mismatch.message : Mismatch → String
  | .wrongType found expected => "invalid type: " ++ found.words ++ ", expected " ++ expected
  | .outOfRange n expected =>
      "invalid value: integer \x60" ++ toString n ++ "\x60, expected " ++ expected
  | .tooShort count expected => "invalid length " ++ toString count ++ ", expected " ++ expected
  | .missingField name => "missing field \x60" ++ name ++ "\x60"
  | .duplicateField name => "duplicate field \x60" ++ name ++ "\x60"
  | .unknownVariant name known =>
      "unknown variant \x60" ++ name ++ "\x60, expected " ++ knownText known
  | .badText message => message

end GossipLedger.Json
