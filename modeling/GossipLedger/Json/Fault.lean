import GossipLedger.Text.Quoted

/-!
# What can be wrong with a JSON text

A text is read from left to right for a value of an expected shape, and the
first thing that is wrong decides: the text breaks the grammar, it ends too
early, or it is fine so far but holds something else than what is expected.

## Main definitions

* `Flaw` — a text that is not JSON.
* `Mismatch` — JSON of another shape than expected, with its diagnostic.
* `Fault` — either of the two.
-/

namespace GossipLedger.Json

/-- A text that is not JSON. -/
inductive Flaw
  /-- A character stands where the grammar does not allow it. -/
  | malformed
  /-- The text ends inside a value. -/
  | truncated
  deriving DecidableEq, Repr

/-- A number of a JSON text: whole, if it is written without point and exponent
and fits in 64 bits, and a floating-point number otherwise. -/
inductive Numeral
  | whole (value : Int)
  | real (value : Float)
  deriving Repr

/-- What was found in place of what was expected. -/
inductive Found
  | null
  | boolean (value : Bool)
  | number (value : Numeral)
  | text (value : String)
  | sequence
  | map
  | bareVariant
  deriving Repr

/-- JSON of another shape than expected. -/
inductive Mismatch
  /-- A value of another type. -/
  | wrongType (found : Found) (expected : String)
  /-- A whole number outside the range of its type. -/
  | outOfRange (value : Int) (expected : String)
  /-- A sequence that ends before the fields it stands for. -/
  | tooShort (count : Nat) (expected : String)
  /-- A field that must be given is not. -/
  | missingField (name : String)
  /-- A field is given twice. -/
  | duplicateField (name : String)
  /-- An alternative of another name. -/
  | unknownVariant (name : String) (known : List String)
  /-- A text that does not denote what it should, with the diagnostic of its own
  reader. -/
  | badText (message : String)
  deriving Repr

/-- The first thing wrong with a text. -/
inductive Fault
  | flaw (flaw : Flaw)
  | mismatch (mismatch : Mismatch)
  deriving Repr

/-- A result of reading JSON. -/
abbrev Reading (α : Type) := Except Fault α

end GossipLedger.Json
