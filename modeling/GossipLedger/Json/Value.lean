import GossipLedger.Bytes.Hex
import GossipLedger.Json.Number

/-!
# JSON as far as it is well formed

A text is scanned once into a tree that keeps what a reader going from left to
right would meet: the values in their order, and at the place where the text
breaks off or breaks the grammar, the flaw.  A reader that wants certain values
walks the tree in the same order, so that of two things wrong with a text the
earlier one is reported, whichever kind it is.

A value that nobody asks for is skipped, and skipping is more lenient than
reading: a skipped text may hold surrogates without partner and bytes that are
no UTF-8, a skipped number may be too large.

## Main definitions

* `TextUnit`, `RawText` — a text between quotes, as written.
* `RawText.content` — the text it denotes.
* `Value`, `Items`, `Members` — the tree.
* `Value.skip` — the first flaw that a reader meets who skips the value.
-/

namespace GossipLedger.Json

/-! ### Texts -/

/-- One unit of a text between quotes. -/
inductive TextUnit
  /-- A byte that stands for itself, or that a short escape stands for. -/
  | byte (value : UInt8)
  /-- A 16-bit unit given by four hexadecimal digits. -/
  | code (value : Nat)
  deriving DecidableEq, Repr

/-- A text between quotes as written. -/
structure RawText where
  /-- The units before the closing quote or the flaw. -/
  units : List TextUnit
  /-- What is wrong in place of a closing quote. -/
  flaw : Option Flaw
  deriving DecidableEq, Repr

/-- Whether a 16-bit unit is the first half of a pair. -/
def isHighSurrogate (n : Nat) : Bool := 0xD800 ≤ n && n < 0xDC00

/-- Whether a 16-bit unit is the second half of a pair. -/
def isLowSurrogate (n : Nat) : Bool := 0xDC00 ≤ n && n < 0xE000

/-- The bytes that the units of a text stand for.  Halves of pairs only come
together; where the text breaks off after a first half, its own flaw counts. -/
def unitBytes (flaw : Option Flaw) : List TextUnit → Except Flaw Bytes
  | [] => match flaw with
    | none => .ok []
    | some f => .error f
  | .byte b :: rest => (unitBytes flaw rest).map (b :: ·)
  | .code n :: rest =>
      if isLowSurrogate n then .error .malformed
      else if isHighSurrogate n then
        match rest with
        | .code m :: rest =>
            if isLowSurrogate m then
              let c := 0x10000 + (n - 0xD800) * 0x400 + (m - 0xDC00)
              (unitBytes flaw rest).map (String.utf8EncodeChar (Char.ofNat c) ++ ·)
            else .error .malformed
        | [] => .error (if flaw = some .truncated then .truncated else .malformed)
        | .byte _ :: _ => .error .malformed
      else (unitBytes flaw rest).map (String.utf8EncodeChar (Char.ofNat n) ++ ·)

/-- The text denoted by what stands between the quotes. -/
def RawText.content (t : RawText) : Except Flaw String :=
  match unitBytes t.flaw t.units with
  | .error f => .error f
  | .ok bytes => match ofUtf8? bytes with
    | none => .error .malformed
    | some s => .ok s

/-! ### Trees -/

mutual

/-- A value as far as it is well formed. -/
inductive Value
  | null
  | boolean (value : Bool)
  | number (value : NumberText)
  | text (value : RawText)
  /-- The items of a list. -/
  | list (items : Items)
  /-- The members of a record. -/
  | record (members : Members)
  /-- The text ends before a value. -/
  | absent
  /-- A value that breaks off or breaks the grammar: what a reader meets here, and
  what one who skips it. -/
  | broken (met : Flaw) (skipped : Flaw)

/-- The items of a list from some place on. -/
inductive Items
  | closed
  /-- Neither a comma nor the end of the list. -/
  | broken (flaw : Flaw)
  | more (value : Value) (rest : Items)

/-- The members of a record from some place on. -/
inductive Members
  | closed
  /-- Neither a member nor a comma nor the end of the record. -/
  | broken (flaw : Flaw)
  /-- A comma without the key that must follow it, or something other than a key. -/
  | keyless (flaw : Flaw)
  | more (key : RawText) (value : Value) (rest : Members)

end

mutual

/-- The first flaw that a reader meets who skips the value. -/
def Value.skip : Value → Option Flaw
  | .null => none
  | .boolean _ => none
  | .number _ => none
  | .text t => t.flaw
  | .list items => items.skip
  | .record members => members.skip
  | .absent => some .truncated
  | .broken _ skipped => some skipped

/-- The first flaw among the items of a skipped list. -/
def Items.skip : Items → Option Flaw
  | .closed => none
  | .broken f => some f
  | .more v rest => match v.skip with
    | some f => some f
    | none => rest.skip

/-- The first flaw among the members of a skipped record. -/
def Members.skip : Members → Option Flaw
  | .closed => none
  | .broken f => some f
  | .keyless f => some f
  | .more key v rest => match key.flaw with
    | some f => some f
    | none => match v.skip with
      | some f => some f
      | none => rest.skip

end

end GossipLedger.Json
