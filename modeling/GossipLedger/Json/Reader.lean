import GossipLedger.Json.Scan

/-!
# Reading values of a known shape

Each reader walks the tree of a text from left to right and stops at the first
thing that is wrong.  A record is read by the names of its fields, in any order
and with unknown members skipped, or from a list of its fields in their order.
A value with alternatives is a record of one member, named for the alternative.

## Main definitions

* `readText`, `readNatural`, `readReal`, `readFlag`, `readList`, `readNullable` —
  readers for plain values.
* `Form` — a record with its fields, and `Form.read`.
* `readVariant` — a value with alternatives.
* `readDocument`, `readLeading` — a whole text, and a text whose end is ignored.
-/

namespace GossipLedger.Json

/-- A value that breaks the grammar where it is read. -/
def flawed {α : Type} (f : Flaw) : Reading α := .error (.flaw f)

/-- A value of another shape than expected. -/
def mismatch {α : Type} (m : Mismatch) : Reading α := .error (.mismatch m)

/-- The complaint about a value of another type.  A text or a number is read
before it is complained about; lists and records are not looked into. -/
def wrongType {α : Type} (expected : String) : Value → Reading α
  | .null => mismatch (.wrongType .null expected)
  | .boolean b => mismatch (.wrongType (.boolean b) expected)
  | .number n => match n.value with
    | .error f => flawed f
    | .ok v => mismatch (.wrongType (.number v) expected)
  | .text t => match t.content with
    | .error f => flawed f
    | .ok s => mismatch (.wrongType (.text s) expected)
  | .list _ => mismatch (.wrongType .sequence expected)
  | .record _ => mismatch (.wrongType .map expected)
  | .absent => flawed .truncated
  | .broken met _ => flawed met

/-! ### Plain values -/

/-- A text. -/
def readTextAs (expected : String) : Value → Reading String
  | .text t => match t.content with
    | .error f => flawed f
    | .ok s => .ok s
  | v => wrongType expected v

/-- A text. -/
def readText : Value → Reading String := readTextAs "a string"

/-- A whole number from zero up to below `bound`. -/
def readNatural (bound : Nat) (expected : String) : Value → Reading Nat
  | .number n => match n.value with
    | .error f => flawed f
    | .ok (.whole k) =>
        if 0 ≤ k ∧ k < bound then .ok k.toNat else mismatch (.outOfRange k expected)
    | .ok (.real x) => mismatch (.wrongType (.number (.real x)) expected)
  | v => wrongType expected v

/-- A whole number of 32 bits. -/
def readWord (v : Value) : Reading UInt32 := (readNatural UInt32.size "u32" v).map UInt32.ofNat

/-- A number, whole or not. -/
def readReal : Value → Reading Float
  | .number n => match n.value with
    | .error f => flawed f
    | .ok (.whole k) => .ok (Float.ofInt k)
    | .ok (.real x) => .ok x
  | v => wrongType "f64" v

/-- A truth value. -/
def readFlag : Value → Reading Bool
  | .boolean b => .ok b
  | v => wrongType "a boolean" v

/-- A value that may be left open by writing `null`. -/
def readNullable {α : Type} (read : Value → Reading α) : Value → Reading (Option α)
  | .null => .ok none
  | v => (read v).map some

/-- The items of a list from some place on. -/
def readItems {α : Type} (read : Value → Reading α) : Items → Reading (List α)
  | .closed => .ok []
  | .broken f => flawed f
  | .more v rest => do
      let a ← read v
      let as ← readItems read rest
      return a :: as

/-- A list of values of one shape. -/
def readList {α : Type} (read : Value → Reading α) : Value → Reading (List α)
  | .list items => readItems read items
  | v => wrongType "a sequence" v

/-! ### Records -/

/-- What it means that a field is not given. -/
inductive Presence
  /-- It must be given. -/
  | required
  /-- A record may leave it out, a list of the fields may not. -/
  | optional
  /-- It may always be left out. -/
  | defaulted
  deriving DecidableEq, Repr

/-- A field of a record under construction. -/
structure Field (α : Type) where
  /-- The name of the field. -/
  name : String
  /-- Whether it may be left out. -/
  presence : Presence
  /-- The record with the field set to what is read from a value. -/
  put : Value → α → Reading α

/-- A required field with its reader and the way to set it. -/
def Field.of {α β : Type} (name : String) (read : Value → Reading β) (set : β → α → α) : Field α :=
  ⟨name, .required, fun v a => (read v).map fun b => set b a⟩

/-- A field that may be left out, with its reader and the way to set it. -/
def Field.defaulting {α β : Type} (name : String) (read : Value → Reading β)
    (set : β → α → α) : Field α :=
  ⟨name, .defaulted, fun v a => (read v).map fun b => set b a⟩

/-- A field that may be `null` and that a record may leave out, with its reader and
the way to set it. -/
def Field.nullable {α β : Type} (name : String) (read : Value → Reading β)
    (set : Option β → α → α) : Field α :=
  ⟨name, .optional, fun v a => (readNullable read v).map fun b => set b a⟩

/-- The shape of a record. -/
structure Form (α : Type) where
  /-- What a diagnostic calls the record. -/
  title : String
  /-- The record before any of its fields is set. -/
  blank : α
  /-- The fields in their order. -/
  fields : List (Field α)

namespace Form

variable {α : Type} (form : Form α)

/-- The fields still to come in a list of the fields, `index` of which were
given.  A list may end early before fields that may be left out; nothing may
follow the last one. -/
def readPositions (count index : Nat) : List (Field α) → Items → α → Reading α
  | [], .closed, a => .ok a
  | [], .more _ _, _ => flawed .malformed
  | [], .broken f, _ => flawed f
  | field :: fields, .closed, a =>
      if field.presence = .defaulted then readPositions count index fields .closed a
      else mismatch (.tooShort index
        (form.title ++ " with " ++ toString count
          ++ (if count = 1 then " element" else " elements")))
  | _ :: _, .broken f, _ => flawed f
  | field :: fields, .more v rest, a => do
      let a ← field.put v a
      readPositions count (index + 1) fields rest a

/-- The members from some place on, the names of those before being `given`. -/
def readMembers (given : List String) : Members → α → Reading α
  | .closed, a =>
      match form.fields.find? fun f => f.presence = .required ∧ f.name ∉ given with
      | some f => mismatch (.missingField f.name)
      | none => .ok a
  | .broken f, _ => flawed f
  | .keyless f, _ => flawed f
  | .more key v rest, a =>
      match key.content with
      | .error f => flawed f
      | .ok name =>
          match form.fields.find? fun f => f.name = name with
          | none => match v.skip with
            | some f => flawed f
            | none => readMembers given rest a
          | some field =>
              if name ∈ given then mismatch (.duplicateField name)
              else do
                let a ← field.put v a
                readMembers (name :: given) rest a

/-- A record, given by the names of its fields or as a list of them. -/
def read : Value → Reading α
  | .record members => form.readMembers [] members form.blank
  | .list items => form.readPositions form.fields.length 0 form.fields items form.blank
  | v => wrongType form.title v

end Form

/-! ### Alternatives -/

/-- An alternative of a value. -/
structure Variant (α : Type) where
  /-- The name of the alternative. -/
  name : String
  /-- What a diagnostic misses where the name stands alone. -/
  body : String
  /-- The value that goes with the name. -/
  read : Value → Reading α

/-- The alternative of a given name. -/
def findVariant {α : Type} (variants : List (Variant α)) (name : String) : Reading (Variant α) :=
  match variants.find? fun v => v.name = name with
  | some v => .ok v
  | none => mismatch (.unknownVariant name (variants.map Variant.name))

/-- A value with alternatives: a record of one member.  Whatever is neither a text
nor a record is not even looked into, and after the member nothing but the end of
the record will do. -/
def readVariant {α : Type} (variants : List (Variant α)) : Value → Reading α
  | .record (.more key v rest) =>
      match key.content with
      | .error f => flawed f
      | .ok name => do
          let variant ← findVariant variants name
          let a ← variant.read v
          match rest with
          | .closed => return a
          | .broken f => flawed f
          | _ => flawed .malformed
  | .record (.keyless f) => flawed f
  | .record .closed => flawed .malformed
  | .record (.broken f) => flawed f
  | .text t =>
      match t.content with
      | .error f => flawed f
      | .ok name => do
          let variant ← findVariant variants name
          mismatch (.wrongType .bareVariant variant.body)
  | .absent => flawed .truncated
  | _ => flawed .malformed

/-! ### Texts -/

/-- The value at the beginning of a text, whatever follows it. -/
def readLeading {α : Type} (read : Value → Reading α) (text : Bytes) : Reading α :=
  read (Value.scan text).1

/-- The value of a text that holds nothing else. -/
def readDocument {α : Type} (read : Value → Reading α) (text : Bytes) : Reading α := do
  let (v, rest) := Value.scan text
  let a ← read v
  if (dropSpace rest).isEmpty then return a else flawed .malformed

end GossipLedger.Json
