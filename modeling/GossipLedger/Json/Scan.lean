import GossipLedger.Json.Value

/-!
# Scanning JSON

The scanner turns bytes into the tree of `GossipLedger.Json.Value`.  It never
fails: where the grammar ends, the tree records the flaw.

## Main definitions

* `scanText` — the text after an opening quote.
* `scanValue` — the value at the beginning of a text, and the text after it.
* `Value.scan` — the same with the bound on the recursion supplied.
-/

namespace GossipLedger.Json

/-! ### Characters of the grammar -/

abbrev Mark.quote : UInt8 := 34
abbrev Mark.comma : UInt8 := 44
abbrev Mark.minus : UInt8 := 45
abbrev Mark.colon : UInt8 := 58
abbrev Mark.openList : UInt8 := 91
abbrev Mark.backslash : UInt8 := 92
abbrev Mark.closeList : UInt8 := 93
abbrev Mark.openRecord : UInt8 := 123
abbrev Mark.closeRecord : UInt8 := 125

/-- The blanks between the parts of a text. -/
def isSpace (b : UInt8) : Bool := b = 32 || b = 9 || b = 10 || b = 13

/-- A text without its leading blanks. -/
def dropSpace (text : Bytes) : Bytes := text.dropWhile isSpace

/-! ### Texts -/

/-- The 16-bit unit of four hexadecimal digits. -/
def hexUnit? (a b c d : UInt8) : Option Nat := do
  return 4096 * (← hexValue? a) + 256 * (← hexValue? b) + 16 * (← hexValue? c) + (← hexValue? d)

/-- The byte that a short escape stands for. -/
def shortEscape? (b : UInt8) : Option UInt8 :=
  if b = Mark.quote || b = Mark.backslash || b = 47 then some b
  else if b = 98 then some 8
  else if b = 102 then some 12
  else if b = 110 then some 10
  else if b = 114 then some 13
  else if b = 116 then some 9
  else none

/-- One more unit in front of a scanned text. -/
def consUnit (u : TextUnit) (scanned : RawText × Bytes) : RawText × Bytes :=
  ({ scanned.1 with units := u :: scanned.1.units }, scanned.2)

/-- The text after an opening quote, and what follows its closing quote.  A
control character must be escaped. -/
def scanText : Bytes → RawText × Bytes
  | [] => (⟨[], some .truncated⟩, [])
  | b :: rest =>
      if b = Mark.quote then (⟨[], none⟩, rest)
      else if b = Mark.backslash then
        match rest with
        | [] => (⟨[], some .truncated⟩, [])
        | e :: rest =>
            if e = 117 then
              match rest with
              | h₁ :: h₂ :: h₃ :: h₄ :: rest =>
                  match hexUnit? h₁ h₂ h₃ h₄ with
                  | some n => consUnit (.code n) (scanText rest)
                  | none => (⟨[], some .malformed⟩, [])
              | _ => (⟨[], some .truncated⟩, [])
            else match shortEscape? e with
              | some c => consUnit (.byte c) (scanText rest)
              | none => (⟨[], some .malformed⟩, [])
      else if b < 32 then (⟨[], some .malformed⟩, [])
      else consUnit (.byte b) (scanText rest)

/-! ### Values -/

/-- The value `v`, if the text goes on with the letters of its name. -/
def scanName (v : Value) : Bytes → Bytes → Value × Bytes
  | [], text => (v, text)
  | _ :: _, [] => (.broken .truncated .truncated, [])
  | letter :: letters, b :: text =>
      if b = letter then scanName v letters text else (.broken .malformed .malformed, [])

/-- The number at the beginning of a text.  To one who skips it, a number that
breaks off is as bad as any other broken number. -/
def scanNumber (text : Bytes) : Value × Bytes :=
  match NumberText.scan text with
  | .ok (number, rest) => (.number number, rest)
  | .error f => (.broken f .malformed, [])

mutual

/-- The value at the beginning of a text and the text after it.  Every byte needs
at most two steps. -/
def scanValue : Nat → Bytes → Value × Bytes
  | 0, _ => (.absent, [])
  | fuel + 1, text => match dropSpace text with
    | [] => (.absent, [])
    | b :: rest =>
        if b = Mark.quote then
          let (t, rest) := scanText rest
          (.text t, rest)
        else if b = Mark.openRecord then
          let (members, rest) := scanMembers fuel rest
          (.record members, rest)
        else if b = Mark.openList then
          let (items, rest) := scanItems fuel rest
          (.list items, rest)
        else if b = Mark.minus || isDigit b then scanNumber (b :: rest)
        else if b = 110 then scanName .null [117, 108, 108] rest
        else if b = 116 then scanName (.boolean true) [114, 117, 101] rest
        else if b = 102 then scanName (.boolean false) [97, 108, 115, 101] rest
        else (.broken .malformed .malformed, [])

/-- The items after the opening of a list. -/
def scanItems : Nat → Bytes → Items × Bytes
  | 0, _ => (.broken .truncated, [])
  | fuel + 1, text => match dropSpace text with
    | [] => (.broken .truncated, [])
    | b :: rest =>
        if b = Mark.closeList then (.closed, rest)
        else
          let (v, rest) := scanValue fuel (b :: rest)
          let (items, rest) := scanMoreItems fuel rest
          (.more v items, rest)

/-- The items after an item. -/
def scanMoreItems : Nat → Bytes → Items × Bytes
  | 0, _ => (.broken .truncated, [])
  | fuel + 1, text => match dropSpace text with
    | [] => (.broken .truncated, [])
    | b :: rest =>
        if b = Mark.closeList then (.closed, rest)
        else if b = Mark.comma then
          let (v, rest) := scanValue fuel rest
          let (items, rest) := scanMoreItems fuel rest
          (.more v items, rest)
        else (.broken .malformed, [])

/-- The members after the opening of a record. -/
def scanMembers : Nat → Bytes → Members × Bytes
  | 0, _ => (.broken .truncated, [])
  | fuel + 1, text => match dropSpace text with
    | [] => (.broken .truncated, [])
    | b :: rest =>
        if b = Mark.closeRecord then (.closed, rest)
        else scanMember fuel (b :: rest)

/-- A member that must stand here, and those after it. -/
def scanMember : Nat → Bytes → Members × Bytes
  | 0, _ => (.keyless .truncated, [])
  | fuel + 1, text => match dropSpace text with
    | [] => (.keyless .truncated, [])
    | b :: rest =>
        if b = Mark.quote then
          let (key, rest) := scanText rest
          match dropSpace rest with
          | [] => (.more key .absent .closed, [])
          | c :: rest =>
              if c = Mark.colon then
                let (v, rest) := scanValue fuel rest
                let (members, rest) := scanMoreMembers fuel rest
                (.more key v members, rest)
              else (.more key (.broken .malformed .malformed) .closed, [])
        else (.keyless .malformed, [])

/-- The members after a member. -/
def scanMoreMembers : Nat → Bytes → Members × Bytes
  | 0, _ => (.broken .truncated, [])
  | fuel + 1, text => match dropSpace text with
    | [] => (.broken .truncated, [])
    | b :: rest =>
        if b = Mark.closeRecord then (.closed, rest)
        else if b = Mark.comma then scanMember fuel rest
        else (.broken .malformed, [])

end

/-- The value at the beginning of a text and the text after it. -/
def Value.scan (text : Bytes) : Value × Bytes := scanValue (2 * text.length + 2) text

end GossipLedger.Json
