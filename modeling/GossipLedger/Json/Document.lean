import GossipLedger.Bytes

/-!
# Writing JSON

A document is what a value looks like in JSON: the members of its records in the
order in which they are written.  Written text has no blanks; a text between
quotes escapes the quote, the backslash and the control characters below the
blank, and nothing else.

## Main definitions

* `Document` — a JSON value to be written.
* `Document.toText` — its text, and `Document.bytes` the same in UTF-8.
-/

namespace GossipLedger.Json

/-- A JSON value to be written. -/
inductive Document
  | null
  | boolean (value : Bool)
  | whole (value : Int)
  | text (value : String)
  | list (items : List Document)
  | record (members : List (String × Document))

/-- One character between quotes. -/
def escaped (c : Char) : List Char :=
  if c = '"' then ['\\', '"']
  else if c = '\\' then ['\\', '\\']
  else if c = '\x08' then ['\\', 'b']
  else if c = '\x0c' then ['\\', 'f']
  else if c = '\n' then ['\\', 'n']
  else if c = '\r' then ['\\', 'r']
  else if c = '\t' then ['\\', 't']
  else if c.toNat < 32 then
    ['\\', 'u', '0', '0'] ++ [Nat.digitChar (c.toNat / 16), Nat.digitChar (c.toNat % 16)]
  else [c]

/-- A text between quotes. -/
def quoted (s : String) : List Char := '"' :: s.toList.flatMap escaped ++ ['"']

mutual

/-- The characters of a document. -/
def Document.chars : Document → List Char
  | .null => ['n', 'u', 'l', 'l']
  | .boolean true => ['t', 'r', 'u', 'e']
  | .boolean false => ['f', 'a', 'l', 's', 'e']
  | .whole n => (toString n).toList
  | .text s => quoted s
  | .list items => '[' :: listChars items ++ [']']
  | .record members => '\x7b' :: memberChars members ++ ['\x7d']

/-- The items of a list, with a comma between any two. -/
def listChars : List Document → List Char
  | [] => []
  | [d] => d.chars
  | d :: ds => d.chars ++ ',' :: listChars ds

/-- The members of a record, with a comma between any two. -/
def memberChars : List (String × Document) → List Char
  | [] => []
  | [(k, d)] => quoted k ++ ':' :: d.chars
  | (k, d) :: ms => quoted k ++ ':' :: d.chars ++ ',' :: memberChars ms

end

/-- The text of a document. -/
def Document.toText (d : Document) : String := String.ofList d.chars

/-- The text of a document in UTF-8. -/
def Document.bytes (d : Document) : Bytes := d.chars.flatMap String.utf8EncodeChar

end GossipLedger.Json
