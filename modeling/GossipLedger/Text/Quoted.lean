import GossipLedger.Text.Visible

/-!
# Quoted text in diagnostics

How a diagnostic shows the text it complains about: between quotes, with the
usual short escapes for the controls that have one and `\u` with the code point
in braces for every other character that would not show by itself.

## Main definitions

* `escapedChar` — one character as it stands between quotes of a given kind.
* `quotedChar`, `quotedText` — a character in single, a text in double quotes.
-/

namespace GossipLedger

/-- A character as it stands between two `quote` marks. -/
def escapedChar (quote c : Char) : List Char :=
  if c = '\x00' then ['\\', '0']
  else if c = '\t' then ['\\', 't']
  else if c = '\r' then ['\\', 'r']
  else if c = '\n' then ['\\', 'n']
  else if c = '\\' || c = quote then ['\\', c]
  else if isVisible c then [c]
  else ['\\', 'u', '\x7b'] ++ Nat.toDigits 16 c.toNat ++ ['\x7d']

/-- A character in single quotes. -/
def quotedChar (c : Char) : String :=
  String.ofList ('\'' :: escapedChar '\'' c ++ ['\''])

/-- A text in double quotes. -/
def quotedText (s : String) : String :=
  String.ofList ('"' :: s.toList.flatMap (escapedChar '"') ++ ['"'])

example : quotedChar '\'' = "'\\''" ∧ quotedText "a\"'\x01" = "\"a\\\"'\\u\x7b1\x7d\"" := by
  decide +kernel

end GossipLedger
