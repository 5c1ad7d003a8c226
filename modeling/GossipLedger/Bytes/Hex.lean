import GossipLedger.Bytes

/-!
# Hexadecimal text

Two digits for each byte, high half first.  Written text is in lower case;
either case is read.

## Main definitions

* `hexText` — the digits of a byte string.
* `HexFault`, `readHex` — reading digits back, with the first thing that is wrong.

## Main results

* `readHex_hexDigits` — the digits of a byte string read back as that string.
-/

namespace GossipLedger

/-- The lower-case digit of a number below 16. -/
def hexDigit (n : Nat) : Char :=
  if n < 10 then Char.ofNat (48 + n) else Char.ofNat (87 + n)

/-- The value of the byte of a digit of either case. -/
def hexValue? (b : UInt8) : Option Nat :=
  let n := b.toNat
  if 48 ≤ n ∧ n ≤ 57 then some (n - 48)
  else if 97 ≤ n ∧ n ≤ 102 then some (n - 87)
  else if 65 ≤ n ∧ n ≤ 70 then some (n - 55)
  else none

/-- The digits of a byte string. -/
def hexDigits (b : Bytes) : List Char :=
  b.flatMap fun x => [hexDigit (x.toNat / 16), hexDigit (x.toNat % 16)]

/-- The digits of a byte string, as a text. -/
def hexText (b : Bytes) : String :=
  String.ofList (hexDigits b)

/-- What keeps a text from being hexadecimal. -/
inductive HexFault
  /-- A digit stands without its partner. -/
  | oddLength
  /-- The byte at this index is no digit. -/
  | badDigit (byte : UInt8) (index : Nat)
  deriving DecidableEq, Repr

/-- The bytes that pairs of digits stand for; `index` counts the digits before. -/
def readHexPairs (index : Nat) : Bytes → Except HexFault Bytes
  | [] => .ok []
  | [_] => .error .oddLength
  | hi :: lo :: rest =>
      match hexValue? hi, hexValue? lo with
      | none, _ => .error (.badDigit hi index)
      | some _, none => .error (.badDigit lo (index + 1))
      | some h, some l => (readHexPairs (index + 2) rest).map (UInt8.ofNat (16 * h + l) :: ·)

/-- The bytes that a text of digits stands for.  An odd length is reported
before any bad digit. -/
def readHex (text : Bytes) : Except HexFault Bytes :=
  if text.length % 2 = 1 then .error .oddLength else readHexPairs 0 text

/-! ### Reading back what was written -/

private theorem hexValue?_utf8_hexDigit :
    ∀ n < 16, (String.utf8EncodeChar (hexDigit n)).map hexValue? = [some n] := by
  decide

/-- The byte of a digit. -/
def hexDigitByte (n : Nat) : UInt8 :=
  UInt8.ofNat (hexDigit n).toNat

theorem utf8EncodeChar_hexDigit :
    ∀ n < 16, String.utf8EncodeChar (hexDigit n) = [hexDigitByte n] := by
  decide

theorem hexValue?_hexDigitByte {n : Nat} (h : n < 16) : hexValue? (hexDigitByte n) = some n := by
  have := hexValue?_utf8_hexDigit n h
  simpa [utf8EncodeChar_hexDigit n h] using this

/-- The bytes of the digits of a byte string. -/
theorem flatMap_utf8_hexDigits (b : Bytes) :
    (hexDigits b).flatMap String.utf8EncodeChar =
      b.flatMap fun x => [hexDigitByte (x.toNat / 16), hexDigitByte (x.toNat % 16)] := by
  induction b with
  | nil => rfl
  | cons x b ih =>
    have hx : x.toNat < 256 := x.toNat_lt
    simp only [hexDigits, List.flatMap_cons, List.flatMap_append] at ih ⊢
    simp [ih, utf8EncodeChar_hexDigit (x.toNat / 16) (by omega),
      utf8EncodeChar_hexDigit (x.toNat % 16) (by omega)]

theorem length_utf8_hexDigits (b : Bytes) :
    ((hexDigits b).flatMap String.utf8EncodeChar).length = 2 * b.length := by
  rw [flatMap_utf8_hexDigits]
  induction b with
  | nil => rfl
  | cons x b ih =>
    simp only [List.flatMap_cons, List.length_append, ih, List.length_cons, List.length_nil]
    omega

theorem readHexPairs_hexDigits (b : Bytes) (index : Nat) :
    readHexPairs index ((hexDigits b).flatMap String.utf8EncodeChar) = .ok b := by
  rw [flatMap_utf8_hexDigits]
  induction b generalizing index with
  | nil => rfl
  | cons x b ih =>
    have hx : x.toNat < 256 := x.toNat_lt
    have h16 : 16 * (x.toNat / 16) + x.toNat % 16 = x.toNat := by omega
    simp [readHexPairs, hexValue?_hexDigitByte (n := x.toNat / 16) (by omega),
      hexValue?_hexDigitByte (n := x.toNat % 16) (by omega), ih, h16, Except.map]

/-- The digits of a byte string read back as that string. -/
theorem readHex_hexDigits (b : Bytes) :
    readHex ((hexDigits b).flatMap String.utf8EncodeChar) = .ok b := by
  rw [readHex, if_neg (by rw [length_utf8_hexDigits]; omega), readHexPairs_hexDigits]

end GossipLedger
