/-!
# Bytes

The byte strings that are hashed, decoded and sent: their text in UTF-8 and the
little-endian words that stand in hashed contents.

## Main definitions

* `Bytes` — a byte string.
* `utf8`, `ofUtf8?` — the bytes of a text, and the text of bytes that are UTF-8.
* `littleEndian` — a word of a fixed number of bytes, least significant first.
-/

namespace GossipLedger

/-- A byte string. -/
abbrev Bytes := List UInt8

/-- The UTF-8 bytes of a text. -/
def utf8 (s : String) : Bytes :=
  s.toList.flatMap String.utf8EncodeChar

/-- The text whose UTF-8 bytes these are, if they are valid UTF-8. -/
def ofUtf8? (b : Bytes) : Option String :=
  (ByteArray.mk b.toArray).utf8Decode?.map fun cs => String.ofList cs.toList

/-- The `width` low bytes of a number, least significant first. -/
def littleEndian : Nat → Nat → Bytes
  | 0, _ => []
  | width + 1, n => UInt8.ofNat (n % 256) :: littleEndian width (n / 256)

@[simp] theorem length_littleEndian (width n : Nat) : (littleEndian width n).length = width := by
  induction width generalizing n with
  | zero => rfl
  | succ w ih => simp [littleEndian, ih]

end GossipLedger
