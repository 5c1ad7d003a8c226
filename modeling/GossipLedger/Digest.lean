import GossipLedger.Bytes.Hex
import GossipLedger.Digest.Sha256
import GossipLedger.Text.Blank
import GossipLedger.Text.Quoted

/-!
# Digests

A digest is 32 bytes: the name of a transaction, the nonce of a block or the
identity of a miner.  It is written as 64 lower-case hexadecimal digits and read
with blanks around it and either case.  Digests are ordered byte by byte.

## Main definitions

* `Digest` — 32 bytes, with their order.
* `Digest.ofMessage` — the SHA-256 hash of a byte string.
* `Digest.leadingZeroBytes` — the unit in which mining work is measured.
* `Digest.text`, `Digest.parse` — the written form, read with a `DigestFault`.

## Main results

* `Digest.lt_trichotomous` — of two different digests one is the smaller.
* `Digest.parse_text` — a written digest reads back.
-/

namespace GossipLedger

/-- A digest of 32 bytes. -/
structure Digest where
  /-- The bytes, in the order in which they are written. -/
  bytes : Bytes
  /-- There are always 32 of them. -/
  length_bytes : bytes.length = 32
  deriving DecidableEq

namespace Digest

/-- The digest of zero bytes: no predecessor, or money from nowhere. -/
def zero : Digest := ⟨List.replicate 32 0, by decide⟩

instance : Inhabited Digest := ⟨zero⟩

/-- The SHA-256 hash of a byte string. -/
def ofMessage (message : Bytes) : Digest := ⟨sha256 message, length_sha256 message⟩

/-- Whether this is the digest of zero bytes. -/
def isZero (d : Digest) : Bool := d.bytes.all (· == 0)

/-- The number of zero bytes a digest begins with. -/
def leadingZeroBytes (d : Digest) : Nat := (d.bytes.takeWhile (· == 0)).length

/-- Enough work: a digest that begins with as many zero bytes as the difficulty
asks for. -/
def Meets (d : Digest) (difficulty : Nat) : Prop := difficulty ≤ d.leadingZeroBytes

instance (d : Digest) (difficulty : Nat) : Decidable (d.Meets difficulty) :=
  inferInstanceAs (Decidable (_ ≤ _))

/-! ### Order -/

/-- Digests are ordered byte by byte. -/
instance : LT Digest := ⟨fun a b => a.bytes < b.bytes⟩

instance : DecidableLT Digest := fun a b => inferInstanceAs (Decidable (a.bytes < b.bytes))

theorem lt_irrefl (a : Digest) : ¬a < a := List.lt_irrefl a.bytes

theorem lt_trans {a b c : Digest} (hab : a < b) (hbc : b < c) : a < c :=
  List.lt_trans (α := UInt8) hab hbc

/-- Of two different digests one is the smaller. -/
theorem lt_trichotomous {a b : Digest} (hab : ¬a < b) (hba : ¬b < a) : a = b := by
  obtain ⟨x, hx⟩ := a
  obtain ⟨y, hy⟩ := b
  have hxy : x = y :=
    Std.Trichotomous.trichotomous (r := (· < · : Bytes → Bytes → Prop)) x y hab hba
  subst hxy
  rfl

instance : Std.Irrefl (α := Digest) (· < ·) := ⟨lt_irrefl⟩

instance : Trans (α := Digest) (· < ·) (· < ·) (· < ·) := ⟨lt_trans⟩

instance : Std.Trichotomous (α := Digest) (· < ·) := ⟨fun _ _ => lt_trichotomous⟩

/-! ### Written form -/

/-- The 64 digits of a digest. -/
def text (d : Digest) : String := hexText d.bytes

/-- The first eight digits, by which people tell digests apart. -/
def short (d : Digest) : String := hexText (d.bytes.take 4)

end Digest

/-- What keeps a text from being a digest. -/
inductive DigestFault
  /-- The text is not hexadecimal. -/
  | hex (fault : HexFault)
  /-- The digits stand for this many bytes rather than 32. -/
  | wrongLength (count : Nat)
  deriving DecidableEq, Repr

/-- The diagnostic for a text that is not hexadecimal.  The offending byte is
shown as the character of that code. -/
def HexFault.message : HexFault → String
  | .oddLength => "Odd number of digits"
  | .badDigit byte index =>
      "Invalid character " ++ quotedChar (Char.ofNat byte.toNat) ++ " at position "
        ++ toString index

/-- The diagnostic for a text that is not a digest. -/
def DigestFault.message : DigestFault → String
  | .hex fault => "invalid hex: " ++ fault.message
  | .wrongLength count => "expected 32 bytes, got " ++ toString count

/-- The digest written in a text, blanks around it aside. -/
def Digest.parse (s : String) : Except DigestFault Digest :=
  match readHex ((trimBlank s.toList).flatMap String.utf8EncodeChar) with
  | .error fault => .error (.hex fault)
  | .ok bytes =>
    if h : bytes.length = 32 then .ok ⟨bytes, h⟩ else .error (.wrongLength bytes.length)

/-! ### Reading back -/

private theorem not_isBlank_hexDigit : ∀ n < 16, isBlank (hexDigit n) = false := by decide

private theorem not_isBlank_of_mem_hexDigits {b : Bytes} {c : Char} (h : c ∈ hexDigits b) :
    isBlank c = false := by
  simp only [hexDigits, List.mem_flatMap] at h
  obtain ⟨x, -, hx⟩ := h
  have : x.toNat < 256 := x.toNat_lt
  simp only [List.mem_cons, List.not_mem_nil, or_false] at hx
  rcases hx with rfl | rfl
  · exact not_isBlank_hexDigit _ (by omega)
  · exact not_isBlank_hexDigit _ (by omega)

private theorem dropWhile_eq_self {p : Char → Bool} {cs : List Char} (h : ∀ c ∈ cs, p c = false) :
    cs.dropWhile p = cs := by
  cases cs with
  | nil => rfl
  | cons c cs => simp [h c (by simp)]

/-- A text without blanks is trimmed already. -/
theorem trimBlank_eq_self {cs : List Char} (h : ∀ c ∈ cs, isBlank c = false) :
    trimBlank cs = cs := by
  rw [trimBlank, trimBlankStart, dropWhile_eq_self h,
    dropWhile_eq_self (fun c hc => h c (List.mem_reverse.1 hc)), List.reverse_reverse]

/-- A written digest reads back. -/
theorem Digest.parse_text (d : Digest) : Digest.parse d.text = .ok d := by
  have h := trimBlank_eq_self (fun c => not_isBlank_of_mem_hexDigits (b := d.bytes) (c := c))
  simp [Digest.parse, Digest.text, hexText, h, readHex_hexDigits, d.length_bytes]

end GossipLedger
