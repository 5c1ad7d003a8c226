import GossipLedger.Json.Document
import GossipLedger.Proofs.Json.Grammar

/-!
# Texts that are written and read back

A character between quotes is written as itself or as an escape.  What is written spells its
bytes, a short escape the byte that it stands for, and any other control character a 16-bit unit.
Either way the units stand for the bytes of the character, so a written text is read back
whatever is in it.

## Main definitions

* `charUnits` — what a written character spells.
* `rawText` — what a written text spells.

## Main results

* `ofUtf8?_utf8` — the bytes of a text are read as that text.
* `spelledBy_quoted` — a written text spells its units.
* `content_rawText` — **what it spells is the text that was written.**
-/

namespace GossipLedger

/-- **The bytes of a text are read as that text.** -/
theorem ofUtf8?_utf8 (s : String) : ofUtf8? (utf8 s) = some s := by
  have hbytes : ByteArray.mk (utf8 s).toArray = s.toList.utf8Encode := by
    rw [List.utf8Encode, utf8]
    exact ByteArray.ext List.data_toByteArray.symm
  rw [ofUtf8?, hbytes, List.utf8Decode?_utf8Encode]
  simp

namespace Json

/-! ### The bytes of a character -/

/-- A character of ASCII is one byte. -/
theorem utf8EncodeChar_of_lt {c : Char} (h : c.toNat < 128) :
    String.utf8EncodeChar c = [UInt8.ofNat c.toNat] := by
  have hval : c.val.toNat ≤ 127 := Nat.le_of_lt_succ h
  simp only [String.utf8EncodeChar, hval, if_true]
  rfl

/-- Of any other character all bytes lie outside ASCII. -/
theorem le_of_mem_utf8EncodeChar {c : Char} (h : 128 ≤ c.toNat) {b : UInt8}
    (hb : b ∈ String.utf8EncodeChar c) : 128 ≤ b.toNat := by
  have hhigh : ∀ {n : Nat}, 128 ≤ n → n < 256 → 128 ≤ (UInt8.ofNat n).toNat := by
    intro n hlow hlt
    rwa [UInt8.toNat_ofNat', Nat.mod_eq_of_lt hlt]
  rw [← Char.toNat_val] at h
  unfold String.utf8EncodeChar at hb
  simp only at hb
  split at hb
  next hone => omega
  next =>
    split at hb
    next =>
      simp only [List.mem_cons, List.not_mem_nil, or_false] at hb
      rcases hb with rfl | rfl
      · exact hhigh (by omega) (by omega)
      · exact hhigh (by omega) (by omega)
    next =>
      split at hb
      next =>
        simp only [List.mem_cons, List.not_mem_nil, or_false] at hb
        rcases hb with rfl | rfl | rfl
        · exact hhigh (by omega) (by omega)
        · exact hhigh (by omega) (by omega)
        · exact hhigh (by omega) (by omega)
      next =>
        simp only [List.mem_cons, List.not_mem_nil, or_false] at hb
        rcases hb with rfl | rfl | rfl | rfl
        · exact hhigh (by omega) (by omega)
        · exact hhigh (by omega) (by omega)
        · exact hhigh (by omega) (by omega)
        · exact hhigh (by omega) (by omega)

/-! ### What is spelled -/

/-- The control characters that have a short escape, and the two marks of a text. -/
def shortEscaped : List Char := ['"', '\\', '\x08', '\x0c', '\n', '\r', '\t']

/-- What a written character spells: its bytes, unless it is a control character without a short
escape. -/
def charUnits (c : Char) : List TextUnit :=
  if c.toNat < 32 ∧ c ∉ shortEscaped then [.code c.toNat]
  else (String.utf8EncodeChar c).map .byte

/-- What a written text spells. -/
def rawText (s : String) : RawText := ⟨s.toList.flatMap charUnits, none⟩

/-- Bytes that stand for themselves spell themselves. -/
theorem SpellsUnits.bytes {bs : Bytes}
    (h : ∀ b ∈ bs, b ≠ Mark.quote ∧ b ≠ Mark.backslash ∧ ¬b < 32) {us : List TextUnit}
    {text : Bytes} (hrest : SpellsUnits us text) :
    SpellsUnits (bs.map .byte ++ us) (bs ++ text) := by
  induction bs with
  | nil => exact hrest
  | cons b bs ih =>
    rw [List.forall_mem_cons] at h
    obtain ⟨⟨hquote, hslash, hcontrol⟩, hbs⟩ := h
    exact .plain hquote hslash hcontrol (ih hbs)

/-- The bytes of a character that is not escaped stand for themselves. -/
theorem plain_of_mem_utf8EncodeChar {c : Char} (hcontrol : ¬c.toNat < 32) (hquote : c ≠ '"')
    (hslash : c ≠ '\\') {b : UInt8} (hb : b ∈ String.utf8EncodeChar c) :
    b ≠ Mark.quote ∧ b ≠ Mark.backslash ∧ ¬b < 32 := by
  have hne : ∀ d : Char, c ≠ d → c.toNat ≠ d.toNat := fun d hcd heq => hcd (Char.toNat_inj.1 heq)
  have hsplit : b.toNat ≠ 34 ∧ b.toNat ≠ 92 ∧ 32 ≤ b.toNat := by
    by_cases hascii : c.toNat < 128
    · rw [utf8EncodeChar_of_lt hascii, List.mem_singleton] at hb
      have hb : b.toNat = c.toNat := by
        rw [hb, UInt8.toNat_ofNat', Nat.mod_eq_of_lt (by omega)]
      rw [hb]
      exact ⟨hne '"' hquote, hne '\\' hslash, by omega⟩
    · have hhigh := le_of_mem_utf8EncodeChar (Nat.not_lt.1 hascii) hb
      omega
  obtain ⟨h₁, h₂, h₃⟩ := hsplit
  refine ⟨fun heq => h₁ (congrArg UInt8.toNat heq), fun heq => h₂ (congrArg UInt8.toNat heq), ?_⟩
  rw [UInt8.lt_iff_toNat_lt]
  exact Nat.not_lt.2 h₃

/-- The last two digits of a control character, and the number that they stand for. -/
theorem controlBytes : ∀ n < 32,
    (['\\', 'u', '0', '0'] ++ [Nat.digitChar (n / 16), Nat.digitChar (n % 16)]).flatMap
        String.utf8EncodeChar = [Mark.backslash, 117, 48, 48, hexDigitByte (n / 16),
          hexDigitByte (n % 16)] ∧
      hexUnit? 48 48 (hexDigitByte (n / 16)) (hexDigitByte (n % 16)) = some n := by
  decide

/-- **A written character spells its units.** -/
theorem SpellsUnits.escaped (c : Char) {us : List TextUnit} {text : Bytes}
    (h : SpellsUnits us text) :
    SpellsUnits (charUnits c ++ us)
      ((Json.escaped c).flatMap String.utf8EncodeChar ++ text) := by
  by_cases hshort : c ∈ shortEscaped
  · simp only [shortEscaped, List.mem_cons, List.not_mem_nil, or_false] at hshort
    rcases hshort with rfl | rfl | rfl | rfl | rfl | rfl | rfl <;> exact .short (by decide) h
  · have hunits := hshort
    simp only [shortEscaped, List.mem_cons, List.not_mem_nil, or_false, not_or] at hshort
    obtain ⟨h₁, h₂, h₃, h₄, h₅, h₆, h₇⟩ := hshort
    unfold Json.escaped charUnits
    rw [if_neg h₁, if_neg h₂, if_neg h₃, if_neg h₄, if_neg h₅, if_neg h₆, if_neg h₇]
    by_cases hcontrol : c.toNat < 32
    · rw [if_pos hcontrol, if_pos ⟨hcontrol, hunits⟩]
      obtain ⟨hbytes, hnumber⟩ := controlBytes c.toNat hcontrol
      rw [hbytes]
      exact .code hnumber h
    · rw [if_neg hcontrol, if_neg fun h => hcontrol h.1, List.flatMap_singleton]
      exact .bytes (fun b hb => plain_of_mem_utf8EncodeChar hcontrol h₁ h₂ hb) h

/-- **A written text spells its units.** -/
theorem spelledBy_quoted (s : String) :
    (rawText s).SpelledBy ((quoted s).flatMap String.utf8EncodeChar) := by
  have hchars : ∀ cs : List Char, SpellsUnits (cs.flatMap charUnits)
      ((cs.flatMap escaped).flatMap String.utf8EncodeChar ++ [Mark.quote]) := by
    intro cs
    induction cs with
    | nil => exact .closed
    | cons c cs ih =>
      have hcons := ih.escaped c
      rwa [← List.append_assoc, ← List.flatMap_append, ← List.flatMap_cons,
        ← List.flatMap_cons] at hcons
  rw [quoted, List.cons_append, List.flatMap_cons, List.flatMap_append]
  exact .quoted (hchars s.toList)

/-! ### What is denoted -/

theorem unitBytes_bytes (bs : Bytes) (us : List TextUnit) :
    unitBytes none (bs.map .byte ++ us) = (unitBytes none us).map (bs ++ ·) := by
  induction bs with
  | nil => cases h : unitBytes none us <;> simp [Except.map, h]
  | cons b bs ih =>
    rw [List.map_cons, List.cons_append, unitBytes, ih]
    cases unitBytes none us <;> rfl

/-- The units of a character stand for its bytes. -/
theorem unitBytes_charUnits (c : Char) (us : List TextUnit) :
    unitBytes none (charUnits c ++ us) =
      (unitBytes none us).map (String.utf8EncodeChar c ++ ·) := by
  unfold charUnits
  split
  next h =>
    have hlow : isLowSurrogate c.toNat = false := by
      simp only [isLowSurrogate, Bool.and_eq_false_iff, decide_eq_false_iff_not]
      omega
    have hhigh : isHighSurrogate c.toNat = false := by
      simp only [isHighSurrogate, Bool.and_eq_false_iff, decide_eq_false_iff_not]
      omega
    rw [List.singleton_append, unitBytes.eq_def]
    simp only [hlow, hhigh, Bool.false_eq_true, if_false, Char.ofNat_toNat]
  next => exact unitBytes_bytes _ us

/-- **What a written text spells is that text.** -/
@[simp] theorem content_rawText (s : String) : (rawText s).content = .ok s := by
  have hbytes : ∀ cs : List Char, unitBytes none (cs.flatMap charUnits) =
      .ok (cs.flatMap String.utf8EncodeChar) := by
    intro cs
    induction cs with
    | nil => rfl
    | cons c cs ih =>
      rw [List.flatMap_cons, unitBytes_charUnits, ih, List.flatMap_cons]
      rfl
  have htext : ofUtf8? (s.toList.flatMap String.utf8EncodeChar) = some s := ofUtf8?_utf8 s
  unfold RawText.content rawText
  simp only [hbytes, htext]

end Json
end GossipLedger
