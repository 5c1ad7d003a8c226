import GossipLedger.Digest
import GossipLedger.Proofs.Json.Text
import GossipLedger.Proofs.Text.Blank

/-!
# Digests as text

Of a text without the blanks around it, the bytes are looked at in pairs.  A text is that of a
digest exactly if it consists of 64 hexadecimal digits of either case, and the digest is the one
that is written with the same digits in lower case.  Every other text is refused, for the first of
three reasons: its bytes do not pair up, one of them is no digit, or there are too few or too many
pairs.

A character outside ASCII is several bytes, none of which is a digit.  So it makes no difference
whether digits are looked for among the bytes or among the characters, but the reasons count in
bytes.

## Main definitions

* `hexChars`, `hexBytes` — the digits, and their bytes.
* `Digest.Refuses` — the first reason why some bytes are not those of a digest.

## Main results

* `readHexPairs_of_mem`, `readHexPairs_of_not_mem` — digits are read, and the first byte that is
  none is found.
* `Digest.parse_eq_ok_or_error` — **which texts are read, and as what.**
-/

namespace GossipLedger

/-- The hexadecimal digits of either case. -/
def hexChars : List Char :=
  ['0', '1', '2', '3', '4', '5', '6', '7', '8', '9', 'a', 'b', 'c', 'd', 'e', 'f',
    'A', 'B', 'C', 'D', 'E', 'F']

/-- The byte of a character of ASCII. -/
def charByte (c : Char) : UInt8 := UInt8.ofNat c.toNat

/-- The bytes of the hexadecimal digits. -/
def hexBytes : Bytes := hexChars.map charByte

/-! ### Digits among characters and among bytes -/

theorem utf8EncodeChar_of_mem_hexChars :
    ∀ c ∈ hexChars, String.utf8EncodeChar c = [charByte c] :=
  forall_mem_of_all (by decide)

/-- A digit of either case has the value of its lower-case form. -/
theorem hexValue?_charByte :
    ∀ c ∈ hexChars, ∃ n < 16, hexValue? (charByte c) = some n ∧ hexDigit n = c.toLower :=
  forall_mem_of_all (by decide)

/-- Every other byte has no value. -/
theorem hexValue?_eq_none {b : UInt8} (h : b ∉ hexBytes) : hexValue? b = none := by
  have hbytes : ∀ n < 256, UInt8.ofNat n ∉ hexBytes → hexValue? (UInt8.ofNat n) = none := by
    decide +kernel
  have hb := hbytes b.toNat b.toNat_lt
  rw [UInt8.ofNat_toNat] at hb
  exact hb h

theorem toNat_lt_of_mem_hexBytes : ∀ b ∈ hexBytes, b.toNat < 128 :=
  forall_mem_of_all (by decide)

/-- The bytes of a text are digits exactly if its characters are. -/
theorem forall_mem_hexBytes_iff {cs : List Char} :
    (∀ b ∈ cs.flatMap String.utf8EncodeChar, b ∈ hexBytes) ↔ ∀ c ∈ cs, c ∈ hexChars := by
  constructor
  · intro h c hc
    have hbytes : ∀ b ∈ String.utf8EncodeChar c, b ∈ hexBytes :=
      fun b hb => h b (List.mem_flatMap.2 ⟨c, hc, hb⟩)
    by_cases hascii : c.toNat < 128
    · rw [Json.utf8EncodeChar_of_lt hascii] at hbytes
      obtain ⟨d, hd, heq⟩ := List.mem_map.1 (hbytes _ (List.mem_singleton_self _))
      have hall : ∀ d ∈ hexChars, d.toNat < 128 := forall_mem_of_all (by decide)
      have hlt := hall d hd
      have hsame : d.toNat = c.toNat := by
        have hnat := congrArg UInt8.toNat heq
        rwa [charByte, UInt8.toNat_ofNat', UInt8.toNat_ofNat', Nat.mod_eq_of_lt (by omega),
          Nat.mod_eq_of_lt (by omega)] at hnat
      rwa [← Char.toNat_inj.1 hsame]
    · -- a character outside ASCII begins with a byte that is too large for a digit
      cases hfirst : String.utf8EncodeChar c with
      | nil => exact absurd hfirst String.utf8EncodeChar_ne_nil
      | cons b bs =>
        have hb : b ∈ String.utf8EncodeChar c := hfirst ▸ List.mem_cons_self
        have hlow := toNat_lt_of_mem_hexBytes b (hbytes b hb)
        have hhigh := Json.le_of_mem_utf8EncodeChar (Nat.not_lt.1 hascii) hb
        omega
  · intro h b hb
    obtain ⟨c, hc, hbc⟩ := List.mem_flatMap.1 hb
    rw [utf8EncodeChar_of_mem_hexChars c (h c hc), List.mem_singleton] at hbc
    exact hbc ▸ List.mem_map_of_mem (h c hc)

/-- Digits are one byte each. -/
theorem flatMap_utf8_of_mem {cs : List Char} (h : ∀ c ∈ cs, c ∈ hexChars) :
    cs.flatMap String.utf8EncodeChar = cs.map charByte := by
  induction cs with
  | nil => rfl
  | cons c cs ih =>
    rw [List.forall_mem_cons] at h
    rw [List.flatMap_cons, utf8EncodeChar_of_mem_hexChars c h.1, ih h.2, List.map_cons]
    rfl

/-! ### Pairs -/

/-- A pair of digits is read as one byte, which is written with the same digits in lower case. -/
theorem exists_readHexPairs_cons {hi lo : Char} (hhi : hi ∈ hexChars) (hlo : lo ∈ hexChars) :
    ∃ x : UInt8, hexDigits [x] = [hi.toLower, lo.toLower] ∧ ∀ (index : Nat) (rest : Bytes),
      readHexPairs index (charByte hi :: charByte lo :: rest) =
        (readHexPairs (index + 2) rest).map (x :: ·) := by
  obtain ⟨h, hlth, hvalh, hdigith⟩ := hexValue?_charByte hi hhi
  obtain ⟨l, hltl, hvall, hdigitl⟩ := hexValue?_charByte lo hlo
  have hnat : (UInt8.ofNat (16 * h + l)).toNat = 16 * h + l := by
    rw [UInt8.toNat_ofNat', Nat.mod_eq_of_lt (by omega)]
  refine ⟨UInt8.ofNat (16 * h + l), ?_, fun index rest => ?_⟩
  · have hhigh : (16 * h + l) / 16 = h := by omega
    have hlow : (16 * h + l) % 16 = l := by omega
    simp only [hexDigits, List.flatMap_cons, List.flatMap_nil, List.append_nil, hnat, hhigh, hlow,
      hdigith, hdigitl]
  · simp only [readHexPairs, hvalh, hvall]

/-- **Digits that pair up are read**, as the bytes that are written with them in lower case. -/
theorem readHexPairs_of_mem : ∀ {cs : List Char}, (∀ c ∈ cs, c ∈ hexChars) → cs.length % 2 = 0 →
    ∀ index, ∃ bytes, readHexPairs index (cs.map charByte) = .ok bytes ∧
      2 * bytes.length = cs.length ∧ hexDigits bytes = cs.map Char.toLower
  | [], _, _, _ => ⟨[], rfl, rfl, rfl⟩
  | [_], _, heven, _ => by simp at heven
  | hi :: lo :: cs, h, heven, index => by
    rw [List.forall_mem_cons, List.forall_mem_cons] at h
    obtain ⟨hhi, hlo, hcs⟩ := h
    obtain ⟨x, hx, hpair⟩ := exists_readHexPairs_cons hhi hlo
    obtain ⟨bytes, hread, hlength, hdigits⟩ := readHexPairs_of_mem hcs
      (by simp only [List.length_cons] at heven; omega) (index + 2)
    refine ⟨x :: bytes, ?_, ?_, ?_⟩
    · rw [List.map_cons, List.map_cons, hpair, hread]
      rfl
    · simp only [List.length_cons]
      omega
    · have hcons : hexDigits (x :: bytes) = hexDigits [x] ++ hexDigits bytes := by
        simp [hexDigits]
      rw [hcons, hx, hdigits]
      rfl

/-- **The first byte that is no digit is found**, with the number of bytes before it. -/
theorem readHexPairs_of_not_mem {b : UInt8} (hb : b ∉ hexBytes) (after : Bytes) :
    ∀ {before : Bytes}, (∀ x ∈ before, x ∈ hexBytes) → (before ++ b :: after).length % 2 = 0 →
    ∀ index, readHexPairs index (before ++ b :: after) =
      .error (.badDigit b (index + before.length))
  | [], _, heven, index => by
    cases after with
    | nil => simp at heven
    | cons lo rest => simp only [List.nil_append, readHexPairs, hexValue?_eq_none hb]; rfl
  | [hi], h, _, index => by
    obtain ⟨c, hc, rfl⟩ := List.mem_map.1 (h hi (List.mem_singleton_self hi))
    obtain ⟨n, -, hn, -⟩ := hexValue?_charByte c hc
    simp only [List.cons_append, List.nil_append, readHexPairs, hn, hexValue?_eq_none hb]
    rfl
  | hi :: lo :: before, h, heven, index => by
    rw [List.forall_mem_cons, List.forall_mem_cons] at h
    obtain ⟨hhi, hlo, hbefore⟩ := h
    obtain ⟨c, hc, rfl⟩ := List.mem_map.1 hhi
    obtain ⟨d, hd, rfl⟩ := List.mem_map.1 hlo
    obtain ⟨x, -, hpair⟩ := exists_readHexPairs_cons hc hd
    have hrest := readHexPairs_of_not_mem hb after hbefore
      (by simp only [List.cons_append, List.length_cons] at heven; omega) (index + 2)
    rw [List.cons_append, List.cons_append, hpair, hrest, List.length_cons, List.length_cons,
      show index + (before.length + 1 + 1) = index + 2 + before.length by omega]
    rfl

/-! ### Digests -/

namespace Digest

/-- The first reason why some bytes are not those of a digest: they do not pair up; they do, but
one of them is no digit, and all those before it are; or they are digits and stand for another
number of bytes than 32. -/
inductive Refuses : Bytes → DigestFault → Prop
  | oddLength {bytes : Bytes} : bytes.length % 2 = 1 → Refuses bytes (.hex .oddLength)
  | badDigit {before after : Bytes} {b : UInt8} : (before ++ b :: after).length % 2 = 0 →
      (∀ x ∈ before, x ∈ hexBytes) → b ∉ hexBytes →
      Refuses (before ++ b :: after) (.hex (.badDigit b before.length))
  | wrongLength {bytes : Bytes} : bytes.length % 2 = 0 → (∀ x ∈ bytes, x ∈ hexBytes) →
      bytes.length / 2 ≠ 32 → Refuses bytes (.wrongLength (bytes.length / 2))

/-- Bytes that there is no reason to refuse are the bytes of 64 digits. -/
theorem exists_refuses_or (cs : List Char) :
    (∃ f, Refuses (cs.flatMap String.utf8EncodeChar) f) ∨
      cs.length = 64 ∧ ∀ c ∈ cs, c ∈ hexChars := by
  rcases Nat.mod_two_eq_zero_or_one (cs.flatMap String.utf8EncodeChar).length with heven | hodd
  · cases hfind : (cs.flatMap String.utf8EncodeChar).find? (· ∉ hexBytes) with
    | some b =>
      obtain ⟨hb, before, after, heq, hbefore⟩ := List.find?_eq_some_iff_append.1 hfind
      rw [heq] at heven ⊢
      exact .inl ⟨_, .badDigit heven (fun x hx => by simpa using hbefore x hx) (by simpa using hb)⟩
    | none =>
      have hall : ∀ b ∈ cs.flatMap String.utf8EncodeChar, b ∈ hexBytes :=
        fun b hb => by simpa using List.find?_eq_none.1 hfind b hb
      by_cases h32 : (cs.flatMap String.utf8EncodeChar).length / 2 = 32
      · have hchars := forall_mem_hexBytes_iff.1 hall
        rw [flatMap_utf8_of_mem hchars, List.length_map] at heven h32
        exact .inr ⟨by omega, hchars⟩
      · exact .inl ⟨_, .wrongLength heven hall h32⟩
  · exact .inl ⟨_, .oddLength hodd⟩

/-- A text is refused for the first reason there is. -/
theorem parse_of_refuses {s : String} {f : DigestFault}
    (h : Refuses ((trimBlank s.toList).flatMap String.utf8EncodeChar) f) :
    parse s = .error f := by
  unfold parse
  generalize hbytes : (trimBlank s.toList).flatMap String.utf8EncodeChar = bytes at h
  cases h with
  | oddLength hodd => rw [readHex, if_pos hodd]
  | badDigit heven hbefore hb =>
    rw [readHex, if_neg (by omega), readHexPairs_of_not_mem hb _ hbefore heven, Nat.zero_add]
  | wrongLength heven hall h32 =>
    have hchars := forall_mem_hexBytes_iff.1 (hbytes ▸ hall)
    have hmap := flatMap_utf8_of_mem hchars
    have hlength := congrArg List.length hmap
    rw [hbytes, List.length_map] at hlength
    obtain ⟨read, hread, htwice, -⟩ := readHexPairs_of_mem hchars (by omega) 0
    rw [← hmap, hbytes] at hread
    have hcount : read.length = bytes.length / 2 := by omega
    rw [readHex, if_neg (by omega), hread]
    simp only [hcount, h32, dite_false]

/-- A text of 64 digits is read as the digest that is written with them in lower case. -/
theorem exists_parse_eq_ok {s : String} (h64 : (trimBlank s.toList).length = 64)
    (hchars : ∀ c ∈ trimBlank s.toList, c ∈ hexChars) :
    ∃ d, parse s = .ok d ∧ d.text.toList = (trimBlank s.toList).map Char.toLower := by
  obtain ⟨bytes, hread, htwice, hdigits⟩ := readHexPairs_of_mem hchars (by omega) 0
  have hlength : bytes.length = 32 := by omega
  refine ⟨⟨bytes, hlength⟩, ?_, ?_⟩
  · rw [parse, flatMap_utf8_of_mem hchars, readHex, if_neg (by rw [List.length_map]; omega), hread]
    simp only [hlength, dite_true]
  · rw [text, hexText, String.toList_ofList, hdigits]

/-- **Which texts are read as digests, and as which.**  A written digest is read as itself.  Of any
text there is a part that is left without the blanks around it; the text is read exactly if that
part consists of 64 hexadecimal digits of either case, and then as the digest that is written with
these digits in lower case; and it is refused with a fault exactly if that is the first reason to
refuse the bytes of the part. -/
theorem parse_eq_ok_or_error :
    (∀ d, parse d.text = .ok d) ∧
    ∀ s : String, ∃ core, Trims s.toList core ∧
      ((∃ d, parse s = .ok d) ↔ core.length = 64 ∧ ∀ c ∈ core, c ∈ hexChars) ∧
      (∀ d, parse s = .ok d → d.text.toList = core.map Char.toLower) ∧
      (∀ f, parse s = .error f ↔ Refuses (core.flatMap String.utf8EncodeChar) f) := by
  refine ⟨parse_text, fun s => ⟨trimBlank s.toList, trims_trimBlank _, ?_, ?_, ?_⟩⟩
  · constructor
    · rintro ⟨d, hd⟩
      rcases exists_refuses_or (trimBlank s.toList) with ⟨f, hf⟩ | h
      · exact nomatch (parse_of_refuses hf).symm.trans hd
      · exact h
    · rintro ⟨h64, hchars⟩
      obtain ⟨d, hd, -⟩ := exists_parse_eq_ok h64 hchars
      exact ⟨d, hd⟩
  · intro d hd
    rcases exists_refuses_or (trimBlank s.toList) with ⟨f, hf⟩ | ⟨h64, hchars⟩
    · exact nomatch (parse_of_refuses hf).symm.trans hd
    · obtain ⟨e, he, htext⟩ := exists_parse_eq_ok h64 hchars
      rwa [Except.ok.inj (hd.symm.trans he)]
  · intro f
    constructor
    · intro hf
      rcases exists_refuses_or (trimBlank s.toList) with ⟨g, hg⟩ | ⟨h64, hchars⟩
      · rwa [Except.error.inj (hf.symm.trans (parse_of_refuses hg))]
      · obtain ⟨d, hd, -⟩ := exists_parse_eq_ok h64 hchars
        exact nomatch hf.symm.trans hd
    · exact parse_of_refuses

end Digest
end GossipLedger
