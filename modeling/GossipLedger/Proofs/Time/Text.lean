import GossipLedger.Proofs.Wire.Size

/-!
# Timestamps that are written and read back

A timestamp is written with as many digits as each of its fields needs and no blanks, so the
reader finds every field at once: a year of four digits or one with a sign, fields of two
digits, and a fraction of none, three, six or nine.  The sixtieth second can only be a leap
second, because a timestamp keeps its leap seconds at the end of a minute.

## Main results

* `digitsValue_paddedDigits` — padding does not change a number.
* `scanDigits_append` — digits are found as far as they go.
* `parse_text` — **a written timestamp reads back.**
-/

namespace GossipLedger

/-! ### Digits -/

/-- Zeros in front of a number do not change it. -/
theorem digitsValue_paddedDigits (width n : Nat) : digitsValue (paddedDigits width n) = n := by
  show Nat.ofDigitChars 10 (paddedDigits width n) 0 = n
  rw [paddedDigits, Nat.ofDigitChars_append, Nat.ofDigitChars_replicate_zero, Nat.mul_zero]
  exact Nat.ofDigitChars_ten_toDigits

theorem isDigit_of_mem_paddedDigits {width n : Nat} {c : Char} (h : c ∈ paddedDigits width n) :
    c.isDigit = true := by
  rcases List.mem_append.1 h with h | h
  · rw [List.eq_of_mem_replicate h]
    rfl
  · exact Nat.isDigit_of_mem_toDigits (by decide) (by decide) h

theorem paddedDigits_ne_nil (width n : Nat) : paddedDigits width n ≠ [] := by
  simp [paddedDigits]

/-- A digit is no blank. -/
theorem isBlank_of_isDigit {c : Char} (h : c.isDigit = true) : isBlank c = false := by
  have hcode : ∀ n, 48 ≤ n → n ≤ 57 → isBlank (Char.ofNat n) = false := by
    intro n hlow hhigh
    obtain ⟨k, rfl⟩ := Nat.exists_eq_add_of_le hlow
    have hall : ∀ k < 10, isBlank (Char.ofNat (48 + k)) = false := by decide
    exact hall k (by omega)
  simp only [Char.isDigit, Bool.and_eq_true, decide_eq_true_eq] at h
  have hblank := hcode c.toNat (UInt32.le_iff_toNat_le.1 h.1) (UInt32.le_iff_toNat_le.1 h.2)
  rwa [Char.ofNat_toNat] at hblank

/-- What does not begin with a blank is not trimmed. -/
theorem trimBlankStart_cons {c : Char} (h : isBlank c = false) (cs : List Char) :
    trimBlankStart (c :: cs) = c :: cs := by
  simp [trimBlankStart, h]

theorem trimBlankStart_paddedDigits (width n : Nat) (rest : List Char) :
    trimBlankStart (paddedDigits width n ++ rest) = paddedDigits width n ++ rest := by
  cases hdigits : paddedDigits width n with
  | nil => exact absurd hdigits (paddedDigits_ne_nil width n)
  | cons c cs =>
    have hc : c ∈ paddedDigits width n := hdigits ▸ List.mem_cons_self
    exact trimBlankStart_cons (isBlank_of_isDigit (isDigit_of_mem_paddedDigits hc)) _

/-- **Digits are found as far as they go**: up to the width, or up to another character. -/
theorem scanDigits_append {width : Nat} {ds rest : List Char} (hne : ds ≠ [])
    (hall : ∀ c ∈ ds, c.isDigit = true) (hlength : ds.length ≤ width)
    (hstops : ds.length = width ∨ ∀ c ∈ rest.head?, c.isDigit = false) :
    scanDigits width (ds ++ rest) = .ok (ds, rest) := by
  have hfound : ((ds ++ rest).take width).takeWhile Char.isDigit = ds := by
    rw [List.take_append, List.take_of_length_le hlength, List.takeWhile_append_of_pos hall]
    have hnone : (rest.take (width - ds.length)).takeWhile Char.isDigit = [] := by
      rcases hstops with hfull | hstop
      · rw [hfull, Nat.sub_self, List.take_zero, List.takeWhile_nil]
      · cases rest with
        | nil => rw [List.take_nil, List.takeWhile_nil]
        | cons c cs =>
          have hc : c.isDigit = false := hstop c rfl
          cases width - ds.length with
          | zero => rw [List.take_zero, List.takeWhile_nil]
          | succ k => simp [hc]
    rw [hnone, List.append_nil]
  unfold scanDigits
  simp only [hfound]
  cases ds with
  | nil => exact absurd rfl hne
  | cons c cs => simp

/-- A field of the width that it is written with. -/
theorem scanDigits_paddedDigits {width n : Nat} (hwidth : 0 < width) (hn : n < 10 ^ width)
    (rest : List Char) :
    scanDigits width (paddedDigits width n ++ rest) = .ok (paddedDigits width n, rest) := by
  have hlength := length_paddedDigits_of_lt hwidth hn
  exact scanDigits_append (paddedDigits_ne_nil width n)
    (fun c hc => isDigit_of_mem_paddedDigits hc) (Nat.le_of_eq hlength) (Or.inl hlength)

/-! ### Fields -/

/-- A reader goes on with what it has found. -/
theorem ok_bind {ε α β : Type} (a : α) (f : α → Except ε β) : (Except.ok a >>= f) = f a :=
  pure_bind a f

theorem pure_eq_ok {ε α : Type} (a : α) : (pure a : Except ε α) = .ok a := rfl

/-- A field of two digits. -/
theorem scanField_paddedDigits {low high n : Nat} (hn : n < 100) (hlow : low ≤ n)
    (hhigh : n ≤ high) (rest : List Char) :
    scanField low high (paddedDigits 2 n ++ rest) = .ok (n, rest) := by
  unfold scanField
  rw [trimBlankStart_paddedDigits, scanDigits_paddedDigits (by decide) hn, ok_bind]
  simp only [digitsValue_paddedDigits, if_pos (And.intro hlow hhigh)]
  rfl

theorem scanMark_cons {mark : Char} (h : isBlank mark = false) (rest : List Char) :
    scanMark mark (mark :: rest) = .ok rest := by
  simp [scanMark, trimBlankStart_cons h]

theorem scanSeparator_T (rest : List Char) : scanSeparator ('T' :: rest) = .ok rest := rfl

/-- The digits of a year behind its sign, up to the mark that ends it. -/
theorem scanDigits_year (n : Nat) (rest : List Char) :
    scanDigits (paddedDigits 4 n ++ '-' :: rest).length (paddedDigits 4 n ++ '-' :: rest) =
      .ok (paddedDigits 4 n, '-' :: rest) := by
  refine scanDigits_append (paddedDigits_ne_nil 4 n) (fun c hc => isDigit_of_mem_paddedDigits hc)
    ?_ (Or.inr ?_)
  · rw [List.length_append]
    omega
  · intro c hc
    cases hc
    decide

/-- A year of four digits has no sign. -/
theorem scanYear_digits {n : Nat} (hn : n < 10 ^ 4) (rest : List Char) :
    scanYear (paddedDigits 4 n ++ rest) = .ok ((n : Int), rest) := by
  have hdigits := scanDigits_paddedDigits (by decide) hn rest
  have hvalue := digitsValue_paddedDigits 4 n
  have hrange : -2_147_483_648 ≤ (n : Int) ∧ (n : Int) < 2_147_483_648 := by omega
  unfold scanYear
  rw [trimBlankStart_paddedDigits]
  cases hds : paddedDigits 4 n with
  | nil => exact absurd hds (paddedDigits_ne_nil 4 n)
  | cons c cs =>
    have hc : c.isDigit = true := isDigit_of_mem_paddedDigits (hds ▸ List.mem_cons_self)
    have hminus : c ≠ '-' := by
      rintro rfl
      exact absurd hc (by decide)
    have hplus : c ≠ '+' := by
      rintro rfl
      exact absurd hc (by decide)
    rw [hds] at hdigits hvalue
    rw [List.cons_append] at hdigits ⊢
    dsimp only
    split
    next h => exact absurd (List.cons.inj h).1 hminus
    next h => exact absurd (List.cons.inj h).1 hplus
    next =>
      simp only [hdigits, ok_bind, pure_bind, hvalue, if_pos hrange]
      exact pure_eq_ok _

/-- A year with a sign has as many digits as it needs. -/
theorem scanYear_sign {n : Nat} (hn : n < 2_147_483_648) (rest : List Char) :
    scanYear ('-' :: (paddedDigits 4 n ++ '-' :: rest)) = .ok (-(n : Int), '-' :: rest) ∧
      scanYear ('+' :: (paddedDigits 4 n ++ '-' :: rest)) = .ok ((n : Int), '-' :: rest) := by
  have hminus : -2_147_483_648 ≤ -(n : Int) ∧ -(n : Int) < 2_147_483_648 := by omega
  have hplus : -2_147_483_648 ≤ (n : Int) ∧ (n : Int) < 2_147_483_648 := by omega
  constructor
  · unfold scanYear
    rw [trimBlankStart_cons (by decide)]
    simp only [scanDigits_year, ok_bind, pure_bind, digitsValue_paddedDigits, if_pos hminus]
    exact pure_eq_ok _
  · unfold scanYear
    rw [trimBlankStart_cons (by decide)]
    simp only [scanDigits_year, ok_bind, pure_bind, digitsValue_paddedDigits, if_pos hplus]
    exact pure_eq_ok _

/-- **A written year reads back.** -/
theorem scanYear_yearChars (d : Date) (rest : List Char) :
    scanYear (yearChars d.year ++ '-' :: rest) = .ok (d.year, '-' :: rest) := by
  obtain ⟨hlow, hhigh⟩ := d.year_mem
  unfold minYear at hlow
  unfold maxYear at hhigh
  unfold yearChars
  split
  next hfour =>
    have hyear : (d.year.toNat : Int) = d.year := Int.toNat_of_nonneg hfour.1
    rw [scanYear_digits (by omega), hyear]
  next =>
    obtain ⟨hminus, hplus⟩ := scanYear_sign (n := d.year.natAbs) (by omega) rest
    split
    next hneg =>
      have hyear : -(d.year.natAbs : Int) = d.year := by omega
      rw [List.cons_append, hminus, hyear]
    next =>
      have hyear : (d.year.natAbs : Int) = d.year := by omega
      rw [List.cons_append, hplus, hyear]

/-! ### The fraction -/

/-- The digits behind the point, as nanoseconds. -/
theorem scanFraction_point {width n : Nat} (hwidth : 0 < width) (hnine : width ≤ 9)
    (hn : n < 10 ^ width) (rest : List Char) :
    scanFraction ('.' :: (paddedDigits width n ++ 'Z' :: rest)) =
      .ok (n * 10 ^ (9 - width), 'Z' :: rest) := by
  have hlength := length_paddedDigits_of_lt hwidth hn
  have hdigits : scanDigits 9 (paddedDigits width n ++ 'Z' :: rest) =
      .ok (paddedDigits width n, 'Z' :: rest) := by
    refine scanDigits_append (paddedDigits_ne_nil width n)
      (fun c hc => isDigit_of_mem_paddedDigits hc) (by omega) (Or.inr ?_)
    intro c hc
    cases hc
    decide
  rw [scanFraction, hdigits, ok_bind]
  simp only [digitsValue_paddedDigits, hlength]
  rfl

theorem scanFraction_fractionChars {nano : Nat} (h : nano < 1_000_000_000) (rest : List Char) :
    scanFraction (fractionChars nano ++ 'Z' :: rest) = .ok (nano, 'Z' :: rest) := by
  unfold fractionChars
  split
  next hzero =>
    subst hzero
    rfl
  next =>
    split
    next hmilli =>
      have hnano : nano / 1_000_000 * 10 ^ (9 - 3) = nano := by omega
      rw [List.cons_append, scanFraction_point (by decide) (by decide) (by omega), hnano]
    next =>
      split
      next hmicro =>
        have hnano : nano / 1000 * 10 ^ (9 - 6) = nano := by omega
        rw [List.cons_append, scanFraction_point (by decide) (by decide) (by omega), hnano]
      next =>
        have hnano : nano * 10 ^ (9 - 9) = nano := by omega
        rw [List.cons_append, scanFraction_point (by decide) (by decide) (by omega), hnano]

/-! ### The whole text -/

/-- The parts of a date make it up again. -/
theorem ofParts?_date (d : Date) : Date.ofParts? d.year d.month d.day = some d :=
  dif_pos ⟨d.year_mem, d.day_mem⟩

/-- Without an offset a time of day stays what it is. -/
theorem shift?_zero (t : Timestamp) : Timestamp.shift? t.date t.second t.nano 0 = some t := by
  have hlt := t.second_lt
  have hsecond : (((t.second : Int) - 0) % 86400).toNat = t.second := by omega
  have hday : ¬ (t.second : Int) - 0 < 0 ∧ ¬ 86400 ≤ (t.second : Int) - 0 := by omega
  unfold Timestamp.shift?
  simp only [hsecond, if_neg hday.1, if_neg hday.2]
  exact dif_pos ⟨t.second_lt, t.nano_lt⟩

/-- How much a leap second adds to the last second of a minute. -/
theorem leap_of_nano (t : Timestamp) {leap : Nat}
    (hleap : leap = if 1_000_000_000 ≤ t.nano then 1 else 0) :
    leap ≤ 1 ∧ (if t.second % 60 + leap = 60 then 1 else 0) = leap ∧
      t.nano % 1_000_000_000 + leap * 1_000_000_000 = t.nano := by
  have hnano := t.nano_lt
  split at hleap
  next hlate =>
    subst hleap
    refine ⟨Nat.le_refl 1, if_pos (by omega), by omega⟩
  next hearly =>
    subst hleap
    refine ⟨Nat.zero_le 1, if_neg (by omega), by omega⟩

/-- **A written timestamp reads back.**  The sixtieth second stands for a leap second, which
follows the fifty-ninth. -/
theorem parse_text (t : Timestamp) : Timestamp.parse t.text = .ok t := by
  obtain ⟨hmonth, hmonth'⟩ := month_mem t.date
  have hday := day_le t.date
  have hsecond := t.second_lt
  generalize hleap : (if 1_000_000_000 ≤ t.nano then 1 else 0) = leap
  obtain ⟨hle, hsixty, hnano⟩ := leap_of_nano t hleap.symm
  have hbefore : t.second % 60 + leap - leap = t.second % 60 := by omega
  have hclock : t.second / 3600 * 3600 + t.second / 60 % 60 * 60 + t.second % 60 = t.second := by
    omega
  have hoffset : scanOffset (trimBlankStart ['Z']) = .ok (0, []) := by rfl
  unfold Timestamp.parse Timestamp.text
  rw [String.toList_ofList]
  unfold Timestamp.chars Timestamp.parseChars
  simp only [hleap, List.append_assoc, List.cons_append]
  rw [scanYear_yearChars, ok_bind]
  dsimp only
  rw [scanMark_cons (by decide), ok_bind,
    scanField_paddedDigits (by omega) hmonth hmonth', ok_bind]
  dsimp only
  rw [scanMark_cons (by decide), ok_bind,
    scanField_paddedDigits (by omega) t.date.day_mem.1 hday, ok_bind]
  dsimp only
  -- The time of day.
  rw [scanSeparator_T, ok_bind, scanField_paddedDigits (by omega) (Nat.zero_le _) (by omega),
    ok_bind]
  dsimp only
  rw [scanMark_cons (by decide), ok_bind,
    scanField_paddedDigits (by omega) (Nat.zero_le _) (by omega), ok_bind]
  dsimp only
  rw [scanMark_cons (by decide), ok_bind,
    scanField_paddedDigits (by omega) (Nat.zero_le _) (by omega), ok_bind]
  dsimp only
  rw [scanFraction_fractionChars (Nat.mod_lt _ (by decide)), ok_bind]
  dsimp only
  rw [hoffset, ok_bind]
  dsimp only
  rw [ofParts?_date]
  dsimp only
  rw [hsixty, hbefore, hclock, hnano, shift?_zero]
  rfl

end GossipLedger
