import GossipLedger.Proofs.Json.Grammar

/-!
# Scanning blanks, numbers and texts

The parts of a JSON text that have no parts themselves.  What the scanner finds is spelled by
the bytes it consumed, and what is spelled it finds, whatever stands behind a text, and behind a
number whatever could not belong to it.

## Main results

* `NumberText.SpelledBy.scan`, `NumberText.exists_of_scan` — numbers.
* `SpellsUnits.scan`, `exists_quoted_of_scanText` — texts between quotes.
-/

namespace GossipLedger.Json

/-! ### Blanks -/

theorem dropSpace_append {before : Bytes} (h : Blanks before) (text : Bytes) :
    dropSpace (before ++ text) = dropSpace text := List.dropWhile_append_of_pos h

theorem dropSpace_cons {b : UInt8} (h : isSpace b = false) (text : Bytes) :
    dropSpace (b :: text) = b :: text := by
  simp [dropSpace, h]

/-- What blanks are dropped from. -/
theorem exists_eq_append_dropSpace (text : Bytes) :
    ∃ before, Blanks before ∧ text = before ++ dropSpace text :=
  ⟨text.takeWhile isSpace, List.all_eq_true.1 List.all_takeWhile,
    List.takeWhile_append_dropWhile.symm⟩

/-! ### Numbers -/

/-- Digits are found up to what is none. -/
theorem spanDigits_append {digits rest : Bytes} (h : ∀ b ∈ digits, isDigit b = true)
    (hrest : ∀ b ∈ rest.head?, isDigit b = false) :
    NumberText.spanDigits (digits ++ rest) = (digits.map digitValue, rest) := by
  have hnone : rest.takeWhile isDigit = [] ∧ rest.dropWhile isDigit = rest := by
    cases rest with
    | nil => exact ⟨rfl, rfl⟩
    | cons b rest =>
      have hb : isDigit b = false := hrest b rfl
      simp [hb]
  rw [NumberText.spanDigits, List.takeWhile_append_of_pos h, List.dropWhile_append_of_pos h,
    hnone.1, hnone.2, List.append_nil]

/-- The digits that are found stand in front. -/
theorem exists_spanDigits_eq (text : Bytes) :
    ∃ digits after, text = digits ++ after ∧ (∀ b ∈ digits, isDigit b = true) ∧
      NumberText.spanDigits text = (digits.map digitValue, after) :=
  ⟨text.takeWhile isDigit, text.dropWhile isDigit, List.takeWhile_append_dropWhile.symm,
    List.all_eq_true.1 List.all_takeWhile, rfl⟩

/-- Digits that are not missing are at least one. -/
theorem Digits.of_isEmpty {text : Bytes} (h : ∀ b ∈ text, isDigit b = true)
    (hsome : ¬(text.map digitValue).isEmpty = true) : Digits text :=
  ⟨h, by rintro rfl; exact hsome rfl⟩

theorem Digits.not_isEmpty {text : Bytes} (h : Digits text) :
    ¬(text.map digitValue).isEmpty = true := by
  simpa using h.nonempty

theorem not_isDigit_of_exponent {e : UInt8} (h : e = 101 ∨ e = 69) :
    isDigit e = false ∧ e ≠ 46 := by
  rcases h with rfl | rfl <;> decide

/-- Behind the fraction of a number stands neither a digit nor a point. -/
theorem SpellsExponent.head {e : Option (Bool × List Nat)} {text rest : Bytes}
    (h : SpellsExponent e text) (hrest : EndsNumber rest) :
    ∀ b ∈ (text ++ rest).head?, isDigit b = false ∧ b ≠ 46 := by
  intro b hb
  cases h with
  | without => exact ⟨(hrest b hb).1, (hrest b hb).2.1⟩
  | unsigned he _ =>
    cases hb
    exact not_isDigit_of_exponent he
  | plus he _ =>
    cases hb
    exact not_isDigit_of_exponent he
  | minus he _ =>
    cases hb
    exact not_isDigit_of_exponent he

/-- An exponent is found, and so is that there is none. -/
theorem SpellsExponent.scan {e : Option (Bool × List Nat)} {text rest : Bytes}
    (h : SpellsExponent e text) (hrest : EndsNumber rest) (negative : Bool) (whole : List Nat)
    (f : Option (List Nat)) :
    NumberText.scanExponent ⟨negative, whole, f, none⟩ (text ++ rest) =
      .ok (⟨negative, whole, f, e⟩, rest) := by
  have hhead : ∀ b ∈ rest.head?, isDigit b = false := fun b hb => (hrest b hb).1
  have hletter : ∀ {e : UInt8}, e = 101 ∨ e = 69 →
      (decide (e = 101) || decide (e = 69)) = true := by
    intro e he
    simpa using he
  cases h with
  | without =>
    cases rest with
    | nil => rfl
    | cons b rest =>
      obtain ⟨-, -, he, hE⟩ := hrest b rfl
      simp [NumberText.scanExponent, he, hE]
  | @unsigned e text he htext =>
    have hspan := spanDigits_append htext.digits hhead
    cases text with
    | nil => exact absurd rfl htext.nonempty
    | cons d ds =>
      have hd : isDigit d = true := htext.digits d List.mem_cons_self
      have hplus : d ≠ 43 := by rintro rfl; exact absurd hd (by decide)
      have hminus : d ≠ 45 := by rintro rfl; exact absurd hd (by decide)
      rw [List.cons_append] at hspan
      simp only [List.cons_append, NumberText.scanExponent, hletter he, if_true, if_neg hplus,
        if_neg hminus, hspan, if_neg htext.not_isEmpty]
  | @plus e text he htext =>
    have hspan := spanDigits_append htext.digits hhead
    simp only [List.cons_append, NumberText.scanExponent, hletter he, if_true, hspan,
      if_neg htext.not_isEmpty]
  | @minus e text he htext =>
    have hspan := spanDigits_append htext.digits hhead
    have hplus : (45 : UInt8) ≠ 43 := by decide
    simp only [List.cons_append, NumberText.scanExponent, hletter he, if_true, if_neg hplus, hspan,
      if_neg htext.not_isEmpty]

/-- Behind the whole digits of a number stands no digit. -/
theorem SpellsFraction.head {f : Option (List Nat)} {e : Option (Bool × List Nat)}
    {fraction exponent rest : Bytes} (hf : SpellsFraction f fraction)
    (he : SpellsExponent e exponent) (hrest : EndsNumber rest) :
    ∀ b ∈ (fraction ++ (exponent ++ rest)).head?, isDigit b = false := by
  intro b hb
  cases hf with
  | without => exact (he.head hrest b hb).1
  | digits _ =>
    cases hb
    decide

/-- A fraction and an exponent are found, and so is that there are none. -/
theorem SpellsFraction.scan {f : Option (List Nat)} {e : Option (Bool × List Nat)}
    {fraction exponent rest : Bytes} (hf : SpellsFraction f fraction)
    (he : SpellsExponent e exponent) (hrest : EndsNumber rest) (negative : Bool)
    (whole : List Nat) :
    NumberText.scanFraction ⟨negative, whole, none, none⟩ (fraction ++ (exponent ++ rest)) =
      .ok (⟨negative, whole, f, e⟩, rest) := by
  have hhead := he.head hrest
  cases hf with
  | without =>
    have hscan := he.scan hrest negative whole none
    rw [List.nil_append]
    cases htext : exponent ++ rest with
    | nil => rwa [htext] at hscan
    | cons b text =>
      rw [htext] at hscan hhead
      have hpoint : b ≠ 46 := (hhead b rfl).2
      simp only [NumberText.scanFraction, if_neg hpoint, hscan]
  | @digits text htext =>
    have hspan := spanDigits_append htext.digits fun b hb => (hhead b hb).1
    have hscan := he.scan hrest negative whole (some (text.map digitValue))
    simp only [List.cons_append, NumberText.scanFraction, if_true, hspan, if_neg htext.not_isEmpty,
      hscan]

/-- **A number is found**, unless what stands behind it could belong to it. -/
theorem NumberText.SpelledBy.scan {n : NumberText} {text rest : Bytes} (h : n.SpelledBy text)
    (hrest : EndsNumber rest) : NumberText.scan (text ++ rest) = .ok (n, rest) := by
  cases h with
  | @parts negative whole fraction exponent f e hwhole hzero hf he =>
    have hspan := spanDigits_append hwhole.digits (hf.head he hrest)
    have hscan := hf.scan he hrest negative (whole.map digitValue)
    have hne : whole.map digitValue ≠ [] := by simpa using hwhole.nonempty
    have hlong : ∀ d ds, whole.map digitValue ≠ 0 :: d :: ds := by
      intro d ds heq
      exact absurd (hzero _ heq) (List.cons_ne_nil d ds)
    rw [List.append_assoc, List.append_assoc, List.append_assoc]
    cases negative with
    | true =>
      rw [signBytes, if_pos rfl, List.singleton_append]
      simp only [NumberText.scan, if_true, hspan]
      exact hscan
    | false =>
      rw [signBytes, if_neg Bool.false_ne_true, List.nil_append]
      cases whole with
      | nil => exact absurd rfl hwhole.nonempty
      | cons d ds =>
        have hd : d ≠ 45 := by
          rintro rfl
          exact absurd (hwhole.digits _ List.mem_cons_self) (by decide)
        rw [List.cons_append] at hspan ⊢
        simp only [NumberText.scan, if_neg hd, hspan]
        exact hscan

/-- What is found of an exponent is spelled by what was consumed. -/
theorem exists_of_scanExponent {negative : Bool} {whole : List Nat} {f : Option (List Nat)}
    {n : NumberText} {text rest : Bytes}
    (h : NumberText.scanExponent ⟨negative, whole, f, none⟩ text = .ok (n, rest)) :
    ∃ e exponent, n = ⟨negative, whole, f, e⟩ ∧ text = exponent ++ rest ∧
      SpellsExponent e exponent := by
  -- the digits behind the letter and the sign, which are the same whatever the sign is
  have hdigits : ∀ (sign : Bool) {text : Bytes},
      (if (NumberText.spanDigits text).1.isEmpty = true then
        .error (NumberText.digitFlaw (NumberText.spanDigits text).2)
      else Except.ok (NumberText.mk negative whole f (some (sign, (NumberText.spanDigits text).1)),
        (NumberText.spanDigits text).2)) = .ok (n, rest) →
      ∃ digits, Digits digits ∧ text = digits ++ rest ∧
        n = ⟨negative, whole, f, some (sign, digits.map digitValue)⟩ := by
    intro sign text h
    obtain ⟨digits, after, htext, hall, hspan⟩ := exists_spanDigits_eq text
    rw [hspan] at h
    split at h
    next => exact nomatch h
    next hsome =>
      obtain ⟨rfl, rfl⟩ := Prod.mk.inj (Except.ok.inj h)
      exact ⟨digits, .of_isEmpty hall hsome, htext, rfl⟩
  unfold NumberText.scanExponent at h
  split at h
  next b text =>
    split at h
    next hletter =>
      have he : b = 101 ∨ b = 69 := by simpa using hletter
      cases text with
      | nil => exact nomatch h
      | cons s text =>
        by_cases hplus : s = 43
        · subst hplus
          obtain ⟨digits, hd, rfl, rfl⟩ := hdigits false h
          exact ⟨_, _, rfl, rfl, .plus he hd⟩
        · by_cases hminus : s = 45
          · subst hminus
            obtain ⟨digits, hd, rfl, rfl⟩ := hdigits true h
            exact ⟨_, _, rfl, rfl, .minus he hd⟩
          · simp only [if_neg hplus, if_neg hminus] at h
            obtain ⟨digits, hd, htext, rfl⟩ := hdigits false h
            exact ⟨_, _, rfl, by rw [htext, List.cons_append], .unsigned he hd⟩
    next =>
      obtain ⟨rfl, rfl⟩ := Prod.mk.inj (Except.ok.inj h)
      exact ⟨none, [], rfl, rfl, .without⟩
  next =>
    obtain ⟨rfl, rfl⟩ := Prod.mk.inj (Except.ok.inj h)
    exact ⟨none, [], rfl, rfl, .without⟩

/-- What is found of a fraction and an exponent is spelled by what was consumed. -/
theorem exists_of_scanFraction {negative : Bool} {whole : List Nat} {n : NumberText}
    {text rest : Bytes}
    (h : NumberText.scanFraction ⟨negative, whole, none, none⟩ text = .ok (n, rest)) :
    ∃ f e fraction exponent, n = ⟨negative, whole, f, e⟩ ∧
      text = fraction ++ (exponent ++ rest) ∧ SpellsFraction f fraction ∧
      SpellsExponent e exponent := by
  unfold NumberText.scanFraction at h
  split at h
  next b text =>
    split at h
    next hpoint =>
      subst hpoint
      obtain ⟨digits, after, htext, hall, hspan⟩ := exists_spanDigits_eq text
      simp only [hspan] at h
      split at h
      next => exact nomatch h
      next hsome =>
        obtain ⟨e, exponent, rfl, hrest, he⟩ := exists_of_scanExponent h
        refine ⟨_, e, 46 :: digits, exponent, rfl, ?_, .digits (.of_isEmpty hall hsome), he⟩
        rw [htext, hrest, List.cons_append]
    next =>
      obtain ⟨e, exponent, rfl, hrest, he⟩ := exists_of_scanExponent h
      exact ⟨none, e, [], exponent, rfl, hrest, .without, he⟩
  next =>
    obtain ⟨rfl, rfl⟩ := Prod.mk.inj (Except.ok.inj h)
    exact ⟨none, none, [], [], rfl, rfl, .without, .without⟩

/-- What is found of a number behind its sign, once its whole digits are known. -/
theorem exists_of_whole {negative : Bool} {digits after rest : Bytes} {n : NumberText}
    (hall : ∀ b ∈ digits, isDigit b = true) (hne : digits.map digitValue ≠ [])
    (hlong : ∀ d ds, digits.map digitValue ≠ 0 :: d :: ds)
    (h : NumberText.scanFraction ⟨negative, digits.map digitValue, none, none⟩ after =
      .ok (n, rest)) :
    ∃ number, digits ++ after = number ++ rest ∧ n.SpelledBy (signBytes negative ++ number) := by
  obtain ⟨f, e, fraction, exponent, rfl, hrest, hf, he⟩ := exists_of_scanFraction h
  have hzero : ∀ ds, digits.map digitValue = 0 :: ds → ds = [] := by
    intro ds heq
    cases ds with
    | nil => rfl
    | cons d ds => exact absurd heq (hlong d ds)
  have hdigits : Digits digits := ⟨hall, by rintro rfl; exact hne rfl⟩
  refine ⟨digits ++ (fraction ++ exponent), ?_, .parts hdigits hzero hf he⟩
  rw [hrest, List.append_assoc, List.append_assoc]

/-- **What is found of a number is spelled by what was consumed.** -/
theorem NumberText.exists_of_scan {n : NumberText} {text rest : Bytes}
    (h : NumberText.scan text = .ok (n, rest)) :
    ∃ number, text = number ++ rest ∧ n.SpelledBy number := by
  unfold NumberText.scan at h
  cases text with
  | nil => exact nomatch h
  | cons b text =>
    by_cases hminus : b = 45
    · obtain ⟨digits, after, rfl, hall, hspan⟩ := exists_spanDigits_eq text
      simp only [if_pos hminus, hspan] at h
      split at h
      next => exact nomatch h
      next => exact nomatch h
      next hne hlong =>
        obtain ⟨number, hnumber, hspelled⟩ := exists_of_whole hall hne hlong h
        exact ⟨Mark.minus :: number, by rw [hminus, hnumber, List.cons_append], hspelled⟩
    · obtain ⟨digits, after, htext, hall, hspan⟩ := exists_spanDigits_eq (b :: text)
      simp only [if_neg hminus, hspan] at h
      split at h
      next => exact nomatch h
      next => exact nomatch h
      next hne hlong =>
        obtain ⟨number, hnumber, hspelled⟩ := exists_of_whole hall hne hlong h
        exact ⟨number, htext.trans hnumber, hspelled⟩

/-! ### Texts -/

/-- **The units of a text are found**, whatever stands behind the closing quote. -/
theorem SpellsUnits.scan {us : List TextUnit} {text : Bytes} (h : SpellsUnits us text)
    (rest : Bytes) : scanText (text ++ rest) = (⟨us, none⟩, rest) := by
  have hslash : (Mark.backslash : UInt8) ≠ Mark.quote := by decide
  induction h with
  | closed =>
    unfold scanText
    rfl
  | plain hquote hslash hcontrol _ ih =>
    rw [List.cons_append, scanText.eq_def]
    simp only [if_neg hquote, if_neg hslash, if_neg hcontrol, ih]
    rfl
  | @short e b us text hshort _ ih =>
    have hcode : e ≠ 117 := by
      rintro rfl
      exact nomatch hshort
    rw [List.cons_append, List.cons_append, scanText.eq_def]
    simp only [if_neg hslash, if_pos, if_neg hcode, hshort, ih]
    rfl
  | code hunit _ ih =>
    simp only [List.cons_append]
    rw [scanText.eq_def]
    simp only [if_neg hslash, if_pos, hunit, ih]
    rfl

/-- **The units that are found are spelled by what was consumed**, if there is a closing
quote. -/
theorem exists_of_scanText {text : Bytes} (h : (scanText text).1.flaw = none) :
    ∃ units, text = units ++ (scanText text).2 ∧ SpellsUnits (scanText text).1.units units := by
  fun_induction scanText text with
  | case2 rest => exact ⟨_, rfl, .closed⟩
  | case4 h₁ h₂ h₃ h₄ rest n hunit _ ih =>
    obtain ⟨units, hrest, hspelled⟩ := ih h
    exact ⟨_, congrArg (Mark.backslash :: 117 :: h₁ :: h₂ :: h₃ :: h₄ :: ·) hrest,
      .code hunit hspelled⟩
  | case7 e rest _ b hshort _ ih =>
    obtain ⟨units, hrest, hspelled⟩ := ih h
    exact ⟨_, congrArg (Mark.backslash :: e :: ·) hrest, .short hshort hspelled⟩
  | case10 b rest hquote hslash hcontrol ih =>
    obtain ⟨units, hrest, hspelled⟩ := ih h
    exact ⟨_, congrArg (b :: ·) hrest, .plain hquote hslash hcontrol hspelled⟩
  | _ => exact nomatch h

/-- The text between two quotes, if the second one is there. -/
theorem exists_quoted_of_scanText {text : Bytes} (h : (scanText text).1.flaw = none) :
    ∃ quoted, Mark.quote :: text = quoted ++ (scanText text).2 ∧
      (scanText text).1.SpelledBy quoted := by
  obtain ⟨units, htext, hspelled⟩ := exists_of_scanText h
  refine ⟨Mark.quote :: units, congrArg (Mark.quote :: ·) htext, ?_⟩
  have hquoted := RawText.SpelledBy.quoted hspelled
  rw [← h] at hquoted
  exact hquoted

end GossipLedger.Json
