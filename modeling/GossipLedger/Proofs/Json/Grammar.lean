import GossipLedger.Json.Scan

/-!
# The grammar of JSON

The grammar says which bytes spell which tree, without a word about how a text is scanned.
Blanks stand between the parts of a value and never inside them, a comma between any two items
and none behind the last, and a number has no zero in front.

## Main definitions

* `NumberText.SpelledBy`, `RawText.SpelledBy` — numbers and texts between quotes.
* `Spells` — the bytes of a value, from the first to the last.
* `EndsNumber` — what may stand behind a number.

## Main results

* `Spells.head` — no value begins with a blank or a closing bracket.
* `SpellsMoreItems.endsNumber`, `SpellsMoreMembers.endsNumber` — inside lists and records a
  number always ends.
-/

namespace GossipLedger.Json

/-! ### The grammar -/

/-- Nothing but blanks. -/
def Blanks (text : Bytes) : Prop := ∀ b ∈ text, isSpace b = true

theorem Blanks.nil : Blanks [] := fun _ hb => nomatch hb

theorem Blanks.append {before between : Bytes} (h : Blanks before) (h' : Blanks between) :
    Blanks (before ++ between) := List.forall_mem_append.2 ⟨h, h'⟩

/-- At least one digit, and nothing but digits. -/
structure Digits (text : Bytes) : Prop where
  digits : ∀ b ∈ text, isDigit b = true
  nonempty : text ≠ []

/-- The sign of a number. -/
def signBytes (negative : Bool) : Bytes := if negative then [Mark.minus] else []

/-- The fraction of a number with the point in front of it. -/
inductive SpellsFraction : Option (List Nat) → Bytes → Prop
  | without : SpellsFraction none []
  | digits {text : Bytes} : Digits text → SpellsFraction (some (text.map digitValue)) (46 :: text)

/-- The exponent of a number with the letter in front of it. -/
inductive SpellsExponent : Option (Bool × List Nat) → Bytes → Prop
  | without : SpellsExponent none []
  | unsigned {e : UInt8} {text : Bytes} : e = 101 ∨ e = 69 → Digits text →
      SpellsExponent (some (false, text.map digitValue)) (e :: text)
  | plus {e : UInt8} {text : Bytes} : e = 101 ∨ e = 69 → Digits text →
      SpellsExponent (some (false, text.map digitValue)) (e :: 43 :: text)
  | minus {e : UInt8} {text : Bytes} : e = 101 ∨ e = 69 → Digits text →
      SpellsExponent (some (true, text.map digitValue)) (e :: 45 :: text)

/-- A number is spelled by its sign, its whole digits without a zero in front, its fraction and
its exponent. -/
inductive NumberText.SpelledBy : NumberText → Bytes → Prop
  | parts {negative : Bool} {whole fraction exponent : Bytes} {f : Option (List Nat)}
      {e : Option (Bool × List Nat)} : Digits whole →
      (∀ ds, whole.map digitValue = 0 :: ds → ds = []) → SpellsFraction f fraction →
      SpellsExponent e exponent →
      NumberText.SpelledBy ⟨negative, whole.map digitValue, f, e⟩
        (signBytes negative ++ (whole ++ (fraction ++ exponent)))

/-- The units of a text are spelled up to its closing quote. -/
inductive SpellsUnits : List TextUnit → Bytes → Prop
  | closed : SpellsUnits [] [Mark.quote]
  | plain {b : UInt8} {us : List TextUnit} {text : Bytes} : b ≠ Mark.quote → b ≠ Mark.backslash →
      ¬b < 32 → SpellsUnits us text → SpellsUnits (.byte b :: us) (b :: text)
  | short {e b : UInt8} {us : List TextUnit} {text : Bytes} : shortEscape? e = some b →
      SpellsUnits us text → SpellsUnits (.byte b :: us) (Mark.backslash :: e :: text)
  | code {h₁ h₂ h₃ h₄ : UInt8} {n : Nat} {us : List TextUnit} {text : Bytes} :
      hexUnit? h₁ h₂ h₃ h₄ = some n → SpellsUnits us text →
      SpellsUnits (.code n :: us) (Mark.backslash :: 117 :: h₁ :: h₂ :: h₃ :: h₄ :: text)

/-- A text is spelled by its units between quotes. -/
inductive RawText.SpelledBy : RawText → Bytes → Prop
  | quoted {us : List TextUnit} {text : Bytes} : SpellsUnits us text →
      RawText.SpelledBy ⟨us, none⟩ (Mark.quote :: text)

mutual

/-- The bytes of a value, from the first to the last. -/
inductive Spells : Value → Bytes → Prop
  | null : Spells .null [110, 117, 108, 108]
  | yes : Spells (.boolean true) [116, 114, 117, 101]
  | no : Spells (.boolean false) [102, 97, 108, 115, 101]
  | number {n : NumberText} {text : Bytes} : n.SpelledBy text → Spells (.number n) text
  | text {t : RawText} {text : Bytes} : t.SpelledBy text → Spells (.text t) text
  | list {items : Items} {text : Bytes} : SpellsItems items text →
      Spells (.list items) (Mark.openList :: text)
  | record {members : Members} {text : Bytes} : SpellsMembers members text →
      Spells (.record members) (Mark.openRecord :: text)

/-- The bytes behind the opening of a list. -/
inductive SpellsItems : Items → Bytes → Prop
  | closed {before : Bytes} : Blanks before → SpellsItems .closed (before ++ [Mark.closeList])
  | first {v : Value} {items : Items} {before text rest : Bytes} : Blanks before →
      Spells v text → SpellsMoreItems items rest →
      SpellsItems (.more v items) (before ++ (text ++ rest))

/-- The bytes behind an item of a list. -/
inductive SpellsMoreItems : Items → Bytes → Prop
  | closed {before : Bytes} : Blanks before →
      SpellsMoreItems .closed (before ++ [Mark.closeList])
  | next {v : Value} {items : Items} {before between text rest : Bytes} : Blanks before →
      Blanks between → Spells v text → SpellsMoreItems items rest →
      SpellsMoreItems (.more v items) (before ++ Mark.comma :: (between ++ (text ++ rest)))

/-- The bytes behind the opening of a record. -/
inductive SpellsMembers : Members → Bytes → Prop
  | closed {before : Bytes} : Blanks before →
      SpellsMembers .closed (before ++ [Mark.closeRecord])
  | first {members : Members} {before text : Bytes} : Blanks before →
      SpellsMember members text → SpellsMembers members (before ++ text)

/-- The bytes of a member from its key on, and those behind it. -/
inductive SpellsMember : Members → Bytes → Prop
  | member {key : RawText} {v : Value} {members : Members}
      {name behind before text rest : Bytes} : key.SpelledBy name → Blanks behind →
      Blanks before → Spells v text → SpellsMoreMembers members rest →
      SpellsMember (.more key v members)
        (name ++ (behind ++ Mark.colon :: (before ++ (text ++ rest))))

/-- The bytes behind a member of a record. -/
inductive SpellsMoreMembers : Members → Bytes → Prop
  | closed {before : Bytes} : Blanks before →
      SpellsMoreMembers .closed (before ++ [Mark.closeRecord])
  | next {members : Members} {before between text : Bytes} : Blanks before → Blanks between →
      SpellsMember members text →
      SpellsMoreMembers members (before ++ Mark.comma :: (between ++ text))

end

/-- What may stand behind a number: no digit, no point and no exponent. -/
def EndsNumber (rest : Bytes) : Prop :=
  ∀ b ∈ rest.head?, isDigit b = false ∧ b ≠ 46 ∧ b ≠ 101 ∧ b ≠ 69

/-! ### How values begin and what follows them -/

/-- What may begin a value. -/
structure Opens (b : UInt8) : Prop where
  space : isSpace b = false
  list : b ≠ Mark.closeList
  record : b ≠ Mark.closeRecord

theorem Opens.of_isDigit {b : UInt8} (h : isDigit b = true) : Opens b := by
  refine ⟨?_, ?_, ?_⟩
  · rw [Bool.eq_false_iff]
    intro hspace
    simp only [isSpace, Bool.or_eq_true, decide_eq_true_eq] at hspace
    rcases hspace with ((rfl | rfl) | rfl) | rfl <;> exact absurd h (by decide)
  · rintro rfl
    exact absurd h (by decide)
  · rintro rfl
    exact absurd h (by decide)

/-- A number begins with its sign or with a digit. -/
theorem NumberText.SpelledBy.head {n : NumberText} {text : Bytes} (h : n.SpelledBy text) :
    ∃ b bs, text = b :: bs ∧ (b = Mark.minus ∨ isDigit b = true) := by
  cases h with
  | @parts negative whole _ _ _ _ hwhole _ _ _ =>
    cases negative with
    | true => exact ⟨Mark.minus, _, rfl, Or.inl rfl⟩
    | false =>
      cases whole with
      | nil => exact absurd rfl hwhole.nonempty
      | cons d ds => exact ⟨d, _, rfl, Or.inr (hwhole.digits d List.mem_cons_self)⟩

theorem Spells.head {v : Value} {text : Bytes} (h : Spells v text) :
    ∃ b bs, text = b :: bs ∧ Opens b := by
  cases h with
  | null => exact ⟨_, _, rfl, by decide, by decide, by decide⟩
  | yes => exact ⟨_, _, rfl, by decide, by decide, by decide⟩
  | no => exact ⟨_, _, rfl, by decide, by decide, by decide⟩
  | number hn =>
    obtain ⟨b, bs, htext, hb⟩ := hn.head
    refine ⟨b, bs, htext, ?_⟩
    rcases hb with rfl | hdigit
    · exact ⟨by decide, by decide, by decide⟩
    · exact .of_isDigit hdigit
  | text ht =>
    cases ht
    exact ⟨_, _, rfl, by decide, by decide, by decide⟩
  | list _ => exact ⟨_, _, rfl, by decide, by decide, by decide⟩
  | record _ => exact ⟨_, _, rfl, by decide, by decide, by decide⟩

theorem Spells.length_pos {v : Value} {text : Bytes} (h : Spells v text) : 0 < text.length := by
  obtain ⟨b, bs, rfl, -⟩ := h.head
  exact Nat.zero_lt_succ _

theorem SpellsItems.length_pos {items : Items} {text : Bytes} (h : SpellsItems items text) :
    0 < text.length := by
  cases h with
  | closed _ => simp
  | first _ hv _ =>
    have hpos := hv.length_pos
    simp only [List.length_append]
    omega

theorem SpellsMoreItems.length_pos {items : Items} {text : Bytes} (h : SpellsMoreItems items text) :
    0 < text.length := by
  cases h <;> (simp only [List.length_append, List.length_cons]; omega)

theorem SpellsMoreMembers.length_pos {members : Members} {text : Bytes}
    (h : SpellsMoreMembers members text) : 0 < text.length := by
  cases h <;> (simp only [List.length_append, List.length_cons]; omega)

/-- A member has at least a quote and a colon. -/
theorem SpellsMember.one_lt_length {members : Members} {text : Bytes}
    (h : SpellsMember members text) : 1 < text.length := by
  cases h with
  | member hkey _ _ _ _ =>
    cases hkey
    simp only [List.length_append, List.length_cons]
    omega

theorem SpellsMembers.length_pos {members : Members} {text : Bytes}
    (h : SpellsMembers members text) : 0 < text.length := by
  cases h with
  | closed _ => simp
  | first _ hmember =>
    have hpos := hmember.one_lt_length
    rw [List.length_append]
    omega

/-- Blanks end a number as well as what stands behind them. -/
theorem EndsNumber.of_blanks {before : Bytes} (h : Blanks before) {rest : Bytes}
    (hrest : EndsNumber rest) : EndsNumber (before ++ rest) := by
  intro b hb
  cases before with
  | nil => exact hrest b hb
  | cons c before =>
    obtain rfl : c = b := Option.some.inj hb
    have hspace := h c List.mem_cons_self
    simp only [isSpace, Bool.or_eq_true, decide_eq_true_eq] at hspace
    rcases hspace with ((rfl | rfl) | rfl) | rfl <;> decide

theorem EndsNumber.of_head {b : UInt8} {rest : Bytes}
    (h : isDigit b = false ∧ b ≠ 46 ∧ b ≠ 101 ∧ b ≠ 69) : EndsNumber (b :: rest) := by
  intro c hc
  cases hc
  exact h

theorem SpellsMoreItems.endsNumber {items : Items} {text : Bytes} (h : SpellsMoreItems items text)
    (rest : Bytes) : EndsNumber (text ++ rest) := by
  cases h with
  | closed hbefore =>
    rw [List.append_assoc]
    exact .of_blanks hbefore (.of_head (by decide))
  | next hbefore _ _ _ =>
    rw [List.append_assoc]
    exact .of_blanks hbefore (.of_head (by decide))

theorem SpellsMoreMembers.endsNumber {members : Members} {text : Bytes}
    (h : SpellsMoreMembers members text) (rest : Bytes) : EndsNumber (text ++ rest) := by
  cases h with
  | closed hbefore =>
    rw [List.append_assoc]
    exact .of_blanks hbefore (.of_head (by decide))
  | next hbefore _ _ =>
    rw [List.append_assoc]
    exact .of_blanks hbefore (.of_head (by decide))

end GossipLedger.Json
