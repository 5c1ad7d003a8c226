import GossipLedger.Proofs.Json.Parts

/-!
# Scanning follows the grammar

The scanner never fails, but its tree says where a text left the grammar.  A tree without such a
flaw is spelled by the bytes that were consumed; and bytes that spell a tree are scanned into it,
whatever stands behind them, as long as there are no fewer steps than bytes.  So what a text
spells at its beginning is one tree at most, numbers aside, which go on as long as digits do.

Both proofs are one induction on the steps that the scanner may take, with a lemma for each of
its six functions.

## Main definitions

* `Suffices` — so many steps are enough for what is spelled.
* `Follows` — so many steps see a flaw or follow the grammar.

## Main results

* `scan_of_spells` — **what spells a tree is scanned into it.**
* `spells_of_scan` — **a tree without a flaw is spelled by what was consumed.**
-/

namespace GossipLedger.Json

/-! ### What spells a tree is scanned into it -/

/-- **So many steps are enough** for whatever is spelled with no more bytes than steps. -/
structure Suffices (fuel : Nat) : Prop where
  value : ∀ {v : Value} {before text : Bytes} (rest : Bytes), Spells v text → Blanks before →
    (∀ n, v = .number n → EndsNumber rest) → text.length ≤ fuel →
    scanValue fuel (before ++ (text ++ rest)) = (v, rest)
  items : ∀ {items : Items} {text : Bytes} (rest : Bytes), SpellsItems items text →
    text.length ≤ fuel → scanItems fuel (text ++ rest) = (items, rest)
  moreItems : ∀ {items : Items} {text : Bytes} (rest : Bytes), SpellsMoreItems items text →
    text.length ≤ fuel → scanMoreItems fuel (text ++ rest) = (items, rest)
  members : ∀ {members : Members} {text : Bytes} (rest : Bytes), SpellsMembers members text →
    text.length ≤ fuel → scanMembers fuel (text ++ rest) = (members, rest)
  -- a member takes a step before its key, but has at least four bytes for it
  member : ∀ {members : Members} {before text : Bytes} (rest : Bytes), SpellsMember members text →
    Blanks before → text.length ≤ fuel + 1 →
    scanMember fuel (before ++ (text ++ rest)) = (members, rest)
  moreMembers : ∀ {members : Members} {text : Bytes} (rest : Bytes),
    SpellsMoreMembers members text → text.length ≤ fuel →
    scanMoreMembers fuel (text ++ rest) = (members, rest)

theorem Suffices.scanValue {fuel : Nat} (h : Suffices fuel) {v : Value} {before text : Bytes}
    (rest : Bytes) (hv : Spells v text) (hbefore : Blanks before)
    (hrest : ∀ n, v = .number n → EndsNumber rest) (hlength : text.length ≤ fuel + 1) :
    scanValue (fuel + 1) (before ++ (text ++ rest)) = (v, rest) := by
  rw [Json.scanValue, dropSpace_append hbefore]
  cases hv with
  | null => rfl
  | yes => rfl
  | no => rfl
  | number hn =>
    have hscan := hn.scan (hrest _ rfl)
    obtain ⟨b, bs, rfl, hb⟩ := hn.head
    have hspace : isSpace b = false := by
      rcases hb with rfl | hdigit
      · decide
      · exact (Opens.of_isDigit hdigit).space
    have hmarks : b ≠ Mark.quote ∧ b ≠ Mark.openRecord ∧ b ≠ Mark.openList := by
      refine ⟨?_, ?_, ?_⟩ <;> (rintro rfl; exact absurd hb (by decide))
    have hnumber : (decide (b = Mark.minus) || isDigit b) = true := by simpa using hb
    rw [List.cons_append] at hscan ⊢
    simp only [dropSpace_cons hspace, if_neg hmarks.1, if_neg hmarks.2.1, if_neg hmarks.2.2,
      hnumber, if_true, scanNumber, hscan]
  | text ht =>
    cases ht with
    | quoted hunits =>
      rw [List.cons_append, dropSpace_cons (by decide)]
      simp only [if_true, hunits.scan rest]
  | list hitems =>
    rw [List.length_cons] at hlength
    have hscan := h.items rest hitems (by omega)
    rw [List.cons_append, dropSpace_cons (by decide)]
    show (Value.list _, _) = _
    rw [hscan]
  | record hmembers =>
    rw [List.length_cons] at hlength
    have hscan := h.members rest hmembers (by omega)
    rw [List.cons_append, dropSpace_cons (by decide)]
    show (Value.record _, _) = _
    rw [hscan]

theorem Suffices.scanItems {fuel : Nat} (h : Suffices fuel) {items : Items} {text : Bytes}
    (rest : Bytes) (hitems : SpellsItems items text) (hlength : text.length ≤ fuel + 1) :
    scanItems (fuel + 1) (text ++ rest) = (items, rest) := by
  cases hitems with
  | closed hbefore =>
    rw [Json.scanItems, List.append_assoc, dropSpace_append hbefore]
    rfl
  | @first v items before text more hbefore hv hmore =>
    have hpos := hv.length_pos
    have hmorePos := hmore.length_pos
    rw [List.length_append, List.length_append] at hlength
    have hvalue := h.value (more ++ rest) hv .nil
      (fun _ _ => hmore.endsNumber rest) (by omega)
    have hitems := h.moreItems rest hmore (by omega)
    obtain ⟨b, bs, rfl, hopens⟩ := hv.head
    rw [List.nil_append, List.cons_append] at hvalue
    rw [Json.scanItems, List.append_assoc, dropSpace_append hbefore, List.append_assoc,
      List.cons_append, dropSpace_cons hopens.space]
    simp only [if_neg hopens.list, hvalue, hitems]

theorem Suffices.scanMoreItems {fuel : Nat} (h : Suffices fuel) {items : Items} {text : Bytes}
    (rest : Bytes) (hitems : SpellsMoreItems items text) (hlength : text.length ≤ fuel + 1) :
    scanMoreItems (fuel + 1) (text ++ rest) = (items, rest) := by
  cases hitems with
  | closed hbefore =>
    rw [Json.scanMoreItems, List.append_assoc, dropSpace_append hbefore]
    rfl
  | @next v items before between text more hbefore hbetween hv hmore =>
    simp only [List.length_append, List.length_cons] at hlength
    have hvalue := h.value (more ++ rest) hv hbetween (fun _ _ => hmore.endsNumber rest)
      (by omega)
    have hitems := h.moreItems rest hmore (by omega)
    rw [Json.scanMoreItems, List.append_assoc, dropSpace_append hbefore, List.cons_append,
      dropSpace_cons (by decide), List.append_assoc, List.append_assoc]
    simp only [hvalue, hitems]
    rfl

theorem Suffices.scanMembers {fuel : Nat} (h : Suffices fuel) {members : Members} {text : Bytes}
    (rest : Bytes) (hmembers : SpellsMembers members text) (hlength : text.length ≤ fuel + 1) :
    scanMembers (fuel + 1) (text ++ rest) = (members, rest) := by
  cases hmembers with
  | closed hbefore =>
    rw [Json.scanMembers, List.append_assoc, dropSpace_append hbefore]
    rfl
  | @first members before text hbefore hmember =>
    rw [List.length_append] at hlength
    have hscan := h.member rest hmember .nil (by omega)
    rw [Json.scanMembers, List.append_assoc, dropSpace_append hbefore]
    cases hmember with
    | member hkey =>
      cases hkey with
      | quoted hunits => exact hscan

theorem Suffices.scanMember {fuel : Nat} (h : Suffices fuel) {members : Members}
    {before text : Bytes} (rest : Bytes) (hmember : SpellsMember members text)
    (hbefore : Blanks before) (hlength : text.length ≤ fuel + 1 + 1) :
    scanMember (fuel + 1) (before ++ (text ++ rest)) = (members, rest) := by
  cases hmember with
  | @member key v members name behind between text more hkey hbehind hbetween hv hmore =>
    cases hkey with
    | @quoted us units hunits =>
      have hpos := hv.length_pos
      have hmorePos := hmore.length_pos
      simp only [List.length_append, List.length_cons] at hlength
      have hvalue := h.value (more ++ rest) hv hbetween (fun _ _ => hmore.endsNumber rest)
        (by omega)
      have hmembers := h.moreMembers rest hmore (by omega)
      have hcolon : dropSpace (behind ++ Mark.colon :: (between ++ (text ++ (more ++ rest)))) =
          Mark.colon :: (between ++ (text ++ (more ++ rest))) := by
        rw [dropSpace_append hbehind, dropSpace_cons (by decide)]
      rw [Json.scanMember, dropSpace_append hbefore]
      simp only [List.cons_append, List.append_assoc, dropSpace_cons (b := Mark.quote) (by decide),
        if_true, hunits.scan, hcolon, hvalue, hmembers]

theorem Suffices.scanMoreMembers {fuel : Nat} (h : Suffices fuel) {members : Members}
    {text : Bytes} (rest : Bytes) (hmembers : SpellsMoreMembers members text)
    (hlength : text.length ≤ fuel + 1) :
    scanMoreMembers (fuel + 1) (text ++ rest) = (members, rest) := by
  cases hmembers with
  | closed hbefore =>
    rw [Json.scanMoreMembers, List.append_assoc, dropSpace_append hbefore]
    rfl
  | @next members before between text hbefore hbetween hmember =>
    simp only [List.length_append, List.length_cons] at hlength
    have hscan := h.member rest hmember hbetween (by omega)
    rw [Json.scanMoreMembers, List.append_assoc, dropSpace_append hbefore, List.cons_append,
      dropSpace_cons (by decide), List.append_assoc]
    exact hscan

/-- **Nothing needs more steps than it has bytes.** -/
theorem suffices_length (fuel : Nat) : Suffices fuel := by
  induction fuel with
  | zero =>
    constructor
    case value => exact fun _ hv _ _ h => absurd hv.length_pos (Nat.not_lt.2 h)
    case items => exact fun _ hitems h => absurd hitems.length_pos (Nat.not_lt.2 h)
    case moreItems => exact fun _ hitems h => absurd hitems.length_pos (Nat.not_lt.2 h)
    case members => exact fun _ hmembers h => absurd hmembers.length_pos (Nat.not_lt.2 h)
    case member => exact fun _ hmember _ h => absurd hmember.one_lt_length (Nat.not_lt.2 h)
    case moreMembers => exact fun _ hmembers h => absurd hmembers.length_pos (Nat.not_lt.2 h)
  | succ fuel ih =>
    exact ⟨ih.scanValue, ih.scanItems, ih.scanMoreItems, ih.scanMembers, ih.scanMember,
      ih.scanMoreMembers⟩

/-! ### A tree without a flaw is spelled by what was consumed -/

/-- **So many steps follow the grammar** as far as they see no flaw. -/
structure Follows (fuel : Nat) : Prop where
  value : ∀ {text rest : Bytes} {v : Value}, scanValue fuel text = (v, rest) → v.skip = none →
    ∃ before t, text = before ++ (t ++ rest) ∧ Blanks before ∧ Spells v t
  items : ∀ {text rest : Bytes} {items : Items}, scanItems fuel text = (items, rest) →
    items.skip = none → ∃ t, text = t ++ rest ∧ SpellsItems items t
  moreItems : ∀ {text rest : Bytes} {items : Items}, scanMoreItems fuel text = (items, rest) →
    items.skip = none → ∃ t, text = t ++ rest ∧ SpellsMoreItems items t
  members : ∀ {text rest : Bytes} {members : Members}, scanMembers fuel text = (members, rest) →
    members.skip = none → ∃ t, text = t ++ rest ∧ SpellsMembers members t
  member : ∀ {text rest : Bytes} {members : Members}, scanMember fuel text = (members, rest) →
    members.skip = none →
    ∃ before t, text = before ++ (t ++ rest) ∧ Blanks before ∧ SpellsMember members t
  moreMembers : ∀ {text rest : Bytes} {members : Members},
    scanMoreMembers fuel text = (members, rest) → members.skip = none →
    ∃ t, text = t ++ rest ∧ SpellsMoreMembers members t

/-- A name without a flaw is there with all its letters. -/
theorem exists_of_scanName {v w : Value} {letters text rest : Bytes}
    (h : scanName v letters text = (w, rest)) (hw : w.skip = none) :
    w = v ∧ text = letters ++ rest := by
  induction letters generalizing text with
  | nil =>
    obtain ⟨rfl, rfl⟩ := Prod.mk.inj h
    exact ⟨rfl, rfl⟩
  | cons letter letters ih =>
    cases text with
    | nil =>
      obtain ⟨rfl, -⟩ := Prod.mk.inj h
      exact nomatch hw
    | cons b text =>
      rw [scanName] at h
      split at h
      next hb =>
        obtain ⟨hv, htext⟩ := ih h
        exact ⟨hv, by rw [hb, htext, List.cons_append]⟩
      next =>
        obtain ⟨rfl, -⟩ := Prod.mk.inj h
        exact nomatch hw

/-- A list without a flaw has none in its first item and none in those behind it. -/
theorem Items.skip_more {v : Value} {items : Items} :
    (Items.more v items).skip = none ↔ v.skip = none ∧ items.skip = none := by
  rw [Items.skip]
  cases v.skip <;> simp

/-- A record without a flaw has none in its first key, none in the value and none in the members
behind it. -/
theorem Members.skip_more {key : RawText} {v : Value} {members : Members} :
    (Members.more key v members).skip = none ↔
      key.flaw = none ∧ v.skip = none ∧ members.skip = none := by
  rw [Members.skip]
  cases key.flaw <;> cases v.skip <;> simp

theorem Follows.scanValue {fuel : Nat} (h : Follows fuel) {text rest : Bytes} {v : Value}
    (hscan : scanValue (fuel + 1) text = (v, rest)) (hv : v.skip = none) :
    ∃ before t, text = before ++ (t ++ rest) ∧ Blanks before ∧ Spells v t := by
  obtain ⟨before, hbefore, htext⟩ := exists_eq_append_dropSpace text
  refine ⟨before, ?_⟩
  suffices hspells : ∃ t, dropSpace text = t ++ rest ∧ Spells v t by
    obtain ⟨t, ht, hspells⟩ := hspells
    exact ⟨t, by rw [← ht, ← htext], hbefore, hspells⟩
  rw [Json.scanValue] at hscan
  generalize dropSpace text = text at hscan ⊢
  cases text with
  | nil =>
    obtain ⟨rfl, -⟩ := Prod.mk.inj hscan
    exact nomatch hv
  | cons b text =>
    by_cases hquote : b = Mark.quote
    · simp only [if_pos hquote] at hscan
      obtain ⟨rfl, rfl⟩ := Prod.mk.inj hscan
      obtain ⟨quoted, htext, hspelled⟩ := exists_quoted_of_scanText hv
      exact ⟨quoted, hquote ▸ htext, .text hspelled⟩
    by_cases hrecord : b = Mark.openRecord
    · simp only [if_neg hquote, if_pos hrecord] at hscan
      obtain ⟨rfl, rfl⟩ := Prod.mk.inj hscan
      obtain ⟨t, ht, hmembers⟩ := h.members rfl hv
      exact ⟨b :: t, congrArg (b :: ·) ht, hrecord ▸ .record hmembers⟩
    by_cases hlist : b = Mark.openList
    · simp only [if_neg hquote, if_neg hrecord, if_pos hlist] at hscan
      obtain ⟨rfl, rfl⟩ := Prod.mk.inj hscan
      obtain ⟨t, ht, hitems⟩ := h.items rfl hv
      exact ⟨b :: t, congrArg (b :: ·) ht, hlist ▸ .list hitems⟩
    simp only [if_neg hquote, if_neg hrecord, if_neg hlist] at hscan
    split at hscan
    next =>
      rw [scanNumber] at hscan
      split at hscan
      next n after hnumber =>
        obtain ⟨rfl, rfl⟩ := Prod.mk.inj hscan
        obtain ⟨number, hrest, hspelled⟩ := NumberText.exists_of_scan hnumber
        exact ⟨number, hrest, .number hspelled⟩
      next =>
        obtain ⟨rfl, -⟩ := Prod.mk.inj hscan
        exact nomatch hv
    split at hscan
    next hb =>
      obtain ⟨rfl, rfl⟩ := exists_of_scanName hscan hv
      exact ⟨_, hb ▸ rfl, .null⟩
    split at hscan
    next hb =>
      obtain ⟨rfl, rfl⟩ := exists_of_scanName hscan hv
      exact ⟨_, hb ▸ rfl, .yes⟩
    split at hscan
    next hb =>
      obtain ⟨rfl, rfl⟩ := exists_of_scanName hscan hv
      exact ⟨_, hb ▸ rfl, .no⟩
    next =>
      obtain ⟨rfl, -⟩ := Prod.mk.inj hscan
      exact nomatch hv

theorem Follows.scanItems {fuel : Nat} (h : Follows fuel) {text rest : Bytes} {items : Items}
    (hscan : scanItems (fuel + 1) text = (items, rest)) (hitems : items.skip = none) :
    ∃ t, text = t ++ rest ∧ SpellsItems items t := by
  obtain ⟨before, hbefore, htext⟩ := exists_eq_append_dropSpace text
  rw [Json.scanItems] at hscan
  generalize dropSpace text = inner at hscan htext
  cases inner with
  | nil =>
    obtain ⟨rfl, -⟩ := Prod.mk.inj hscan
    exact nomatch hitems
  | cons b inner =>
    by_cases hclose : b = Mark.closeList
    · simp only [if_pos hclose] at hscan
      obtain ⟨rfl, rfl⟩ := Prod.mk.inj hscan
      exact ⟨_, by rw [htext, hclose, List.append_assoc]; rfl, .closed hbefore⟩
    · simp only [if_neg hclose] at hscan
      obtain ⟨rfl, hend⟩ := Prod.mk.inj hscan
      rw [Items.skip_more] at hitems
      obtain ⟨between, t, hinner, hbetween, hv⟩ := h.value rfl hitems.1
      obtain ⟨u, hmore, hspells⟩ := h.moreItems rfl hitems.2
      rw [hend] at hmore
      refine ⟨(before ++ between) ++ (t ++ u), ?_, .first (hbefore.append hbetween) hv hspells⟩
      rw [htext, hinner, hmore]
      simp only [List.append_assoc]

theorem Follows.scanMoreItems {fuel : Nat} (h : Follows fuel) {text rest : Bytes} {items : Items}
    (hscan : scanMoreItems (fuel + 1) text = (items, rest)) (hitems : items.skip = none) :
    ∃ t, text = t ++ rest ∧ SpellsMoreItems items t := by
  obtain ⟨before, hbefore, htext⟩ := exists_eq_append_dropSpace text
  rw [Json.scanMoreItems] at hscan
  generalize dropSpace text = inner at hscan htext
  cases inner with
  | nil =>
    obtain ⟨rfl, -⟩ := Prod.mk.inj hscan
    exact nomatch hitems
  | cons b inner =>
    by_cases hclose : b = Mark.closeList
    · simp only [if_pos hclose] at hscan
      obtain ⟨rfl, rfl⟩ := Prod.mk.inj hscan
      exact ⟨_, by rw [htext, hclose, List.append_assoc]; rfl, .closed hbefore⟩
    by_cases hcomma : b = Mark.comma
    · simp only [if_neg hclose, if_pos hcomma] at hscan
      obtain ⟨rfl, hend⟩ := Prod.mk.inj hscan
      rw [Items.skip_more] at hitems
      obtain ⟨between, t, hinner, hbetween, hv⟩ := h.value rfl hitems.1
      obtain ⟨u, hmore, hspells⟩ := h.moreItems rfl hitems.2
      rw [hend] at hmore
      refine ⟨_, ?_, .next hbefore hbetween hv hspells⟩
      rw [htext, hcomma, hinner, hmore]
      simp only [List.append_assoc, List.cons_append]
    · simp only [if_neg hclose, if_neg hcomma] at hscan
      obtain ⟨rfl, -⟩ := Prod.mk.inj hscan
      exact nomatch hitems

theorem Follows.scanMembers {fuel : Nat} (h : Follows fuel) {text rest : Bytes}
    {members : Members} (hscan : scanMembers (fuel + 1) text = (members, rest))
    (hmembers : members.skip = none) :
    ∃ t, text = t ++ rest ∧ SpellsMembers members t := by
  obtain ⟨before, hbefore, htext⟩ := exists_eq_append_dropSpace text
  rw [Json.scanMembers] at hscan
  generalize dropSpace text = inner at hscan htext
  cases inner with
  | nil =>
    obtain ⟨rfl, -⟩ := Prod.mk.inj hscan
    exact nomatch hmembers
  | cons b inner =>
    by_cases hclose : b = Mark.closeRecord
    · simp only [if_pos hclose] at hscan
      obtain ⟨rfl, rfl⟩ := Prod.mk.inj hscan
      exact ⟨_, by rw [htext, hclose, List.append_assoc]; rfl, .closed hbefore⟩
    · simp only [if_neg hclose] at hscan
      obtain ⟨between, t, hinner, hbetween, hmember⟩ := h.member hscan hmembers
      refine ⟨(before ++ between) ++ t, ?_, .first (hbefore.append hbetween) hmember⟩
      rw [htext, hinner]
      simp only [List.append_assoc]

theorem Follows.scanMember {fuel : Nat} (h : Follows fuel) {text rest : Bytes}
    {members : Members} (hscan : scanMember (fuel + 1) text = (members, rest))
    (hmembers : members.skip = none) :
    ∃ before t, text = before ++ (t ++ rest) ∧ Blanks before ∧ SpellsMember members t := by
  obtain ⟨before, hbefore, htext⟩ := exists_eq_append_dropSpace text
  rw [Json.scanMember] at hscan
  generalize dropSpace text = inner at hscan htext
  cases inner with
  | nil =>
    obtain ⟨rfl, -⟩ := Prod.mk.inj hscan
    exact nomatch hmembers
  | cons b inner =>
    by_cases hquote : b = Mark.quote
    · simp only [if_pos hquote] at hscan
      obtain ⟨behind, hbehind, hafter⟩ := exists_eq_append_dropSpace (scanText inner).2
      generalize dropSpace (scanText inner).2 = after at hscan hafter
      cases after with
      | nil =>
        obtain ⟨rfl, -⟩ := Prod.mk.inj hscan
        exact nomatch (Members.skip_more.1 hmembers).2.1
      | cons c after =>
        by_cases hcolon : c = Mark.colon
        · simp only [if_pos hcolon] at hscan
          obtain ⟨rfl, hend⟩ := Prod.mk.inj hscan
          obtain ⟨hkey, hv, hmore⟩ := Members.skip_more.1 hmembers
          obtain ⟨name, hname, hspelled⟩ := exists_quoted_of_scanText hkey
          obtain ⟨between, t, hbody, hbetween, hvalue⟩ := h.value rfl hv
          obtain ⟨u, hrest, hspells⟩ := h.moreMembers rfl hmore
          rw [hend] at hrest
          refine ⟨before, _, ?_, hbefore, .member hspelled hbehind hbetween hvalue hspells⟩
          rw [htext, hquote, hname, hafter, hcolon, hbody, hrest]
          simp only [List.append_assoc, List.cons_append]
        · simp only [if_neg hcolon] at hscan
          obtain ⟨rfl, -⟩ := Prod.mk.inj hscan
          exact nomatch (Members.skip_more.1 hmembers).2.1
    · simp only [if_neg hquote] at hscan
      obtain ⟨rfl, -⟩ := Prod.mk.inj hscan
      exact nomatch hmembers

theorem Follows.scanMoreMembers {fuel : Nat} (h : Follows fuel) {text rest : Bytes}
    {members : Members} (hscan : scanMoreMembers (fuel + 1) text = (members, rest))
    (hmembers : members.skip = none) :
    ∃ t, text = t ++ rest ∧ SpellsMoreMembers members t := by
  obtain ⟨before, hbefore, htext⟩ := exists_eq_append_dropSpace text
  rw [Json.scanMoreMembers] at hscan
  generalize dropSpace text = inner at hscan htext
  cases inner with
  | nil =>
    obtain ⟨rfl, -⟩ := Prod.mk.inj hscan
    exact nomatch hmembers
  | cons b inner =>
    by_cases hclose : b = Mark.closeRecord
    · simp only [if_pos hclose] at hscan
      obtain ⟨rfl, rfl⟩ := Prod.mk.inj hscan
      exact ⟨_, by rw [htext, hclose, List.append_assoc]; rfl, .closed hbefore⟩
    by_cases hcomma : b = Mark.comma
    · simp only [if_neg hclose, if_pos hcomma] at hscan
      obtain ⟨between, t, hinner, hbetween, hmember⟩ := h.member hscan hmembers
      refine ⟨_, ?_, .next hbefore hbetween hmember⟩
      rw [htext, hcomma, hinner]
      simp only [List.append_assoc, List.cons_append]
    · simp only [if_neg hclose, if_neg hcomma] at hscan
      obtain ⟨rfl, -⟩ := Prod.mk.inj hscan
      exact nomatch hmembers

/-- Any number of steps follows the grammar. -/
theorem follows (fuel : Nat) : Follows fuel := by
  induction fuel with
  | zero =>
    constructor
    all_goals
      intro text rest tree hscan hclean
      obtain ⟨rfl, -⟩ := Prod.mk.inj hscan
      exact nomatch hclean
  | succ fuel ih =>
    exact ⟨ih.scanValue, ih.scanItems, ih.scanMoreItems, ih.scanMembers, ih.scanMember,
      ih.scanMoreMembers⟩

/-! ### Whole texts -/

/-- **A tree without a flaw is spelled by what was consumed**, blanks in front aside. -/
theorem spells_of_scan {text rest : Bytes} {v : Value} (h : Value.scan text = (v, rest))
    (hv : v.skip = none) :
    ∃ before t, text = before ++ (t ++ rest) ∧ Blanks before ∧ Spells v t :=
  (follows _).value h hv

/-- **What spells a tree is scanned into it**, whatever stands behind it; only a number must have
ended. -/
theorem scan_of_spells {before text : Bytes} {v : Value} (h : Spells v text)
    (hbefore : Blanks before) {rest : Bytes} (hrest : ∀ n, v = .number n → EndsNumber rest) :
    Value.scan (before ++ (text ++ rest)) = (v, rest) := by
  refine (suffices_length _).value rest h hbefore hrest ?_
  simp only [List.length_append]
  omega

end GossipLedger.Json
