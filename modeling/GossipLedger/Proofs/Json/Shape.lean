import GossipLedger.Json.Reader
import GossipLedger.Proofs.Json.Document
import Mathlib.Data.List.Forall2
import Mathlib.Data.List.TakeWhile

/-!
# The shape of what is read

A reader that succeeds says everything about the tree that it read.  A text is a text between
quotes, a whole number is written with digits alone, a list holds values of one shape, and a
value with alternatives is a record of a single member.  Whatever is read is without a flaw as a
whole, also in the parts that nobody asked for.

## Main definitions

* `Value.IsText`, `Value.IsNatural`, `Value.IsList`, `Value.IsTagged` — the shapes.
* `Careful` — a reader that reads nothing with a flaw.

## Main results

* `readText_eq_ok_iff`, `readWord_eq_ok_iff`, `readList_eq_ok_iff`, `readVariant_eq_ok_iff` —
  each reader by the shape it reads.
* `readDocument_eq_ok_iff` — **a whole text is read exactly if it spells, between blanks, a value
  that is read.**
* `readDocument_record_iff` — a text that begins with a record is that record or is not read.
-/

namespace GossipLedger.Json

variable {α β ε : Type}

/-! ### Readings that succeed -/

theorem bind_eq_ok_iff {reading : Except ε α} {next : α → Except ε β} {b : β} :
    reading >>= next = .ok b ↔ ∃ a, reading = .ok a ∧ next a = .ok b := by
  cases reading with
  | error e => exact ⟨nofun, nofun⟩
  | ok a =>
    constructor
    · exact fun h => ⟨a, rfl, h⟩
    · rintro ⟨a, ⟨⟩, h⟩
      exact h

theorem map_eq_ok_iff {reading : Except ε α} {f : α → β} {b : β} :
    reading.map f = .ok b ↔ ∃ a, reading = .ok a ∧ f a = b := by
  cases reading with
  | error e => exact ⟨nofun, nofun⟩
  | ok a =>
    constructor
    · exact fun h => ⟨a, rfl, Except.ok.inj h⟩
    · rintro ⟨a, ⟨⟩, rfl⟩
      rfl

/-- A complaint is never a success. -/
theorem wrongType_ne_ok (expected : String) (v : Value) (a : α) : wrongType expected v ≠ .ok a := by
  cases v with
  | number n =>
    rw [wrongType]
    cases n.value <;> exact nofun
  | text t =>
    rw [wrongType]
    cases t.content <;> exact nofun
  | _ => exact nofun

/-- A reader that reads nothing with a flaw. -/
def Careful (read : Value → Reading α) : Prop := ∀ v a, read v = .ok a → v.skip = none

/-! ### Texts -/

/-- A text between quotes that denotes `s`. -/
def Value.IsText (v : Value) (s : String) : Prop :=
  ∃ t : RawText, v = .text t ∧ t.content = .ok s

/-- Units that stand for something do not break off. -/
theorem flaw_eq_none_of_unitBytes {flaw : Option Flaw} {us : List TextUnit} {bytes : Bytes}
    (h : unitBytes flaw us = .ok bytes) : flaw = none := by
  fun_induction unitBytes flaw us generalizing bytes
  case case1 hflaw => exact hflaw
  case case3 ih | case5 ih | case9 ih =>
    obtain ⟨_, hrest, -⟩ := map_eq_ok_iff.1 h
    exact ih hrest
  all_goals exact nomatch h

/-- A text that denotes something has its closing quote. -/
theorem RawText.flaw_eq_none {t : RawText} {s : String} (h : t.content = .ok s) :
    t.flaw = none := by
  unfold RawText.content at h
  split at h
  next => exact nomatch h
  next bytes hbytes => exact flaw_eq_none_of_unitBytes hbytes

theorem Value.IsText.skip {v : Value} {s : String} (h : v.IsText s) : v.skip = none := by
  obtain ⟨t, rfl, ht⟩ := h
  exact RawText.flaw_eq_none ht

theorem readTextAs_eq_ok_iff {expected s : String} {v : Value} :
    readTextAs expected v = .ok s ↔ v.IsText s := by
  constructor
  · intro h
    unfold readTextAs at h
    split at h
    next t =>
      split at h
      next => exact nomatch h
      next s' hs => exact ⟨t, rfl, by rw [hs, Except.ok.inj h]⟩
    next => exact (wrongType_ne_ok _ _ _ h).elim
  · rintro ⟨t, rfl, ht⟩
    rw [readTextAs, ht]

theorem readText_eq_ok_iff {s : String} {v : Value} : readText v = .ok s ↔ v.IsText s :=
  readTextAs_eq_ok_iff

/-! ### Whole numbers -/

/-- Digits without a sign, a fraction or an exponent that make up the number `n`. -/
def Value.IsNatural (v : Value) (n : Nat) : Prop :=
  ∃ ds, v = .number ⟨false, ds, none, none⟩ ∧ ds.foldl (fun n d => 10 * n + d) 0 = n

/-- Digits that are all gathered make up the number that is gathered. -/
theorem foldl_of_gather {ds : List Nat} {n m : Nat} (h : NumberText.gather n ds = (m, [])) :
    ds.foldl (fun n d => 10 * n + d) n = m := by
  induction ds generalizing n with
  | nil => exact (Prod.mk.inj h).1
  | cons d ds ih =>
    rw [NumberText.gather] at h
    split at h
    next => exact ih h
    next => exact absurd (Prod.mk.inj h).2 (List.cons_ne_nil d ds)

/-- What denotes a whole number is written with digits alone. -/
theorem NumberText.eq_of_value {number : NumberText} {n : Nat} (h : number.value = .ok (.whole n)) :
    ∃ ds, number = ⟨false, ds, none, none⟩ ∧ ds.foldl (fun n d => 10 * n + d) 0 = n := by
  obtain ⟨negative, ds, fraction, exponent⟩ := number
  unfold NumberText.value at h
  generalize NumberText.realValue _ = real at h
  dsimp only at h
  split at h
  next m hgather =>
    split at h
    next hsign =>
      have hm : (m : Int) = n := Numeral.whole.inj (Except.ok.inj h)
      have hnegative : negative = false := by simpa using hsign
      exact ⟨ds, by rw [hnegative], (foldl_of_gather hgather).trans (by omega)⟩
    next =>
      split at h
      next hpos =>
        -- a number with a sign is less than zero
        have hm : -(m : Int) = n := Numeral.whole.inj (Except.ok.inj h)
        simp only [Bool.and_eq_true, decide_eq_true_eq] at hpos
        omega
      next => cases real <;> exact nomatch h
  next => cases real <;> exact nomatch h

theorem readNatural_eq_ok_iff {bound n : Nat} {expected : String} {v : Value}
    (hbound : bound ≤ UInt64.size) :
    readNatural bound expected v = .ok n ↔ v.IsNatural n ∧ n < bound := by
  constructor
  · intro h
    unfold readNatural at h
    split at h
    next number =>
      split at h
      next => exact nomatch h
      next k hk =>
        split at h
        next hrange =>
          have hn : k.toNat = n := Except.ok.inj h
          have hcast : (n : Int) = k := by omega
          obtain ⟨ds, rfl, hds⟩ := NumberText.eq_of_value (hcast ▸ hk)
          exact ⟨⟨ds, rfl, hds⟩, by omega⟩
        next => exact nomatch h
      next => exact nomatch h
    next => exact (wrongType_ne_ok _ _ _ h).elim
  · rintro ⟨⟨ds, rfl, hds⟩, hn⟩
    have hrange : (0 : Int) ≤ n ∧ (n : Int) < bound := by omega
    rw [readNatural, value_of_foldl hds (Nat.lt_of_lt_of_le hn hbound)]
    simp only [if_pos hrange, Int.toNat_natCast]

/-- A number of 32 bits is read from digits that make it up, and from nothing else. -/
theorem readWord_eq_ok_iff {n : UInt32} {v : Value} :
    readWord v = .ok n ↔ v.IsNatural n.toNat := by
  have hbound : UInt32.size ≤ UInt64.size := by decide
  rw [readWord, map_eq_ok_iff]
  simp only [readNatural_eq_ok_iff hbound]
  constructor
  · rintro ⟨m, ⟨hm, hlt⟩, rfl⟩
    rwa [UInt32.toNat_ofNat_of_lt' hlt]
  · intro h
    exact ⟨n.toNat, ⟨h, n.toNat_lt⟩, UInt32.ofNat_toNat⟩

theorem Value.IsNatural.skip {v : Value} {n : Nat} (h : v.IsNatural n) : v.skip = none := by
  obtain ⟨ds, rfl, -⟩ := h
  rfl

/-! ### Lists -/

/-- The values of a list. -/
def Items.values : Items → List Value
  | .more v rest => v :: rest.values
  | _ => []

/-- A list of values of one shape each. -/
def Value.IsList (v : Value) (shape : Value → α → Prop) (as : List α) : Prop :=
  ∃ items, v = .list items ∧ items.skip = none ∧ List.Forall₂ shape items.values as

theorem readItems_eq_ok_iff {read : Value → Reading α} (hread : Careful read) {items : Items}
    {as : List α} : readItems read items = .ok as ↔
      items.skip = none ∧ List.Forall₂ (fun v a => read v = .ok a) items.values as := by
  fun_induction readItems read items generalizing as with
  | case1 => simp [Items.skip, Items.values]
  | case2 f => simp [Items.skip, Items.values, flawed]
  | case3 v rest ih =>
    simp only [bind_eq_ok_iff, ih, Items.skip_more, Items.values, List.forall₂_cons_left_iff]
    constructor
    · rintro ⟨a, ha, as', ⟨hclean, hrest⟩, h⟩
      exact ⟨⟨hread v a ha, hclean⟩, a, as', ha, hrest, (Except.ok.inj h).symm⟩
    · rintro ⟨⟨-, hclean⟩, a, as', ha, hrest, rfl⟩
      exact ⟨a, ha, as', ⟨hclean, hrest⟩, rfl⟩

/-- A list is read from values that are read one by one. -/
theorem readList_eq_ok_iff {read : Value → Reading α} {shape : Value → α → Prop}
    (hread : Careful read) (hshape : ∀ v a, read v = .ok a ↔ shape v a) {v : Value}
    {as : List α} : readList read v = .ok as ↔ v.IsList shape as := by
  have hrel : (fun v a => read v = .ok a) = shape := by
    funext v a
    exact propext (hshape v a)
  constructor
  · intro h
    unfold readList at h
    split at h
    next items =>
      rw [readItems_eq_ok_iff hread, hrel] at h
      exact ⟨items, rfl, h⟩
    next => exact (wrongType_ne_ok _ _ _ h).elim
  · rintro ⟨items, rfl, h⟩
    rw [readList, readItems_eq_ok_iff hread, hrel]
    exact h

theorem Value.IsList.skip {v : Value} {shape : Value → α → Prop} {as : List α}
    (h : v.IsList shape as) : v.skip = none := by
  obtain ⟨items, rfl, hclean, -⟩ := h
  exact hclean

/-! ### Alternatives -/

/-- A record of a single member, of this name and with a value as asked for. -/
def Value.IsTagged (v : Value) (name : String) (body : Value → Prop) : Prop :=
  ∃ key w, v = .record (.more key w .closed) ∧ key.content = .ok name ∧ body w

theorem Value.IsTagged.skip {v : Value} {name : String} {body : Value → Prop}
    (h : v.IsTagged name body) (hbody : ∀ w, body w → w.skip = none) : v.skip = none := by
  obtain ⟨key, w, rfl, hkey, hw⟩ := h
  exact Members.skip_more.2 ⟨RawText.flaw_eq_none hkey, hbody w hw, rfl⟩

@[simp] theorem Value.isTagged_false {v : Value} {name : String} :
    (v.IsTagged name fun _ => False) ↔ False := ⟨fun ⟨_, _, _, _, h⟩ => h, False.elim⟩

/-- Of several things with different names the one of a name is found. -/
theorem find?_name_eq_some_iff {names : α → String} {as : List α} (h : (as.map names).Nodup)
    {name : String} {a : α} :
    as.find? (fun b => names b = name) = some a ↔ a ∈ as ∧ names a = name := by
  constructor
  · intro hfind
    exact ⟨List.mem_of_find?_eq_some hfind, by simpa using List.find?_some hfind⟩
  · rintro ⟨ha, rfl⟩
    obtain ⟨before, after, rfl⟩ := List.append_of_mem ha
    rw [List.map_append, List.map_cons] at h
    obtain ⟨-, -, hapart⟩ := List.nodup_append.1 h
    have hnone : before.find? (fun b => names b = names a) = none := by
      rw [List.find?_eq_none]
      intro b hb
      have hne := hapart (names b) (List.mem_map_of_mem hb) (names a) List.mem_cons_self
      simpa using hne
    rw [List.find?_append, hnone, Option.none_or, List.find?_cons_of_pos (by simp)]

/-- **A value with alternatives is a record of a single member**, which is named for the
alternative that is read. -/
theorem readVariant_eq_ok_iff {variants : List (Variant α)}
    (hnames : (variants.map Variant.name).Nodup) {v : Value} {a : α} :
    readVariant variants v = .ok a ↔
      ∃ variant ∈ variants, v.IsTagged variant.name fun body => variant.read body = .ok a := by
  constructor
  · intro h
    unfold readVariant at h
    split at h
    next key body rest =>
      split at h
      next => exact nomatch h
      next name hkey =>
        obtain ⟨variant, hfind, hbody⟩ := bind_eq_ok_iff.1 h
        obtain ⟨b, hread, hrest⟩ := bind_eq_ok_iff.1 hbody
        unfold findVariant at hfind
        split at hfind
        next found hsome =>
          cases hfind
          obtain ⟨hmem, rfl⟩ := (find?_name_eq_some_iff hnames).1 hsome
          cases rest with
          | closed =>
            cases hrest
            exact ⟨variant, hmem, key, body, rfl, hkey, hread⟩
          | broken _ => exact nomatch hrest
          | keyless _ => exact nomatch hrest
          | more _ _ _ => exact nomatch hrest
        next => exact nomatch hfind
    next => exact nomatch h
    next => exact nomatch h
    next => exact nomatch h
    next t =>
      split at h
      next => exact nomatch h
      next =>
        obtain ⟨_, _, hbody⟩ := bind_eq_ok_iff.1 h
        exact nomatch hbody
    next => exact nomatch h
    next => exact nomatch h
  · rintro ⟨variant, hmem, key, body, rfl, hkey, hread⟩
    have hfind := (find?_name_eq_some_iff hnames).2 ⟨hmem, rfl⟩
    simp only [readVariant, hkey, findVariant, hfind]
    rw [bind_eq_ok_iff]
    refine ⟨variant, rfl, bind_eq_ok_iff.2 ⟨a, hread, rfl⟩⟩

/-! ### Whole texts -/

/-- Nothing is left of a text but blanks. -/
theorem isEmpty_dropSpace_iff {text : Bytes} : (dropSpace text).isEmpty = true ↔ Blanks text := by
  rw [List.isEmpty_iff, dropSpace, List.dropWhile_eq_nil_iff]
  exact Iff.rfl

theorem readDocument_iff_scan {read : Value → Reading α} {text : Bytes} {a : α} :
    readDocument read text = .ok a ↔
      read (Value.scan text).1 = .ok a ∧ Blanks (Value.scan text).2 := by
  rw [← isEmpty_dropSpace_iff]
  unfold readDocument
  rw [bind_eq_ok_iff]
  constructor
  · rintro ⟨b, hread, h⟩
    split at h
    next hempty =>
      cases h
      exact ⟨hread, hempty⟩
    next => exact nomatch h
  · rintro ⟨hread, hempty⟩
    exact ⟨a, hread, if_pos hempty⟩

/-- **A whole text is read exactly if it spells a value that is read**, with nothing but blanks
before and behind it. -/
theorem readDocument_eq_ok_iff {read : Value → Reading α} (hread : Careful read) {text : Bytes}
    {a : α} : readDocument read text = .ok a ↔
      ∃ before t after v, text = before ++ (t ++ after) ∧ Blanks before ∧ Blanks after ∧
        Spells v t ∧ read v = .ok a := by
  rw [readDocument_iff_scan]
  constructor
  · rintro ⟨h, hafter⟩
    obtain ⟨before, t, htext, hbefore, hspells⟩ := spells_of_scan rfl (hread _ _ h)
    exact ⟨before, t, _, _, htext, hbefore, hafter, hspells, h⟩
  · rintro ⟨before, t, after, v, rfl, hbefore, hafter, hspells, h⟩
    have hends : EndsNumber after := by
      rw [← List.append_nil after]
      exact .of_blanks hafter nofun
    rw [scan_of_spells hspells hbefore fun _ _ => hends]
    exact ⟨h, hafter⟩

/-- **A text that begins with a record is that record or is not read**: what stands behind the
record decides nothing but whether it is there. -/
theorem readDocument_record_iff {read : Value → Reading α} {before t rest : Bytes}
    {members : Members} (h : Spells (.record members) t) (hbefore : Blanks before) {a : α} :
    readDocument read (before ++ (t ++ rest)) = .ok a ↔
      read (.record members) = .ok a ∧ Blanks rest := by
  rw [readDocument_iff_scan, scan_of_spells h hbefore nofun]

end GossipLedger.Json
