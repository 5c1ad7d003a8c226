import GossipLedger.Catalog
import Mathlib.Data.List.Induction
import Mathlib.Data.List.Nodup
import Mathlib.Data.List.Sort

/-!
# What a catalog holds

The values of a catalog as a set: which there are after one was entered, after
several were entered and after some were thrown out.

## Main results

* `Catalog.eq_of_key_eq` — two values of a catalog under one key are equal.
* `Catalog.mem_add` — the values after one was entered.
* `Catalog.contains_foldl_add`, `Catalog.mem_foldl_add_iff` — the keys and the values
  after a list was entered.
* `Catalog.toList_ofList` — a list in increasing order of its keys is entered as it is.
* `Catalog.sortByKey_eq` — values in any order, sorted by their keys, are the one list in
  increasing order.
* `Catalog.size_put` — a value entered under a free key is one more.
* `NameMap.ext_get?` — maps with the same values under all names are equal.
* `NameMap.get?_erase` — what is found after a name was taken out.
* `NameMap.get?_ofList` — what is found after a list was entered.
-/

namespace GossipLedger
namespace Catalog

variable {α κ : Type} [LT κ] {key : α → κ}

@[simp] theorem mem_filter {c : Catalog key} {p : α → Bool} {a : α} :
    a ∈ (c.filter p).toList ↔ a ∈ c.toList ∧ p a = true := List.mem_filter

/-- The keys of a catalog are pairwise different. -/
theorem nodup_keys [Std.Irrefl (α := κ) (· < ·)] (c : Catalog key) :
    (c.toList.map key).Nodup := by
  refine List.pairwise_map.2 (c.sorted.imp ?_)
  intro a b hab heq
  rw [heq] at hab
  exact Std.Irrefl.irrefl (r := ((· < ·) : κ → κ → Prop)) _ hab

/-- **Two values of a catalog under one key are equal.** -/
theorem eq_of_key_eq [Std.Irrefl (α := κ) (· < ·)] {c : Catalog key} {a b : α}
    (ha : a ∈ c.toList) (hb : b ∈ c.toList) (h : key a = key b) : a = b :=
  List.inj_on_of_nodup_map c.nodup_keys ha hb h

section Lookup

variable [DecidableEq κ]

theorem contains_iff {c : Catalog key} {k : κ} :
    c.contains k = true ↔ ∃ a ∈ c.toList, key a = k := by
  unfold contains find?
  rw [List.find?_isSome]
  simp

theorem contains_eq_false_iff {c : Catalog key} {k : κ} :
    c.contains k = false ↔ ∀ a ∈ c.toList, key a ≠ k := by
  rw [← Bool.not_eq_true, contains_iff]
  push Not
  rfl

theorem contains_of_mem {c : Catalog key} {a : α} (h : a ∈ c.toList) :
    c.contains (key a) = true := contains_iff.2 ⟨a, h, rfl⟩

theorem contains_filter {c : Catalog key} {p : α → Bool} {q : κ → Bool} {k : κ}
    (hpq : ∀ a, p a = q (key a)) :
    (c.filter p).contains k = true ↔ c.contains k = true ∧ q k = true := by
  rw [contains_iff, contains_iff]
  constructor
  · rintro ⟨a, ha, rfl⟩
    rw [mem_filter, hpq] at ha
    exact ⟨⟨a, ha.1, rfl⟩, ha.2⟩
  · rintro ⟨⟨a, ha, rfl⟩, hq⟩
    exact ⟨a, mem_filter.2 ⟨ha, by rw [hpq]; exact hq⟩, rfl⟩

end Lookup

section Insert

variable [DecidableLT κ]

/-- A value entered under a free key joins the others. -/
theorem mem_putInto_iff {a x : α} {bs : List α} [Std.Trichotomous (α := κ) (· < ·)]
    (hfree : ∀ b ∈ bs, key b ≠ key a) : x ∈ putInto key a bs ↔ x = a ∨ x ∈ bs := by
  induction bs with
  | nil => simp [putInto]
  | cons b bs ih =>
    have hne : key b ≠ key a := hfree b List.mem_cons_self
    have ih := ih fun c hc => hfree c (List.mem_cons_of_mem _ hc)
    rw [putInto]
    split
    next => simp
    next hab =>
      split
      next => rw [List.mem_cons, ih, List.mem_cons]; tauto
      next hba =>
        exact absurd (Std.Trichotomous.trichotomous (r := ((· < ·) : κ → κ → Prop)) _ _ hba hab) hne

/-- A value entered under a free key is one more. -/
theorem length_putInto {a : α} {bs : List α} [Std.Trichotomous (α := κ) (· < ·)]
    (hfree : ∀ b ∈ bs, key b ≠ key a) : (putInto key a bs).length = bs.length + 1 := by
  induction bs with
  | nil => rfl
  | cons b bs ih =>
    have hne : key b ≠ key a := hfree b List.mem_cons_self
    have ih := ih fun c hc => hfree c (List.mem_cons_of_mem _ hc)
    rw [putInto]
    split
    next => rfl
    next hab =>
      split
      next => rw [List.length_cons, ih, List.length_cons]
      next hba =>
        exact absurd (Std.Trichotomous.trichotomous (r := ((· < ·) : κ → κ → Prop)) _ _ hba hab) hne

variable [Trans (α := κ) (· < ·) (· < ·) (· < ·)] [Std.Trichotomous (α := κ) (· < ·)]
variable [DecidableEq κ]

theorem size_put {c : Catalog key} {a : α} (hfree : c.contains (key a) = false) :
    (c.put a).size = c.size + 1 := length_putInto (contains_eq_false_iff.1 hfree)

/-- **The values after one was entered**: it is there if its key was free. -/
theorem mem_add {c : Catalog key} {a x : α} :
    x ∈ (c.add a).toList ↔ x ∈ c.toList ∨ (x = a ∧ c.contains (key a) = false) := by
  unfold add
  split
  next h => simp [h]
  next h =>
    have hfree : c.contains (key a) = false := by simpa using h
    show x ∈ putInto key a c.toList ↔ _
    rw [mem_putInto_iff (contains_eq_false_iff.1 hfree)]
    simp only [hfree, and_true]
    exact or_comm

theorem mem_add_of_mem {c : Catalog key} {a x : α} (h : x ∈ c.toList) : x ∈ (c.add a).toList :=
  mem_add.2 (Or.inl h)

theorem mem_of_mem_add {c : Catalog key} {a x : α} (h : x ∈ (c.add a).toList) :
    x ∈ c.toList ∨ x = a := by
  rcases mem_add.1 h with h | ⟨h, -⟩
  · exact Or.inl h
  · exact Or.inr h

theorem contains_add {c : Catalog key} {a : α} {k : κ} :
    (c.add a).contains k = true ↔ c.contains k = true ∨ key a = k := by
  constructor
  · intro h
    obtain ⟨x, hx, rfl⟩ := contains_iff.1 h
    rcases mem_of_mem_add hx with hx | rfl
    · exact Or.inl (contains_of_mem hx)
    · exact Or.inr rfl
  · rintro (h | rfl)
    · obtain ⟨x, hx, rfl⟩ := contains_iff.1 h
      exact contains_of_mem (mem_add_of_mem hx)
    · rcases Bool.eq_false_or_eq_true (c.contains (key a)) with h | h
      · obtain ⟨x, hx, heq⟩ := contains_iff.1 h
        rw [← heq]
        exact contains_of_mem (mem_add_of_mem hx)
      · exact contains_of_mem (mem_add.2 (Or.inr ⟨rfl, h⟩))

theorem mem_foldl_add_of_mem {as : List α} {c : Catalog key} {x : α} (h : x ∈ c.toList) :
    x ∈ (as.foldl add c).toList := by
  induction as generalizing c with
  | nil => exact h
  | cons a as ih => exact ih (mem_add_of_mem h)

/-- The values after a list was entered are old ones or on the list. -/
theorem mem_of_mem_foldl_add {as : List α} {c : Catalog key} {x : α}
    (h : x ∈ (as.foldl add c).toList) : x ∈ c.toList ∨ x ∈ as := by
  induction as generalizing c with
  | nil => exact Or.inl h
  | cons a as ih =>
    rcases ih h with h | h
    · rcases mem_of_mem_add h with h | rfl
      · exact Or.inl h
      · exact Or.inr List.mem_cons_self
    · exact Or.inr (List.mem_cons_of_mem _ h)

/-- The values after a list with different keys was entered: those whose keys were free
are there. -/
theorem mem_foldl_add_iff {as : List α} {c : Catalog key} {x : α} (h : (as.map key).Nodup) :
    x ∈ (as.foldl add c).toList ↔
      x ∈ c.toList ∨ (x ∈ as ∧ c.contains (key x) = false) := by
  induction as generalizing c with
  | nil => simp
  | cons a as ih =>
    obtain ⟨ha, has⟩ := List.nodup_cons.1 h
    rw [List.foldl_cons, ih has, mem_add, List.mem_cons]
    -- the first value does not take the key of a later one
    have hlater : x ∈ as → ((c.add a).contains (key x) = false ↔ c.contains (key x) = false) := by
      intro hx
      have hne : key a ≠ key x := fun heq => ha (heq ▸ List.mem_map_of_mem hx)
      rw [← Bool.not_eq_true, contains_add, ← Bool.not_eq_true]
      tauto
    constructor
    · rintro ((hx | ⟨rfl, hfree⟩) | ⟨hx, hfree⟩)
      · exact Or.inl hx
      · exact Or.inr ⟨Or.inl rfl, hfree⟩
      · exact Or.inr ⟨Or.inr hx, (hlater hx).1 hfree⟩
    · rintro (hx | ⟨rfl | hx, hfree⟩)
      · exact Or.inl (Or.inl hx)
      · exact Or.inl (Or.inr ⟨rfl, hfree⟩)
      · exact Or.inr ⟨hx, (hlater hx).2 hfree⟩

/-- The keys after a list was entered. -/
theorem contains_foldl_add {as : List α} {c : Catalog key} {k : κ} :
    (as.foldl add c).contains k = true ↔ c.contains k = true ∨ ∃ a ∈ as, key a = k := by
  induction as generalizing c with
  | nil => simp
  | cons a as ih =>
    rw [List.foldl_cons, ih, contains_add]
    simp only [List.mem_cons, exists_eq_or_imp]
    tauto

/-! ### Lists in increasing order -/

omit [Trans (α := κ) (· < ·) (· < ·) (· < ·)] [Std.Trichotomous (α := κ) (· < ·)]
  [DecidableEq κ] in
/-- A value whose key comes after all others is entered at the end. -/
theorem putInto_of_lt [Std.Asymm (α := κ) (· < ·)] {a : α} {bs : List α}
    (h : ∀ b ∈ bs, key b < key a) : putInto key a bs = bs ++ [a] := by
  induction bs with
  | nil => rfl
  | cons b bs ih =>
    have hba := h b List.mem_cons_self
    have hab : ¬key a < key b := Std.Asymm.asymm (r := ((· < ·) : κ → κ → Prop)) _ _ hba
    rw [putInto, if_neg hab, if_pos hba, ih fun c hc => h c (List.mem_cons_of_mem _ hc)]
    rfl

omit [DecidableEq κ] in
/-- A list in increasing order of its keys is entered as it is. -/
theorem toList_ofList [Std.Asymm (α := κ) (· < ·)] {as : List α}
    (h : as.Pairwise fun a b => key a < key b) :
    (ofList as : Catalog key).toList = as := by
  have hall : ∀ (as : List α) (c : Catalog key),
      (c.toList ++ as).Pairwise (fun a b => key a < key b) →
        (as.foldl put c).toList = c.toList ++ as := by
    intro as
    induction as with
    | nil =>
      intro c _
      exact (List.append_nil _).symm
    | cons a as ih =>
      intro c hc
      have hput : (c.put a).toList = c.toList ++ [a] :=
        putInto_of_lt fun b hb => (List.pairwise_append.1 hc).2.2 b hb a List.mem_cons_self
      have hcons : (c.put a).toList ++ as = c.toList ++ a :: as := by
        rw [hput, List.append_assoc, List.singleton_append]
      rw [List.foldl_cons, ih (c.put a) (by rw [hcons]; exact hc), hcons]
  exact hall as empty h

end Insert

/-! ### Values in any order -/

section AnyOrder

variable [DecidableLT κ]

/-- Values sorted by their keys, those of equal keys in the order in which they come. -/
def sortByKey (key : α → κ) (as : List α) : List α := as.mergeSort fun a b => !decide (key b < key a)

variable [Trans (α := κ) (· < ·) (· < ·) (· < ·)] [Std.Trichotomous (α := κ) (· < ·)]
variable [Std.Irrefl (α := κ) (· < ·)]

omit [DecidableLT κ] [Std.Trichotomous (α := κ) (· < ·)] in
theorem key_asymm {j k : κ} (h : j < k) : ¬k < j :=
  fun h' => Std.Irrefl.irrefl (r := ((· < ·) : κ → κ → Prop)) _ (Trans.trans h h')

/-- **Values in any order, sorted by their keys**, are the one list of these values in
increasing order of the keys. -/
theorem sortByKey_eq {as bs : List α} (hperm : as.Perm bs)
    (hbs : bs.Pairwise fun a b => key a < key b) : sortByKey key as = bs := by
  have htricho : ∀ {j k : κ}, ¬j < k → ¬k < j → j = k := fun h h' =>
    Std.Trichotomous.trichotomous (r := ((· < ·) : κ → κ → Prop)) _ _ h h'
  have hsorted : (sortByKey key as).Pairwise fun a b => (!decide (key b < key a)) = true := by
    refine List.pairwise_mergeSort ?_ ?_ as
    · simp only [Bool.not_eq_true', decide_eq_false_iff_not]
      intro a b c hab hbc hca
      by_cases hlt : key a < key b
      · exact hbc (Trans.trans hca hlt)
      · rw [htricho hlt hab] at hca
        exact hbc hca
    · intro a b
      by_cases hlt : key b < key a
      · simp [key_asymm hlt]
      · simp [hlt]
  have hsame : (sortByKey key as).Perm bs := (List.mergeSort_perm as _).trans hperm
  refine List.Perm.eq_of_pairwise ?_ hsorted (hbs.imp ?_) hsame
  · simp only [Bool.not_eq_true', decide_eq_false_iff_not]
    intro a b ha hb hab hba
    exact eq_of_key_eq (c := ⟨bs, hbs⟩) (hsame.mem_iff.1 ha) hb (htricho hba hab)
  · intro a b hab
    simp [key_asymm hab]

end AnyOrder

end Catalog

namespace NameMap

variable {ν : Type} {m m' : NameMap ν}

theorem get?_eq_some_iff {name : String} {v : ν} :
    m.get? name = some v ↔ (name, v) ∈ m.toList := by
  unfold get?
  rw [Option.map_eq_some_iff]
  constructor
  · rintro ⟨e, he, rfl⟩
    have hname : e.1 = name := by simpa using List.find?_some he
    rw [← hname]
    exact List.mem_of_find?_eq_some he
  · intro h
    cases hfind : m.find? name with
    | none =>
      have hnone := List.find?_eq_none.1 hfind _ h
      exact absurd (decide_eq_true rfl) hnone
    | some e =>
      have hname : e.1 = name := by simpa using List.find?_some hfind
      have heq : e = (name, v) :=
        Catalog.eq_of_key_eq (List.mem_of_find?_eq_some hfind) h hname
      exact ⟨e, rfl, by rw [heq]⟩

/-- What is found under a name after a value was taken out. -/
theorem get?_erase (m : NameMap ν) (name other : String) :
    get? (m.erase name) other = if name = other then none else m.get? other := by
  ext v
  rw [get?_eq_some_iff, Catalog.erase, Catalog.mem_filter, decide_eq_true_eq]
  split
  next heq => simp [heq]
  next hne => rw [get?_eq_some_iff]; exact ⟨And.left, fun h => ⟨h, fun heq => hne heq.symm⟩⟩

/-- What is found under a name after a list was entered: the last value under it. -/
theorem get?_ofList (es : List (String × ν)) (name : String) :
    get? (Catalog.ofList es) name = ((es.filter fun e => e.1 = name).getLast?).map Prod.snd := by
  induction es using List.reverseRecOn with
  | nil => rfl
  | append_singleton es e ih =>
    have hset : (Catalog.ofList (es ++ [e]) : NameMap ν) = set (Catalog.ofList es) e.1 e.2 := by
      unfold Catalog.ofList
      rw [List.foldl_concat]
      rfl
    rw [hset, get?_set, ih, List.filter_append, List.filter_singleton]
    by_cases he : e.1 = name
    · simp [he]
    · simp [he]

theorem contains_eq (name : String) : m.contains name = (m.get? name).isSome := by
  rw [Catalog.contains, get?, Option.isSome_map]

/-- Maps with the same values under all names are equal. -/
theorem ext_get? (h : ∀ name, m.get? name = m'.get? name) : m = m' := by
  have hantisymm : Std.Antisymm fun a b : String × ν => a.1 < b.1 :=
    ⟨fun a b hab hba => absurd hba (String.lt_asymm hab)⟩
  have hirrefl : Std.Irrefl fun a b : String × ν => a.1 < b.1 :=
    ⟨fun a => String.lt_irrefl a.1⟩
  refine Catalog.ext (List.Pairwise.eq_of_mem_iff m.sorted m'.sorted fun e => ?_)
  rw [← get?_eq_some_iff, ← get?_eq_some_iff, h]

end NameMap
end GossipLedger
