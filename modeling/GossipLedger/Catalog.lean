/-!
# Catalogs

A catalog holds values under keys, at most one for each key, in increasing order
of the keys.  Two catalogs with the same entries are equal, whatever the order in
which they were entered.

## Main definitions

* `Catalog key` — values in increasing order of their `key`.
* `Catalog.find?`, `Catalog.put`, `Catalog.add`, `Catalog.filter` — looking a key
  up, entering a value in place of another, entering it only if its key is free,
  and keeping some of the values.
* `NameMap` — values under names.

## Main results

* `Catalog.find?_put`, `NameMap.get?_set` — what is found after entering a value.
-/

namespace GossipLedger

/-- Values in increasing order of their keys. -/
structure Catalog {α κ : Type} [LT κ] (key : α → κ) where
  /-- The values in increasing order of their keys. -/
  toList : List α
  /-- The keys increase. -/
  sorted : toList.Pairwise fun a b => key a < key b

namespace Catalog

variable {α κ : Type} [LT κ] {key : α → κ}

@[ext] theorem ext {c d : Catalog key} (h : c.toList = d.toList) : c = d := by
  cases c; cases d; cases h; rfl

instance [DecidableEq α] : DecidableEq (Catalog key) := fun c d =>
  decidable_of_iff (c.toList = d.toList) ⟨Catalog.ext, fun h => h ▸ rfl⟩

/-- The catalog without values. -/
def empty : Catalog key := ⟨[], .nil⟩

instance : Inhabited (Catalog key) := ⟨empty⟩

/-- The number of values. -/
def size (c : Catalog key) : Nat := c.toList.length

/-- Whether there are no values. -/
def isEmpty (c : Catalog key) : Bool := c.toList.isEmpty

/-- The values that satisfy a condition. -/
def filter (p : α → Bool) (c : Catalog key) : Catalog key :=
  ⟨c.toList.filter p, c.sorted.filter p⟩

section Lookup

variable [DecidableEq κ]

/-- The value under a key. -/
def find? (c : Catalog key) (k : κ) : Option α := c.toList.find? fun a => key a = k

/-- Whether there is a value under a key. -/
def contains (c : Catalog key) (k : κ) : Bool := (c.find? k).isSome

/-- The catalog without the value under a key. -/
def erase (c : Catalog key) (k : κ) : Catalog key := c.filter fun a => key a ≠ k

end Lookup

section Insert

variable [DecidableLT κ]

/-- A value entered at its place into values in increasing order, replacing the
one under the same key. -/
def putInto (key : α → κ) (a : α) : List α → List α
  | [] => [a]
  | b :: bs =>
      if key a < key b then a :: b :: bs
      else if key b < key a then b :: putInto key a bs
      else a :: bs

theorem mem_putInto {a x : α} {bs : List α} (h : x ∈ putInto key a bs) : x = a ∨ x ∈ bs := by
  induction bs with
  | nil => simpa [putInto] using h
  | cons b bs ih =>
    rw [putInto] at h
    split at h
    · simpa using h
    · split at h
      · rcases List.mem_cons.1 h with rfl | h
        · simp
        · rcases ih h with rfl | h <;> simp [*]
      · rcases List.mem_cons.1 h with rfl | h <;> simp [*]

variable [Trans (α := κ) (· < ·) (· < ·) (· < ·)] [Std.Trichotomous (α := κ) (· < ·)]

theorem pairwise_putInto (a : α) {bs : List α} (h : bs.Pairwise fun x y => key x < key y) :
    (putInto key a bs).Pairwise fun x y => key x < key y := by
  induction bs with
  | nil => simp [putInto]
  | cons b bs ih =>
    obtain ⟨hb, hbs⟩ := List.pairwise_cons.1 h
    rw [putInto]
    split
    next hab =>
      refine List.pairwise_cons.2 ⟨fun x hx => ?_, h⟩
      rcases List.mem_cons.1 hx with rfl | hx
      · exact hab
      · exact Trans.trans hab (hb x hx)
    next hab =>
      split
      next hba =>
        refine List.pairwise_cons.2 ⟨fun x hx => ?_, ih hbs⟩
        rcases mem_putInto hx with rfl | hx
        · exact hba
        · exact hb x hx
      next hba =>
        have hk : key a = key b :=
          Std.Trichotomous.trichotomous (r := (· < · : κ → κ → Prop)) _ _ hab hba
        exact List.pairwise_cons.2 ⟨fun x hx => hk ▸ hb x hx, hbs⟩

/-- The catalog with a value entered, in place of the one under the same key. -/
def put (c : Catalog key) (a : α) : Catalog key :=
  ⟨putInto key a c.toList, pairwise_putInto a c.sorted⟩

variable [DecidableEq κ]

/-- The catalog with a value entered, unless there is one under the same key. -/
def add (c : Catalog key) (a : α) : Catalog key := if c.contains (key a) then c else c.put a

/-- The catalog of a list of values.  Of two values under one key the later
counts. -/
def ofList (as : List α) : Catalog key := as.foldl put empty

omit [Trans (α := κ) (· < ·) (· < ·) (· < ·)] in
theorem find?_putInto [Std.Irrefl (α := κ) (· < ·)] (a : α) {bs : List α}
    (h : bs.Pairwise fun x y => key x < key y) (k : κ) :
    (putInto key a bs).find? (fun x => key x = k) =
      if key a = k then some a else bs.find? fun x => key x = k := by
  induction bs with
  | nil => by_cases hk : key a = k <;> simp [putInto, hk]
  | cons b bs ih =>
    obtain ⟨-, hbs⟩ := List.pairwise_cons.1 h
    rw [putInto]
    split
    next => by_cases hk : key a = k <;> simp [hk, List.find?_cons]
    next hab =>
      split
      next hba =>
        by_cases hk : key b = k
        · have hne : key a ≠ k := by
            rintro rfl
            rw [hk] at hba
            exact Std.Irrefl.irrefl _ hba
          simp [hk, hne]
        · simp [hk, ih hbs]
      next hba =>
        have hk' : key a = key b :=
          Std.Trichotomous.trichotomous (r := (· < · : κ → κ → Prop)) _ _ hab hba
        by_cases hk : key b = k <;> simp [hk', hk]

/-- What is found after a value was entered. -/
theorem find?_put [Std.Irrefl (α := κ) (· < ·)] (c : Catalog key) (a : α) (k : κ) :
    (c.put a).find? k = if key a = k then some a else c.find? k :=
  find?_putInto a c.sorted k

end Insert

end Catalog

/-! ### Values under names -/

instance transString : Trans (α := String) (· < ·) (· < ·) (· < ·) := ⟨fun h h' => String.lt_trans h h'⟩

instance trichotomousString : Std.Trichotomous (α := String) (· < ·) :=
  Std.instTrichotomousLtOfLawfulOrderLTOfTotalOfAntisymmLe

/-- Values under names, in the order of the UTF-8 bytes of the names. -/
abbrev NameMap (ν : Type) := Catalog (Prod.fst : String × ν → String)

namespace NameMap

variable {ν : Type}

/-- The value under a name. -/
def get? (m : NameMap ν) (name : String) : Option ν := (m.find? name).map Prod.snd

/-- The map with a value under a name. -/
def set (m : NameMap ν) (name : String) (v : ν) : NameMap ν := m.put (name, v)

/-- The names, in increasing order. -/
def names (m : NameMap ν) : List String := m.toList.map Prod.fst

/-- What is found under a name after a value was entered. -/
theorem get?_set (m : NameMap ν) (name other : String) (v : ν) :
    (m.set name v).get? other = if name = other then some v else m.get? other := by
  rw [get?, set, Catalog.find?_put, get?]
  split <;> rfl

end NameMap

end GossipLedger
