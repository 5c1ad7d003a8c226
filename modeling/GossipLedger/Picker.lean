/-!
# Picks

Where a node may take any one of several candidates, the choice is an argument of
its step: a `Picker` takes some member of every list that has one, and nothing
else.  A statement for every picker is a statement for every choice.

## Main definitions

* `Picker α` — a way to pick one of several candidates.
* `Picker.first` — the pick of the first.
-/

namespace GossipLedger

/-- A way to pick one of several candidates. -/
structure Picker (α : Type) where
  pick : List α → Option α
  /-- A pick is one of the candidates. -/
  mem_of_pick : ∀ {as a}, pick as = some a → a ∈ as
  /-- There is a pick unless there is no candidate. -/
  pick_isSome : ∀ {as}, as ≠ [] → (pick as).isSome

namespace Picker

variable {α : Type}

/-- The pick of the first candidate. -/
def first : Picker α where
  pick := List.head?
  mem_of_pick h := List.mem_of_mem_head? (Option.mem_def.2 h)
  pick_isSome h := List.isSome_head?.2 h

instance : Inhabited (Picker α) := ⟨first⟩

/-- There is no pick exactly when there is no candidate. -/
theorem pick_eq_none_iff (p : Picker α) {as : List α} : p.pick as = none ↔ as = [] := by
  constructor
  · intro h
    by_cases has : as = []
    · exact has
    · have := p.pick_isSome has
      simp [h] at this
  · rintro rfl
    cases h : p.pick [] with
    | none => rfl
    | some a => exact absurd (p.mem_of_pick h) (by simp)

end Picker

end GossipLedger
