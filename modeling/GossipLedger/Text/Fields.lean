/-!
# Fields of a text

A text that holds several fields with a separator between any two.

## Main definitions

* `fields separator cs` — the fields, of which there is at least one.

## Main results

* `intercalate_fields` — the fields with their separators make up the text.
* `separator_not_mem_of_mem_fields` — no field holds a separator.
-/

namespace GossipLedger

/-- The parts of a text between separators. -/
def fields (separator : Char) : List Char → List (List Char)
  | [] => [[]]
  | c :: cs =>
      if c = separator then [] :: fields separator cs
      else match fields separator cs with
        | [] => [[c]]
        | part :: parts => (c :: part) :: parts

/-- There is at least one field. -/
theorem fields_ne_nil (separator : Char) (cs : List Char) : fields separator cs ≠ [] := by
  cases cs with
  | nil => simp [fields]
  | cons c cs =>
    rw [fields]
    split
    · simp
    · split <;> simp

/-- The fields with their separators make up the text. -/
theorem intercalate_fields (separator : Char) (cs : List Char) :
    [separator].intercalate (fields separator cs) = cs := by
  induction cs with
  | nil => rfl
  | cons c cs ih =>
    rw [fields]
    have hne := fields_ne_nil separator cs
    split
    next h =>
      subst h
      cases hf : fields c cs with
      | nil => exact absurd hf hne
      | cons part parts =>
        rw [hf] at ih
        simpa [List.intercalate] using ih
    next =>
      cases hf : fields separator cs with
      | nil => exact absurd hf hne
      | cons part parts =>
        rw [hf] at ih
        cases parts with
        | nil => simpa [List.intercalate] using ih
        | cons q qs => simpa [List.intercalate] using ih

/-- No field holds a separator. -/
theorem separator_not_mem_of_mem_fields {separator : Char} {cs field : List Char}
    (h : field ∈ fields separator cs) : separator ∉ field := by
  induction cs generalizing field with
  | nil => simp_all [fields]
  | cons c cs ih =>
    rw [fields] at h
    split at h
    next =>
      rcases List.mem_cons.1 h with rfl | h
      · simp
      · exact ih h
    next hc =>
      cases hf : fields separator cs with
      | nil => exact absurd hf (fields_ne_nil separator cs)
      | cons part parts =>
        rw [hf] at h
        rcases List.mem_cons.1 h with rfl | h
        · have : separator ∉ part := ih (by simp [hf])
          simp [this, Ne.symm hc]
        · exact ih (by simp [hf, h])

end GossipLedger
