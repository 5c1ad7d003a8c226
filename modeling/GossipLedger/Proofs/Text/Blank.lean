import GossipLedger.Text.Blank
import Mathlib.Data.List.TakeWhile

/-!
# The blanks around a text

What is left of a text without the blanks on either side of it is a part of the text that neither
begins nor ends with a blank and has nothing but blanks around it.  There is only one such part,
so trimming twice is trimming once, and nothing is left exactly of a text of blanks.

## Main definitions

* `Trims` — a part of a text with blanks around it and none at its ends.

## Main results

* `trims_iff` — **trimming leaves that part.**
* `trimBlank_trimBlank`, `trimBlank_eq_nil_iff` — what follows from it.
-/

namespace GossipLedger

/-- What is true of all members of a list is tested on one after the other. -/
theorem forall_mem_of_all {α : Type} {p : α → Prop} [DecidablePred p] {as : List α}
    (h : as.all (fun a => decide (p a)) = true) : ∀ a ∈ as, p a := by
  simpa using h

/-- A part of a text that has only blanks around it and none at its ends. -/
structure Trims (cs core : List Char) : Prop where
  surrounded : ∃ front back, cs = front ++ core ++ back ∧ (∀ c ∈ front, isBlank c = true) ∧
    ∀ c ∈ back, isBlank c = true
  head : ∀ c ∈ core.head?, isBlank c = false
  last : ∀ c ∈ core.getLast?, isBlank c = false

theorem not_isBlank_of_mem_head?_dropWhile {cs : List Char} {c : Char}
    (h : c ∈ (cs.dropWhile isBlank).head?) : isBlank c = false := by
  have hnot := List.head?_dropWhile_not isBlank cs
  rw [Option.mem_def.1 h] at hnot
  simpa using hnot

/-- What trimming leaves is such a part. -/
theorem trims_trimBlank (cs : List Char) : Trims cs (trimBlank cs) := by
  have hstart : cs = cs.takeWhile isBlank ++ trimBlankStart cs :=
    List.takeWhile_append_dropWhile.symm
  have hend : trimBlankStart cs =
      trimBlank cs ++ ((trimBlankStart cs).reverse.takeWhile isBlank).reverse := by
    rw [trimBlank, ← List.reverse_append, List.takeWhile_append_dropWhile, List.reverse_reverse]
  refine ⟨⟨cs.takeWhile isBlank, ((trimBlankStart cs).reverse.takeWhile isBlank).reverse, ?_,
    fun c hc => List.mem_takeWhile_imp hc,
    fun c hc => List.mem_takeWhile_imp (List.mem_reverse.1 hc)⟩, fun c hc => ?_, fun c hc => ?_⟩
  · rw [List.append_assoc, ← hend, ← hstart]
  · -- what trimming leaves begins as the text does without its leading blanks
    have hhead : c ∈ (trimBlankStart cs).head? := by
      rw [hend, List.head?_append, Option.mem_def.1 hc]
      rfl
    exact not_isBlank_of_mem_head?_dropWhile hhead
  · rw [trimBlank, List.getLast?_reverse] at hc
    exact not_isBlank_of_mem_head?_dropWhile hc

theorem dropWhile_isBlank_append {blanks rest : List Char} (h : ∀ c ∈ blanks, isBlank c = true)
    (hrest : ∀ c ∈ rest.head?, isBlank c = false) :
    (blanks ++ rest).dropWhile isBlank = rest := by
  rw [List.dropWhile_append_of_pos h]
  cases rest with
  | nil => rfl
  | cons c rest => rw [List.dropWhile_cons_of_neg (by simp [hrest c rfl])]

/-- There is only one such part. -/
theorem Trims.eq {cs core : List Char} (h : Trims cs core) : trimBlank cs = core := by
  obtain ⟨⟨front, back, rfl, hfront, hback⟩, hhead, hlast⟩ := h
  have hreverse : ∀ c ∈ back.reverse, isBlank c = true :=
    fun c hc => hback c (List.mem_reverse.1 hc)
  have hcore : (back.reverse ++ core.reverse).dropWhile isBlank = core.reverse :=
    dropWhile_isBlank_append hreverse (by rwa [List.head?_reverse])
  cases core with
  | nil =>
    have hall : ∀ c ∈ front ++ [] ++ back, isBlank c = true := by
      intro c hc
      rw [List.append_nil] at hc
      exact (List.mem_append.1 hc).elim (hfront c) (hback c)
    rw [trimBlank, trimBlankStart, List.dropWhile_eq_nil_iff.2 hall]
    rfl
  | cons c core =>
    have hstart : (front ++ (c :: core ++ back)).dropWhile isBlank = c :: core ++ back :=
      dropWhile_isBlank_append hfront hhead
    rw [trimBlank, trimBlankStart, List.append_assoc, hstart, List.reverse_append, hcore,
      List.reverse_reverse]

/-- **Trimming leaves the part that has only blanks around it and none at its ends.** -/
theorem trims_iff {cs core : List Char} : Trims cs core ↔ trimBlank cs = core := by
  constructor
  · exact Trims.eq
  · rintro rfl
    exact trims_trimBlank cs

theorem trimBlank_trimBlank (cs : List Char) : trimBlank (trimBlank cs) = trimBlank cs := by
  obtain ⟨-, hhead, hlast⟩ := trims_trimBlank cs
  exact Trims.eq ⟨⟨[], [], by simp, by simp, by simp⟩, hhead, hlast⟩

/-- Nothing is left of a text exactly if it is blank. -/
theorem trimBlank_eq_nil_iff {cs : List Char} :
    trimBlank cs = [] ↔ ∀ c ∈ cs, isBlank c = true := by
  rw [← trims_iff]
  constructor
  · rintro ⟨⟨front, back, rfl, hfront, hback⟩, -, -⟩ c hc
    rw [List.append_nil] at hc
    exact (List.mem_append.1 hc).elim (hfront c) (hback c)
  · intro h
    exact ⟨⟨cs, [], by simp, h, by simp⟩, by simp, by simp⟩

end GossipLedger
