import GossipLedger.Ledger.Basic
import Mathlib.Data.List.Induction
import Mathlib.Data.List.Nodup

/-!
# Linked blocks

A list of blocks is linked from a tip if each stands on top of the one before and
the first on the tip.  Where every nonce is different from zero and belongs to one
block only, a nonce determines all blocks below it: two lists linked from zero with
the same last nonce are the same list.

## Main definitions

* `Ledger.tipAfter` — the nonce that a block on top of a list points at.
* `Ledger.Identified` — nonces are not zero, and equal nonces mean equal blocks.

## Main results

* `Ledger.linkedFrom_append` — a linked list splits into two.
* `Ledger.nodup_nonces_of_linkedFrom` — a list linked from a tip that none of its
  blocks has as nonce does not come back to a nonce.
* `Ledger.eq_of_tipAfter_eq` — **the blocks below a nonce are determined.**
-/

namespace GossipLedger
namespace Ledger

/-- The nonce that a block on top of a list points at, the list standing on `tip`. -/
def tipAfter (tip : Digest) : List Block → Digest
  | [] => tip
  | b :: bs => tipAfter b.nonce bs

@[simp] theorem tipAfter_nil (tip : Digest) : tipAfter tip [] = tip := rfl

@[simp] theorem tipAfter_cons (tip : Digest) (b : Block) (bs : List Block) :
    tipAfter tip (b :: bs) = tipAfter b.nonce bs := rfl

theorem tipAfter_append (tip : Digest) (as bs : List Block) :
    tipAfter tip (as ++ bs) = tipAfter (tipAfter tip as) bs := by
  induction as generalizing tip with
  | nil => rfl
  | cons a as ih => exact ih a.nonce

@[simp] theorem tipAfter_concat (tip : Digest) (as : List Block) (b : Block) :
    tipAfter tip (as ++ [b]) = b.nonce := tipAfter_append tip as [b]

/-- The tip of a list that is not empty is one of its nonces. -/
theorem exists_nonce_eq_tipAfter (tip : Digest) {bs : List Block} (h : bs ≠ []) :
    ∃ b ∈ bs, b.nonce = tipAfter tip bs := by
  rcases List.eq_nil_or_concat' bs with rfl | ⟨as, b, rfl⟩
  · exact absurd rfl h
  · exact ⟨b, by simp, by simp⟩

/-- What a block on top of the chain points at is the tip of the chain. -/
theorem headHash_eq (l : Ledger) : l.headHash = tipAfter .zero l.chain := by
  unfold headHash head?
  rcases List.eq_nil_or_concat' l.chain with h | ⟨as, b, h⟩
  · simp [h]
  · simp [h]

/-! ### Splitting a linked list -/

@[simp] theorem linkedFrom_nil (tip : Digest) : LinkedFrom tip [] := trivial

@[simp] theorem linkedFrom_cons (tip : Digest) (b : Block) (bs : List Block) :
    LinkedFrom tip (b :: bs) ↔ b.previous = tip ∧ LinkedFrom b.nonce bs := Iff.rfl

theorem linkedFrom_append {tip : Digest} {as bs : List Block} :
    LinkedFrom tip (as ++ bs) ↔ LinkedFrom tip as ∧ LinkedFrom (tipAfter tip as) bs := by
  induction as generalizing tip with
  | nil => simp
  | cons a as ih =>
    rw [List.cons_append, linkedFrom_cons, ih, linkedFrom_cons, tipAfter_cons, and_assoc]

theorem linkedFrom_concat {tip : Digest} {as : List Block} {b : Block} :
    LinkedFrom tip (as ++ [b]) ↔ LinkedFrom tip as ∧ b.previous = tipAfter tip as := by
  simp [linkedFrom_append]

theorem LinkedFrom.take {tip : Digest} {bs : List Block} (h : LinkedFrom tip bs) (n : Nat) :
    LinkedFrom tip (bs.take n) := by
  rw [← List.take_append_drop n bs] at h
  exact (linkedFrom_append.1 h).1

/-- A block of a linked list stands on what comes before it. -/
theorem LinkedFrom.previous_eq {tip : Digest} {as bs : List Block} {b : Block}
    (h : LinkedFrom tip (as ++ b :: bs)) : b.previous = tipAfter tip as :=
  (linkedFrom_append.1 h).2.1

/-! ### Lists that do not come back -/

/-- The nonces of two lists together are different. -/
theorem nodup_nonces_append {as bs : List Block} : ((as ++ bs).map Block.nonce).Nodup ↔
    (as.map Block.nonce).Nodup ∧ (bs.map Block.nonce).Nodup ∧
      ∀ a ∈ as, ∀ b ∈ bs, a.nonce ≠ b.nonce := by
  rw [List.map_append, List.nodup_append]
  simp only [List.forall_mem_map]

theorem nodup_nonces_concat {as : List Block} {b : Block} (h : (as.map Block.nonce).Nodup)
    (hnew : ∀ a ∈ as, a.nonce ≠ b.nonce) : ((as ++ [b]).map Block.nonce).Nodup := by
  refine nodup_nonces_append.2 ⟨h, by simp, ?_⟩
  intro a ha c hc
  rw [List.mem_singleton.1 hc]
  exact hnew a ha

/-- **A list linked from a tip that no block has as its nonce never comes back to a
nonce**, as long as equal nonces mean equal blocks: going down from a repeated block
twice, one would meet the tip in the middle of the list. -/
theorem nodup_nonces_of_linkedFrom {tip : Digest} {bs : List Block} (h : LinkedFrom tip bs)
    (hinj : ∀ a ∈ bs, ∀ b ∈ bs, a.nonce = b.nonce → a = b)
    (htip : ∀ b ∈ bs, b.nonce ≠ tip) : (bs.map Block.nonce).Nodup := by
  induction bs using List.reverseRecOn with
  | nil => simp
  | append_singleton bs b ih =>
    rw [linkedFrom_concat] at h
    have hsub : ∀ x ∈ bs, x ∈ bs ++ [b] := fun x hx => List.mem_append_left _ hx
    have hbs := ih h.1 (fun x hx y hy => hinj x (hsub x hx) y (hsub y hy))
      fun x hx => htip x (hsub x hx)
    refine nodup_nonces_concat hbs ?_
    intro c hc hcb
    -- the last block is met a second time, at `c`, further down
    obtain rfl : c = b := hinj c (hsub c hc) b (by simp) hcb
    obtain ⟨as, cs, rfl⟩ := List.append_of_mem hc
    have hback : tipAfter tip as = tipAfter tip (as ++ c :: cs) := by
      rw [← h.2, h.1.previous_eq]
    rw [tipAfter_append] at hback
    obtain ⟨e, he, heq⟩ := exists_nonce_eq_tipAfter (tipAfter tip as) (List.cons_ne_nil c cs)
    by_cases has : as = []
    · subst has
      exact htip e (hsub e (by simpa using he)) (by rw [heq, ← hback]; rfl)
    · obtain ⟨d, hd, hdeq⟩ := exists_nonce_eq_tipAfter tip has
      have hne := (nodup_nonces_append.1 hbs).2.2 d hd e he
      exact hne (hdeq.trans (hback.trans heq.symm))

/-! ### Blocks that are known by their nonces -/

/-- Blocks are known by their nonces: none is zero, and different blocks have
different ones. -/
structure Identified (S : Block → Prop) : Prop where
  /-- No nonce looks like that of no block at all. -/
  nonce_ne_zero : ∀ b, S b → b.nonce ≠ .zero
  /-- A nonce belongs to one block. -/
  eq_of_nonce_eq : ∀ a b, S a → S b → a.nonce = b.nonce → a = b

theorem Identified.mono {S T : Block → Prop} (h : Identified T) (hST : ∀ b, S b → T b) :
    Identified S where
  nonce_ne_zero b hb := h.nonce_ne_zero b (hST b hb)
  eq_of_nonce_eq a b ha hb := h.eq_of_nonce_eq a b (hST a ha) (hST b hb)

/-- **The blocks below a nonce are determined**: two lists linked from zero that end
in the same nonce are equal. -/
theorem eq_of_tipAfter_eq {S : Block → Prop} (hS : Identified S) {as bs : List Block}
    (ha : LinkedFrom .zero as) (hb : LinkedFrom .zero bs) (haS : ∀ a ∈ as, S a)
    (hbS : ∀ b ∈ bs, S b) (h : tipAfter .zero as = tipAfter .zero bs) : as = bs := by
  induction as using List.reverseRecOn generalizing bs with
  | nil =>
    rcases List.eq_nil_or_concat' bs with rfl | ⟨bs, b, rfl⟩
    · rfl
    · rw [tipAfter_nil, tipAfter_concat] at h
      exact absurd h.symm (hS.nonce_ne_zero b (hbS b (by simp)))
  | append_singleton as a ih =>
    rcases List.eq_nil_or_concat' bs with rfl | ⟨bs, b, rfl⟩
    · rw [tipAfter_nil, tipAfter_concat] at h
      exact absurd h (hS.nonce_ne_zero a (haS a (by simp)))
    · rw [tipAfter_concat, tipAfter_concat] at h
      obtain rfl := hS.eq_of_nonce_eq a b (haS a (by simp)) (hbS b (by simp)) h
      rw [linkedFrom_concat] at ha hb
      rw [ih ha.1 hb.1 (fun x hx => haS x (List.mem_append_left _ hx))
        (fun x hx => hbS x (List.mem_append_left _ hx)) (ha.2.symm.trans hb.2)]

/-- Two linked lists that share a block agree up to it. -/
theorem eq_of_common_block {S : Block → Prop} (hS : Identified S) {as bs cs ds : List Block}
    {b : Block} (ha : LinkedFrom .zero (as ++ b :: bs)) (hc : LinkedFrom .zero (cs ++ b :: ds))
    (haS : ∀ x ∈ as, S x) (hcS : ∀ x ∈ cs, S x) : as = cs :=
  eq_of_tipAfter_eq hS (linkedFrom_append.1 ha).1 (linkedFrom_append.1 hc).1 haS hcS
    (ha.previous_eq.symm.trans hc.previous_eq)

end Ledger
end GossipLedger
