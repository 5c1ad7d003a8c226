import GossipLedger.Proofs.Ledger.Confirmation
import GossipLedger.Proofs.Ledger.Soundness
import Mathlib.Data.List.Count

/-!
# Blocks that were proposed

A candidate for mining confirms a reward and transactions that wait, and what waits is
not confirmed by the chain of its proposer.  Where blocks are known by their nonces,
the blocks below it are the same on every other chain.  So a chain of blocks that were
proposed by anyone confirms no transaction twice, rewards aside.

## Main definitions

* `Ledger.ProposedOn`, `Ledger.Proposed` — a block was proposed on top of a list of
  blocks, and on top of some list of known ones.
* `Ledger.ConfirmsOnce` — each transaction that is not a reward is confirmed once.

## Main results

* `Ledger.proposedOn_of_buildCandidate` — what a candidate for mining is like.
* `Ledger.confirmsOnce_of_proposed` — **a linked list of proposed blocks confirms each
  transaction once.**
-/

namespace GossipLedger
namespace Ledger

variable {l : Ledger}

/-! ### Candidates -/

/-- A block was proposed on top of a list of blocks: it confirms a reward and
transactions that the list does not confirm, each under its own name. -/
structure ProposedOn (below : List Block) (b : Block) : Prop where
  previous_eq : b.previous = tipAfter .zero below
  /-- The transactions begin with a reward; the others have other names, each its own,
  and none that is confirmed below. -/
  transactions : ∃ reward others, b.transactions = reward :: others ∧
    reward.isCoinbase = true ∧ (others.map Transaction.name).Nodup ∧
    (∀ t ∈ others, t.name ≠ reward.name) ∧ ∀ t ∈ others, ∀ c ∈ below, c.confirms t.name = false
  wellFormed : ∀ t ∈ b.transactions, t.WellFormed

/-- A block was proposed on top of some linked blocks that are known. -/
def Proposed (S : Block → Prop) (b : Block) : Prop :=
  ∃ below, LinkedFrom .zero below ∧ (∀ c ∈ below, S c) ∧ ProposedOn below b

theorem Proposed.mono {S T : Block → Prop} {b : Block} (h : Proposed S b)
    (hST : ∀ c, S c → T c) : Proposed T b := by
  obtain ⟨below, hlinked, hmem, hon⟩ := h
  exact ⟨below, hlinked, fun c hc => hST c (hmem c hc), hon⟩

theorem Proposed.wellFormed {S : Block → Prop} {b : Block} (h : Proposed S b) :
    ∀ t ∈ b.transactions, t.WellFormed := by
  obtain ⟨below, -, -, hon⟩ := h
  exact hon.wellFormed

/-- The nonce of a proposed block does not matter: it is found later. -/
theorem Proposed.with_nonce {S : Block → Prop} {b : Block} (h : Proposed S b) (n : Digest) :
    Proposed S { b with nonce := n } := by
  obtain ⟨below, hlinked, hmem, hon⟩ := h
  exact ⟨below, hlinked, hmem, hon.previous_eq, hon.transactions, hon.wellFormed⟩

/-- **What a candidate for mining is like**: nothing that it confirms but the reward is
confirmed by the chain it is to be put on. -/
theorem proposedOn_of_buildCandidate {reward : Transaction} {time : Timestamp} {b : Block}
    (hapart : l.Apart) (hpending : ∀ t ∈ l.pending.toList, t.WellFormed)
    (hreward : reward.isCoinbase = true) (hrewardwf : reward.WellFormed)
    (h : l.buildCandidate reward time = some b) : ProposedOn l.chain b := by
  unfold buildCandidate at h
  split at h
  next => exact absurd h (by simp)
  next =>
    obtain rfl := Option.some.inj h
    refine ⟨l.headHash_eq, ⟨reward, _, rfl, hreward, ?_, ?_, ?_⟩, ?_⟩
    · exact l.pending.nodup_keys.sublist (List.filter_sublist.map _)
    · intro t ht
      simpa using (List.mem_filter.1 ht).2
    · intro t ht c hc
      -- what waits is not confirmed
      have hwaits := Catalog.contains_of_mem (List.mem_filter.1 ht).1
      have hnot := hapart t.name hwaits
      unfold confirms at hnot
      rw [List.any_eq_false] at hnot
      exact Bool.eq_false_iff.2 (hnot c hc)
    · intro t ht
      rcases List.mem_cons.1 ht with rfl | ht
      · exact hrewardwf
      · exact hpending t (List.mem_filter.1 ht).1

/-! ### Chains of proposed blocks -/

/-- Each transaction that is not a reward is confirmed once, whether in one block or in
two. -/
def ConfirmsOnce (bs : List Block) : Prop :=
  ∀ t ∈ bs.flatMap Block.transactions, t.isCoinbase = false →
    ((bs.flatMap Block.transactions).map Transaction.name).count t.name = 1

/-- Transactions of known blocks that have the right name and the same one are equal. -/
def Distinct (S : Block → Prop) : Prop :=
  ∀ b c, S b → S c → ∀ t ∈ b.transactions, ∀ u ∈ c.transactions,
    t.WellFormed → u.WellFormed → t.name = u.name → t = u

/-- In a proposed block a transaction that is not a reward stands once. -/
theorem ProposedOn.count_eq_one {below : List Block} {b : Block} (h : ProposedOn below b)
    {t : Transaction} (ht : t ∈ b.transactions) (hreal : t.isCoinbase = false) :
    (b.transactions.map Transaction.name).count t.name = 1 := by
  obtain ⟨reward, others, hlist, hreward, hnodup, hne, -⟩ := h.transactions
  rw [hlist] at ht ⊢
  rcases List.mem_cons.1 ht with rfl | ht
  · rw [hreward] at hreal
    exact absurd hreal (by simp)
  · rw [List.map_cons, List.count_cons_of_ne (hne t ht).symm]
    exact List.count_eq_one_of_mem hnodup (List.mem_map_of_mem ht)

/-- A transaction of a proposed block that is not a reward is not confirmed below. -/
theorem ProposedOn.not_confirmed {below : List Block} {b : Block} (h : ProposedOn below b)
    {t : Transaction} (ht : t ∈ b.transactions) (hreal : t.isCoinbase = false) :
    t.name ∉ (below.flatMap Block.transactions).map Transaction.name := by
  obtain ⟨reward, others, hlist, hreward, -, -, hnew⟩ := h.transactions
  rw [hlist] at ht
  rcases List.mem_cons.1 ht with rfl | ht
  · rw [hreward] at hreal
    exact absurd hreal (by simp)
  · intro hmem
    obtain ⟨u, hu, hname⟩ := List.mem_map.1 hmem
    obtain ⟨c, hc, huc⟩ := List.mem_flatMap.1 hu
    have hconfirms : c.confirms t.name = true := Block.confirms_iff.2 ⟨u, huc, hname⟩
    rw [hnew t ht c hc] at hconfirms
    exact absurd hconfirms (by simp)

/-- **A linked list of proposed blocks confirms each transaction once**, rewards aside,
if blocks are known by their nonces and transactions by their names: what is below a
block is what its proposer saw. -/
theorem confirmsOnce_of_proposed {S : Block → Prop} (hS : Identified S) (hdistinct : Distinct S)
    (hproposed : ∀ b, S b → Proposed S b) {bs : List Block} (hlinked : LinkedFrom .zero bs)
    (hbs : ∀ b ∈ bs, S b) : ConfirmsOnce bs := by
  induction bs using List.reverseRecOn with
  | nil =>
    intro t ht
    exact absurd ht (by simp)
  | append_singleton bs b ih =>
    have hbelow : ∀ c ∈ bs, S c := fun c hc => hbs c (List.mem_append_left _ hc)
    have hb : S b := hbs b (by simp)
    rw [linkedFrom_concat] at hlinked
    have hon : ProposedOn bs b := by
      -- what the proposer saw ends in the same nonce, so it is the same list
      obtain ⟨seen, hseen, hseenS, hon⟩ := hproposed b hb
      have hsame : seen = bs :=
        eq_of_tipAfter_eq hS hseen hlinked.1 hseenS hbelow (hon.previous_eq.symm.trans hlinked.2)
      rw [← hsame]
      exact hon
    intro t ht hreal
    rw [List.flatMap_append, List.flatMap_singleton, List.mem_append] at ht
    rw [List.flatMap_append, List.flatMap_singleton, List.map_append, List.count_append]
    rcases ht with ht | ht
    · -- confirmed below: the new block does not confirm it again
      have hone := ih hlinked.1 hbelow t ht hreal
      have hzero : t.name ∉ b.transactions.map Transaction.name := by
        intro hmem
        obtain ⟨u, hu, hname⟩ := List.mem_map.1 hmem
        obtain ⟨c, hc, htc⟩ := List.mem_flatMap.1 ht
        obtain rfl : u = t := by
          refine hdistinct b c hb (hbelow c hc) u hu t htc (hon.wellFormed u hu) ?_ hname
          exact (hproposed c (hbelow c hc)).wellFormed t htc
        exact hon.not_confirmed hu hreal (List.mem_map_of_mem ht)
      rw [hone, List.count_eq_zero_of_not_mem hzero]
    · -- confirmed by the new block: not below, and there once
      rw [List.count_eq_zero_of_not_mem (hon.not_confirmed ht hreal), hon.count_eq_one ht hreal]

end Ledger
end GossipLedger
