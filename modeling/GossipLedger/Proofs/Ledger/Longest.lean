import GossipLedger.Proofs.Ledger.Soundness

/-!
# The longest branch

The known blocks, on the chain or pooled, form branches that start from zero.  The
chain should be a longest of them.  While pooled blocks are still being connected it
need only lead to a longest one: some branch that continues the chain is longest.  To
connect a block keeps this exactly if no branch that continues the chain in another
way is higher than all that continue it with this block.  A shorter way, once taken,
is never left again.

## Main definitions

* `Ledger.Holds` — a block is on the chain or pooled.
* `Ledger.BranchOf`, `Ledger.Branch` — a branch of some blocks, and of the known ones.
* `Ledger.Longest` — no branch is longer than the chain.
* `Ledger.Leads` — the chain is the beginning of a longest branch.
* `Ledger.Tallest` — a block continues the chain at least as high as any other.

## Main results

* `Ledger.addBlock_extension` — what it is to connect a pooled block.
* `Ledger.leads_addBlock_iff` — **a connected block keeps the lead exactly if it is a
  tallest.**
* `Ledger.leads_iff_longest` — when nothing is left to connect, to lead is to be
  longest.
-/

namespace GossipLedger
namespace Ledger

variable {l m : Ledger}

/-! ### Branches of known blocks -/

/-- A block is known: it is on the chain or pooled. -/
def Holds (l : Ledger) (b : Block) : Prop := b ∈ l.chain ∨ b ∈ l.pooled.toList

instance (l : Ledger) (b : Block) : Decidable (l.Holds b) := inferInstanceAs (Decidable (_ ∨ _))

/-- A branch of some blocks: each stands on the one before, the first on none, and
their nonces are different. -/
structure BranchOf (S : Block → Prop) (bs : List Block) : Prop where
  linked : LinkedFrom .zero bs
  nodup : (bs.map Block.nonce).Nodup
  mem : ∀ b ∈ bs, S b

theorem branchOf_iff {S : Block → Prop} {bs : List Block} :
    BranchOf S bs ↔ LinkedFrom .zero bs ∧ (bs.map Block.nonce).Nodup ∧ ∀ b ∈ bs, S b :=
  ⟨fun h => ⟨h.linked, h.nodup, h.mem⟩, fun h => ⟨h.1, h.2.1, h.2.2⟩⟩

instance (S : Block → Prop) [DecidablePred S] (bs : List Block) : Decidable (BranchOf S bs) :=
  decidable_of_iff' _ branchOf_iff

theorem BranchOf.mono {S T : Block → Prop} {bs : List Block} (h : BranchOf S bs)
    (hST : ∀ b, S b → T b) : BranchOf T bs := ⟨h.linked, h.nodup, fun b hb => hST b (h.mem b hb)⟩

/-- What follows a block of a branch has other nonces than what comes before. -/
theorem BranchOf.nonce_ne {S : Block → Prop} {as bs : List Block} (h : BranchOf S (as ++ bs)) :
    ∀ a ∈ as, ∀ b ∈ bs, a.nonce ≠ b.nonce := by
  exact (nodup_nonces_append.1 h.nodup).2.2

/-- A branch of the known blocks. -/
def Branch (l : Ledger) (bs : List Block) : Prop := BranchOf l.Holds bs

instance (l : Ledger) (bs : List Block) : Decidable (l.Branch bs) :=
  inferInstanceAs (Decidable (BranchOf _ bs))

theorem Branch.congr {bs : List Block} (h : l.Branch bs) (hsame : ∀ b, l.Holds b ↔ m.Holds b) :
    m.Branch bs := BranchOf.mono h fun b => (hsame b).1

theorem holds_addTransaction (t : Transaction) (b : Block) :
    (l.addTransaction t).Holds b ↔ l.Holds b := by
  unfold Holds
  rw [addTransaction_chain, addTransaction_pooled]

theorem Sound.branch {difficulty : Nat} (h : Sound difficulty l) : l.Branch l.chain :=
  ⟨h.linked, h.nodup, fun _ hb => Or.inl hb⟩

/-! ### The known blocks after a block came -/

theorem holds_extend {b c : Block} {mining : Option Block} :
    ((l.preempt b mining).1.extend b).Holds c ↔ l.Holds c ∨ c = b := by
  unfold Holds
  rw [extend_chain, extend_pooled, preempt_chain, preempt_pooled, List.mem_append,
    List.mem_singleton]
  exact or_right_comm

theorem holds_of_holds_park {b c : Block} (hc : (l.park b).Holds c) : l.Holds c ∨ c = b := by
  rcases hc with hc | hc
  · exact Or.inl (Or.inl hc)
  · rcases Catalog.mem_of_mem_add hc with hc | rfl
    · exact Or.inl (Or.inr hc)
    · exact Or.inr rfl

/-- A reorganization adds no blocks to the known ones. -/
theorem holds_of_holds_reorganize {s : SideChain} (hfits : s.Fits l.chain l.pooled) {c : Block}
    (hc : (l.reorganize s).1.Holds c) : l.Holds c := by
  rcases hc with hc | hc
  · rw [reorganize_chain] at hc
    rcases List.mem_append.1 hc with hc | hc
    · exact Or.inl (List.mem_of_mem_take hc)
    · exact Or.inr (mem_orphans.1 (hfits.orphan c hc)).1
  · rw [reorganize_pooled] at hc
    rcases Catalog.mem_of_mem_foldl_add hc with hc | hc
    · exact Or.inr hc
    · exact Or.inl (List.mem_of_mem_drop hc)

/-- Whatever becomes of a block, no other block comes to be known. -/
theorem Arrival.holds {b c : Block} {mining : Option Block} {o : BlockOutcome}
    (harrival : Arrival l b mining m o) (hc : m.Holds c) : l.Holds c ∨ c = b := by
  cases harrival with
  | invalid => exact Or.inl hc
  | ignored => exact Or.inl hc
  | extended => exact holds_extend.1 hc
  | reorganized _ _ hover =>
    have hfits := fits_of_overtaking? hover
    exact holds_of_holds_park (holds_of_holds_reorganize hfits hc)
  | stored => exact holds_of_holds_park hc

/-! ### Chains that are longest and chains that lead there -/

/-- No branch of the known blocks is longer than the chain. -/
def Longest (l : Ledger) : Prop := ∀ bs, l.Branch bs → bs.length ≤ l.chain.length

/-- The chain is the beginning of a longest branch. -/
def Leads (l : Ledger) : Prop :=
  ∀ bs, l.Branch bs → ∃ post, l.Branch (l.chain ++ post) ∧ bs.length ≤ (l.chain ++ post).length

/-- No branch that continues the chain is higher than those that continue it with a
given block. -/
def Tallest (l : Ledger) (b : Block) : Prop :=
  ∀ post, l.Branch (l.chain ++ post) →
    ∃ bs, l.Branch (l.chain ++ b :: bs) ∧ post.length ≤ (b :: bs).length

theorem longest_new (difficulty : Nat) : (new difficulty).Longest := by
  intro bs hbs
  cases bs with
  | nil => exact Nat.zero_le _
  | cons b bs =>
    rcases hbs.mem b List.mem_cons_self with hb | hb
    · exact absurd hb List.not_mem_nil
    · exact absurd hb List.not_mem_nil

theorem Longest.leads {difficulty : Nat} (h : l.Longest) (hl : Sound difficulty l) : l.Leads := by
  intro bs hbs
  refine ⟨[], ?_, ?_⟩
  · rw [List.append_nil]
    exact hl.branch
  · rw [List.append_nil]
    exact h bs hbs

theorem mem_extensions {b : Block} :
    b ∈ l.extensions ↔ b ∈ l.pooled.toList ∧ b.previous = l.headHash ∧
      ∀ c ∈ l.chain, c.nonce ≠ b.nonce := by
  unfold extensions
  rw [List.mem_filter, ← onChain_eq_false_iff]
  simp

/-- Without orphans there is nothing to connect. -/
theorem extensions_eq_nil_of_orphans (h : orphans l.chain l.pooled = []) :
    l.extensions = [] := by
  refine List.eq_nil_iff_forall_not_mem.2 fun b hb => ?_
  obtain ⟨hpooled, -, hnew⟩ := mem_extensions.1 hb
  have horphan := mem_orphans.2 ⟨hpooled, hnew⟩
  rw [h] at horphan
  exact List.not_mem_nil horphan

/-- The first block of a branch that continues the chain is pooled and stands on top. -/
theorem mem_extensions_of_branch {b : Block} {bs : List Block}
    (h : l.Branch (l.chain ++ b :: bs)) : b ∈ l.extensions := by
  have hnew : ∀ c ∈ l.chain, c.nonce ≠ b.nonce :=
    fun c hc => h.nonce_ne c hc b List.mem_cons_self
  refine mem_extensions.2 ⟨?_, ?_, hnew⟩
  · rcases h.mem b (by simp) with hb | hb
    · exact absurd rfl (hnew b hb)
    · exact hb
  · rw [headHash_eq]
    exact h.linked.previous_eq

/-- A pooled block on top of the chain continues it. -/
theorem branch_concat_of_mem_extensions {difficulty : Nat} {b : Block} (hl : Sound difficulty l)
    (hb : b ∈ l.extensions) : l.Branch (l.chain ++ [b]) := by
  obtain ⟨hpooled, hprev, hnew⟩ := mem_extensions.1 hb
  refine ⟨linkedFrom_concat.2 ⟨hl.linked, hprev.trans l.headHash_eq⟩,
    nodup_nonces_concat hl.nodup hnew, ?_⟩
  intro c hc
  rcases List.mem_append.1 hc with hc | hc
  · exact Or.inl hc
  · rw [List.mem_singleton.1 hc]
    exact Or.inr hpooled

/-- On top of a longest chain there is no pooled block. -/
theorem Longest.extensions_eq_nil {difficulty : Nat} (h : l.Longest) (hl : Sound difficulty l) :
    l.extensions = [] := by
  refine List.eq_nil_iff_forall_not_mem.2 fun b hb => ?_
  have hle := h _ (branch_concat_of_mem_extensions hl hb)
  rw [List.length_append, List.length_singleton] at hle
  omega

/-- **When nothing is left to connect, to lead is to be longest.** -/
theorem leads_iff_longest {difficulty : Nat} (hl : Sound difficulty l)
    (hrest : l.extensions = []) : l.Leads ↔ l.Longest := by
  constructor
  · intro h bs hbs
    obtain ⟨post, hpost, hle⟩ := h bs hbs
    cases post with
    | nil =>
      rw [List.append_nil] at hle
      exact hle
    | cons c post =>
      -- the first block above the chain would be left to connect
      have hc := mem_extensions_of_branch hpost
      rw [hrest] at hc
      exact absurd hc List.not_mem_nil
  · intro h
    exact h.leads hl

/-! ### Connecting a pooled block -/

/-- A pooled block on top of the chain has shown enough work, so it extends the chain. -/
theorem addBlock_extension_eq {difficulty : Nat} {b : Block} (hl : Sound difficulty l)
    (hb : b ∈ l.extensions) (mining : Option Block) :
    l.addBlock b mining =
      ((l.preempt b mining).1.extend b, .extended (l.preempt b mining).2) := by
  obtain ⟨hpooled, hprev, hnew⟩ := mem_extensions.1 hb
  refine addBlock_of_current ?_ hnew hprev mining
  rw [hl.difficulty_eq]
  exact hl.pooled_meets b hpooled

/-- **A pooled block on top of the chain is connected**: the chain grows by it and the
pooled blocks stay. -/
theorem addBlock_extension {difficulty : Nat} {b : Block} (hl : Sound difficulty l)
    (hb : b ∈ l.extensions) (mining : Option Block) :
    (l.addBlock b mining).2.movedHead = true ∧
      (l.addBlock b mining).1.chain = l.chain ++ [b] ∧
      (l.addBlock b mining).1.pooled = l.pooled := by
  rw [addBlock_extension_eq hl hb]
  exact ⟨rfl, by simp, by simp⟩

theorem holds_addBlock_extension {difficulty : Nat} {b : Block} (hl : Sound difficulty l)
    (hb : b ∈ l.extensions) (mining : Option Block) (c : Block) :
    (l.addBlock b mining).1.Holds c ↔ l.Holds c := by
  obtain ⟨-, hchain, hpooled⟩ := addBlock_extension hl hb mining
  unfold Holds
  rw [hchain, hpooled, List.mem_append, List.mem_singleton]
  constructor
  · rintro ((hc | rfl) | hc)
    · exact Or.inl hc
    · exact Or.inr (mem_extensions.1 hb).1
    · exact Or.inr hc
  · rintro (hc | hc)
    · exact Or.inl (Or.inl hc)
    · exact Or.inr hc

/-- **A connected block keeps the lead exactly if it is a tallest**; a lead that is
lost does not come back. -/
theorem leads_addBlock_iff {difficulty : Nat} {b : Block} (hl : Sound difficulty l)
    (hb : b ∈ l.extensions) (mining : Option Block) :
    (l.addBlock b mining).1.Leads ↔ l.Leads ∧ l.Tallest b := by
  obtain ⟨-, hchain, -⟩ := addBlock_extension hl hb mining
  have hholds := holds_addBlock_extension hl hb mining
  -- a branch that continues the new chain continues the old one with the block
  have hcons : ∀ bs, (l.addBlock b mining).1.chain ++ bs = l.chain ++ b :: bs := by
    intro bs
    rw [hchain, List.append_assoc, List.singleton_append]
  constructor
  · intro h
    have hwith : ∀ bs, l.Branch bs →
        ∃ post, l.Branch (l.chain ++ b :: post) ∧ bs.length ≤ (l.chain ++ b :: post).length := by
      intro bs hbs
      obtain ⟨post, hpost, hle⟩ := h bs (hbs.congr fun c => (hholds c).symm)
      rw [hcons] at hpost hle
      exact ⟨post, hpost.congr hholds, hle⟩
    constructor
    · intro bs hbs
      obtain ⟨post, hpost, hle⟩ := hwith bs hbs
      exact ⟨b :: post, hpost, hle⟩
    · intro post hpost
      obtain ⟨bs, hbs, hle⟩ := hwith _ hpost
      rw [List.length_append, List.length_append] at hle
      exact ⟨bs, hbs, by omega⟩
  · -- the continuation through the block is as high as the highest one
    rintro ⟨h, htallest⟩ bs hbs
    obtain ⟨post, hpost, hle⟩ := h bs (hbs.congr hholds)
    obtain ⟨cs, hcs, hle'⟩ := htallest post hpost
    refine ⟨cs, ?_, ?_⟩
    · rw [hcons]
      exact hcs.congr fun c => (hholds c).symm
    · rw [hcons, List.length_append]
      rw [List.length_append] at hle
      omega

/-- A connected block is one orphan less. -/
theorem length_orphans_addBlock_extension {difficulty : Nat} {b : Block}
    (hl : Sound difficulty l) (hb : b ∈ l.extensions) (mining : Option Block) :
    (orphans (l.addBlock b mining).1.chain (l.addBlock b mining).1.pooled).length <
      (orphans l.chain l.pooled).length := by
  obtain ⟨-, hchain, hpooled⟩ := addBlock_extension hl hb mining
  obtain ⟨hmem, -, hnew⟩ := mem_extensions.1 hb
  -- the orphans afterwards are those with another nonce
  have hsub : (orphans (l.addBlock b mining).1.chain (l.addBlock b mining).1.pooled) =
      (orphans l.chain l.pooled).filter fun c => !decide (b.nonce = c.nonce) := by
    rw [hchain, hpooled, orphans, orphans, List.filter_filter]
    refine List.filter_congr fun c _ => ?_
    simp [onChain, Bool.and_comm]
  rw [hsub]
  refine List.length_filter_lt_length_iff_exists.2 ⟨b, mem_orphans.2 ⟨hmem, hnew⟩, by simp⟩

end Ledger
end GossipLedger
