import GossipLedger.Proofs.Ledger.Arrivals
import GossipLedger.Proofs.Ledger.Retention

/-!
# Side chains that overtake

A side chain overtakes the chain if the chain with the side chain in place of its end
would be higher.  Of several that overtake, wherever they leave the chain, the one with
the most blocks is taken.  That need not be the one that reaches highest: a side chain
that leaves the chain further up is shorter and may still reach higher.  Then the chain
is overtaken again as soon as it has been reorganized.

Where the known blocks have nonces of their own, a chain that is not overtaken is a
longest branch, and the other way round.  So a block leaves the chain overtaken exactly
if one of the side chains that were on offer reaches higher than the one that was taken.
Two side chains can only overtake at once if one of them did so before the block came,
because a block on top of the chain does not look at those that wait.

## Main definitions

* `SideChain.height` — the height of the chain with a side chain in place of its end.
* `Ledger.Overtaken` — some side chain, as they were last computed, overtakes.

## Main results

* `Ledger.length_le_of_overtaking?` — the side chain that is taken has the most blocks.
* `Ledger.not_overtaken_iff_longest` — not to be overtaken is to be longest.
* `Ledger.not_overtaken_addBlock_iff` — **a block leaves the chain overtaken exactly if
  a side chain on offer reaches higher.**
* `Ledger.overtaken_after_reorganization` — this can happen.
-/

namespace GossipLedger

namespace SideChain

/-- The height of the chain with the side chain in place of its end. -/
def height (s : SideChain) : Nat := s.kept + s.blocks.length

/-- To overtake is to reach higher than the chain. -/
theorem overtakes_iff {s : SideChain} {n : Nat} (h : s.kept ≤ n) :
    s.Overtakes n ↔ n < s.height := by
  unfold Overtakes height
  omega

end SideChain

namespace Ledger

variable {l m : Ledger} {difficulty : Nat}

/-- Some side chain, as they were last computed, overtakes the chain. -/
def Overtaken (l : Ledger) : Prop := ∃ s ∈ l.sideChains, s.Overtakes l.chain.length

instance (l : Ledger) : Decidable l.Overtaken :=
  inferInstanceAs (Decidable (∃ s ∈ l.sideChains, s.Overtakes l.chain.length))

/-! ### The side chain that is taken -/

theorem length_le_of_foldl_longerOf {ss : List SideChain} {best : Option SideChain}
    {s : SideChain} (h : ss.foldl longerOf best = some s) :
    ∀ t, best = some t ∨ t ∈ ss → t.blocks.length ≤ s.blocks.length := by
  induction ss generalizing best with
  | nil =>
    intro t ht
    rcases ht with ht | ht
    · obtain rfl := Option.some.inj (ht.symm.trans h)
      exact le_rfl
    · exact absurd ht List.not_mem_nil
  | cons u ss ih =>
    intro t ht
    -- the longer of the best one so far and the first one is no longer than the result
    obtain ⟨v, hv, hbest, hu⟩ : ∃ v, longerOf best u = some v ∧
        (∀ t, best = some t → t.blocks.length ≤ v.blocks.length) ∧
          u.blocks.length ≤ v.blocks.length := by
      cases best with
      | none => exact ⟨u, rfl, by simp, le_rfl⟩
      | some c =>
        by_cases hle : c.blocks.length ≤ u.blocks.length
        · exact ⟨u, if_pos hle, by simpa using hle, le_rfl⟩
        · exact ⟨c, if_neg hle, by simp, by omega⟩
    have hle : v.blocks.length ≤ s.blocks.length := ih h v (Or.inl hv)
    rcases ht with ht | ht
    · exact le_trans (hbest t ht) hle
    · rcases List.mem_cons.1 ht with rfl | ht
      · exact le_trans hu hle
      · exact ih h t (Or.inr ht)

/-- **Of the side chains that overtake one with the most blocks is taken.** -/
theorem length_le_of_overtaking? {s t : SideChain} (h : l.overtaking? = some s)
    (ht : t ∈ l.sideChains) (hover : t.Overtakes l.chain.length) :
    t.blocks.length ≤ s.blocks.length := by
  refine length_le_of_foldl_longerOf h t (Or.inr ?_)
  exact List.mem_filter.2 ⟨ht, decide_eq_true hover⟩

/-- If none is taken, the chain is not overtaken. -/
theorem not_overtaken_of_overtaking? (h : l.overtaking? = none) : ¬l.Overtaken := by
  rintro ⟨s, hs, hover⟩
  exact not_overtakes_of_overtaking? h hs hover

theorem length_reorganize {s : SideChain} (h : s.kept ≤ l.chain.length) :
    (l.reorganize s).1.chain.length = s.height := by
  rw [reorganize_chain, List.length_append, List.length_take, Nat.min_eq_left h]
  rfl

/-! ### Chains that are not overtaken -/

/-- **Not to be overtaken is to be longest**, if the side chains are computed anew and the
known blocks have nonces of their own. -/
theorem not_overtaken_iff_longest (hl : Sound difficulty l) (hS : Identified l.Holds)
    (hfresh : l.sideChains = GossipLedger.sideChains l.chain l.pooled) :
    ¬l.Overtaken ↔ l.Longest := by
  constructor
  · intro hnot bs hbs
    rcases length_le_or_exists_sideChain hl hS hbs with hle | ⟨s, hs, hle⟩
    · exact hle
    · -- the side chain that is as high as the branch does not overtake
      have hkept := (fits_of_mem_sideChains hs).kept_le
      have hlow : ¬s.Overtakes l.chain.length := fun hover => hnot ⟨s, by rw [hfresh]; exact hs, hover⟩
      rw [SideChain.overtakes_iff hkept] at hlow
      unfold SideChain.height at hlow
      omega
  · rintro hlongest ⟨s, hs, hover⟩
    rw [hfresh] at hs
    have hfits := fits_of_mem_sideChains hs
    rw [SideChain.overtakes_iff hfits.kept_le] at hover
    -- with the side chain in place of its end the chain would be a longer branch
    have hle := hlongest _ (SideChain.Fits.branch hl hfits)
    rw [List.length_append, List.length_take, Nat.min_eq_left hfits.kept_le] at hle
    unfold SideChain.height at hover
    omega

/-- A chain is longest if neither it nor a side chain could be higher than it is. -/
theorem longest_of_height_le (hl : Sound difficulty l) (hS : Identified l.Holds) {n : Nat}
    (hn : l.chain.length ≤ n)
    (hall : ∀ s ∈ GossipLedger.sideChains l.chain l.pooled, s.height ≤ n) {bs : List Block}
    (hbs : l.Branch bs) : bs.length ≤ n := by
  rcases length_le_or_exists_sideChain hl hS hbs with hle | ⟨s, hs, hle⟩
  · exact le_trans hle hn
  · exact le_trans hle (hall s hs)

/-! ### Reorganizations -/

/-- **A reorganization leaves the chain overtaken exactly if a side chain on offer reaches
higher than the one that is taken.** -/
theorem not_overtaken_reorganize_iff {s : SideChain} (hl : Sound difficulty l)
    (hS : Identified l.Holds) (hs : s ∈ GossipLedger.sideChains l.chain l.pooled)
    (hover : s.Overtakes l.chain.length) :
    ¬(l.reorganize s).1.Overtaken ↔
      ∀ t ∈ GossipLedger.sideChains l.chain l.pooled, t.height ≤ s.height := by
  have hfits := fits_of_mem_sideChains hs
  have hsame : ∀ c, (l.reorganize s).1.Holds c ↔ l.Holds c := fun c => holds_reorganize hfits hS
  have hheight : (l.reorganize s).1.chain.length = s.height := length_reorganize hfits.kept_le
  rw [not_overtaken_iff_longest (hl.reorganize hfits) (hS.mono fun c => (hsame c).1) rfl]
  constructor
  · intro hlongest t ht
    -- on the old chain the other side chain makes a branch of the blocks that are known
    have ht' := fits_of_mem_sideChains ht
    have hbranch := (SideChain.Fits.branch hl ht').congr fun c => (hsame c).symm
    have hle := hlongest _ hbranch
    rw [hheight, List.length_append, List.length_take, Nat.min_eq_left ht'.kept_le] at hle
    exact hle
  · intro hall bs hbs
    rw [SideChain.overtakes_iff hfits.kept_le] at hover
    rw [hheight]
    exact longest_of_height_le hl hS hover.le hall (hbs.congr hsame)

/-! ### Blocks that are not on top of the chain -/

/-- A block that is not on top of the chain is pooled, and then a side chain takes the
place of the end of the chain if one overtakes. -/
theorem addBlock_unknownParent {b : Block} (mining : Option Block) (hmeets : b.Meets l.difficulty)
    (hkind : l.kindOf b = .unknownParent) :
    (l.park b).overtaking? = none ∧ l.addBlock b mining = (l.park b, .stored) ∨
      ∃ s, (l.park b).overtaking? = some s ∧ l.addBlock b mining = (l.park b).reorganize s := by
  unfold addBlock
  rw [if_neg (not_not.2 hmeets), hkind]
  cases hover : (l.park b).overtaking? with
  | none => exact Or.inl ⟨rfl, by simp⟩
  | some s => exact Or.inr ⟨s, rfl, by simp⟩

/-- A block leaves a longest chain that is not overtaken. -/
theorem not_overtaken_addBlock_of_longest {b : Block} (hl : Sound difficulty l)
    (mining : Option Block) (hmeets : b.Meets difficulty) (hkind : l.kindOf b = .unknownParent)
    (hS : Identified (l.park b).Holds) (hlongest : l.Longest) :
    ¬(l.addBlock b mining).1.Overtaken := by
  have hmeets' : b.Meets l.difficulty := hl.difficulty_eq ▸ hmeets
  rcases addBlock_unknownParent mining hmeets' hkind with ⟨hnone, heq⟩ | ⟨s, hsome, heq⟩
  · rw [heq]
    exact not_overtaken_of_overtaking? hnone
  · rw [heq]
    have hpark := hl.park hmeets'
    have hfits := fits_of_overtaking? hsome
    have hsame : ∀ c, ((l.park b).reorganize s).1.Holds c ↔ (l.park b).Holds c :=
      fun c => holds_reorganize hfits hS
    rw [not_overtaken_iff_longest (hpark.reorganize hfits) (hS.mono fun c => (hsame c).1) rfl]
    intro bs hbs
    exact longest_reorganize hlongest hpark hS hkind hsome (hbs.congr hsame)

/-- **What a block leaves behind that is not on top of the chain.**  Either no side chain
overtakes, or one that does takes the place of the end of the chain, and none that does
has more blocks.  If the known blocks have nonces of their own, then the chain is not
overtaken afterwards exactly if none that was on offer reaches higher than the chain does
now; and so it is if the chain was not overtaken before. -/
theorem not_overtaken_addBlock_iff {b : Block} (hl : Reachable difficulty l)
    (mining : Option Block) (hmeets : b.Meets difficulty) (hkind : l.kindOf b = .unknownParent) :
    ((l.addBlock b mining).1.chain = l.chain ∧ ¬(l.addBlock b mining).1.Overtaken ∨
      ∃ s ∈ (l.park b).sideChains, s.Overtakes l.chain.length ∧
        (l.addBlock b mining).1.chain = l.chain.take s.kept ++ s.blocks ∧
        ∀ t ∈ (l.park b).sideChains, t.Overtakes l.chain.length →
          t.blocks.length ≤ s.blocks.length) ∧
    (Identified (l.park b).Holds →
      (¬(l.addBlock b mining).1.Overtaken ↔
        ∀ t ∈ (l.park b).sideChains, t.height ≤ (l.addBlock b mining).1.chain.length) ∧
      (¬l.rebuildSideChains.Overtaken → ¬(l.addBlock b mining).1.Overtaken)) := by
  have hsound := hl.sound
  have hmeets' : b.Meets l.difficulty := hsound.difficulty_eq ▸ hmeets
  have hlongest : Identified (l.park b).Holds → ¬l.rebuildSideChains.Overtaken → l.Longest := by
    intro hS hnot
    have hknown : ∀ c, l.rebuildSideChains.Holds c → (l.park b).Holds c := by
      intro c hc
      exact hc.imp_right Catalog.mem_add_of_mem
    have hrebuilt : Sound difficulty l.rebuildSideChains := hsound.congr rfl rfl rfl
    exact (not_overtaken_iff_longest hrebuilt (hS.mono hknown) rfl).1 hnot
  refine ⟨?_, fun hS => ⟨?_, fun hnot => ?_⟩⟩
  · rcases addBlock_unknownParent mining hmeets' hkind with ⟨hnone, heq⟩ | ⟨s, hsome, heq⟩
    · left
      rw [heq]
      exact ⟨rfl, not_overtaken_of_overtaking? hnone⟩
    · right
      obtain ⟨hs, hover⟩ := mem_of_overtaking? hsome
      refine ⟨s, hs, hover, ?_, fun t ht hlonger => length_le_of_overtaking? hsome ht hlonger⟩
      rw [heq, reorganize_chain, park_chain]
  · rcases addBlock_unknownParent mining hmeets' hkind with ⟨hnone, heq⟩ | ⟨s, hsome, heq⟩
    · -- nothing overtakes, and nothing on offer reaches higher
      rw [heq]
      refine iff_of_true (not_overtaken_of_overtaking? hnone) fun t ht => ?_
      have hkept : t.kept ≤ (l.park b).chain.length := (fits_of_mem_sideChains ht).kept_le
      have hlow : ¬t.Overtakes (l.park b).chain.length := not_overtakes_of_overtaking? hnone ht
      rw [SideChain.overtakes_iff hkept] at hlow
      exact not_lt.1 hlow
    · obtain ⟨hs, hover⟩ := mem_of_overtaking? hsome
      have hkept : s.kept ≤ (l.park b).chain.length := (fits_of_mem_sideChains hs).kept_le
      rw [heq, length_reorganize hkept]
      exact not_overtaken_reorganize_iff (hsound.park hmeets') hS hs hover
  · exact not_overtaken_addBlock_of_longest hsound mining hmeets hkind hS (hlongest hS hnot)

/-! ### Two side chains that overtake at once -/

/-- Two blocks of the chain, two that wait on top of them, and a branch of its own of which
the first block is missing. -/
def overdue : List Block :=
  [sample 2 3, sample 3 4, sample 5 6, sample 6 7, sample 0 1, sample 1 2]

/-- **A chain can be overtaken right after it was reorganized.**  Two side chains overtake
when the missing block comes.  The one of three blocks from the very beginning is taken,
and the one of two blocks on top of the chain, which reaches to a height of four, is not. -/
theorem overtaken_after_reorganization :
    ((new 0).run (arrivals overdue)).kindOf (sample 0 5) = .unknownParent ∧
      (((new 0).run (arrivals overdue)).addBlock (sample 0 5) none).2 = .reorganized 2 [] ∧
      (((new 0).run (arrivals overdue)).addBlock (sample 0 5) none).1.chain =
        [sample 0 5, sample 5 6, sample 6 7] ∧
      (((new 0).run (arrivals overdue)).park (sample 0 5)).sideChains.map SideChain.height =
        [4, 3] ∧
      (((new 0).run (arrivals overdue)).addBlock (sample 0 5) none).1.Overtaken := by
  refine ⟨by decide +kernel, by decide +kernel, by decide +kernel, by decide +kernel,
    by decide +kernel⟩

/-- A branch of two blocks whose first comes last takes the place of the only block of the
chain, and nothing overtakes it. -/
theorem not_overtaken_after_reorganization :
    ((new 0).run (arrivals [sample 0 1, sample 2 3])).kindOf (sample 0 2) = .unknownParent ∧
      ¬(((new 0).run (arrivals [sample 0 1, sample 2 3])).addBlock (sample 0 2) none).1.Overtaken := by
  have hkind : ((new 0).run (arrivals [sample 0 1, sample 2 3])).kindOf (sample 0 2) =
      .unknownParent := by decide +kernel
  have hdifferent : ∀ a ∈ [sample 0 1, sample 2 3, sample 0 2],
      ∀ b ∈ [sample 0 1, sample 2 3, sample 0 2], a.nonce = b.nonce → a = b := by decide +kernel
  have hknown : Identified fun c => c ∈ [sample 0 1, sample 2 3, sample 0 2] :=
    ⟨by decide +kernel, fun a b ha hb => hdifferent a ha b hb⟩
  have haccepted : (new 0).accepted (arrivals [sample 0 1, sample 2 3]) =
      [sample 0 1, sample 2 3] := by decide +kernel
  refine ⟨hkind, ((not_overtaken_addBlock_iff ⟨_, rfl⟩ none (by decide +kernel) hkind).2
    (hknown.mono fun c hc => ?_)).2 (by decide +kernel)⟩
  rcases holds_of_holds_park hc with hc | rfl
  · have hmem := mem_accepted_of_holds hc
    rw [haccepted] at hmem
    exact List.mem_append_left [sample 0 2] hmem
  · exact List.mem_append_right [sample 0 1, sample 2 3] (List.mem_singleton_self _)

end Ledger
end GossipLedger
