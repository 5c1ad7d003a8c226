import GossipLedger.Proofs.Ledger.Longest

/-!
# Blocks that come to a longest chain

Where blocks are known by their nonces, a block that comes to a longest chain leaves
it leading.  A branch follows the chain for a while and then consists of orphans, the
first of which is a root; so it is no longer than the side chain of that root.  A
branch that is longer than the chain contains the new block, whose ancestors are
determined; so all such branches have one root, and the side chain that replaces the
end of the chain is a longest.

## Main results

* `Ledger.exists_take_append` — a branch leaves the chain once and for all.
* `Ledger.longest_of_overtaking?_eq_none`, `Ledger.longest_reorganize` — a parked
  block leaves a longest chain, whether a side chain overtakes or not.
* `Ledger.Arrival.leads` — **a block that comes to a longest chain leaves it leading.**
* `Ledger.Arrival.holds_iff` — no block is lost, and only accepted ones are added.
-/

namespace GossipLedger
namespace Ledger

variable {l m : Ledger}

/-! ### Where a branch leaves the chain -/

/-- **A branch leaves the chain once and for all**: below some place it is the chain,
and above it none of its blocks is on the chain. -/
theorem exists_take_append {S : Block → Prop} (hS : Identified S) {chain bs : List Block}
    (hchain : LinkedFrom .zero chain) (hchainS : ∀ c ∈ chain, S c) (hbs : LinkedFrom .zero bs)
    (hbsS : ∀ b ∈ bs, S b) :
    ∃ k ≤ chain.length, ∃ rest, bs = chain.take k ++ rest ∧ ∀ b ∈ rest, b ∉ chain := by
  induction bs using List.reverseRecOn with
  | nil => exact ⟨0, Nat.zero_le _, [], rfl, fun b hb => absurd hb List.not_mem_nil⟩
  | append_singleton bs b ih =>
    have hbsS' : ∀ x ∈ bs, S x := fun x hx => hbsS x (List.mem_append_left _ hx)
    by_cases hb : b ∈ chain
    · -- everything below a block of the chain is the chain
      obtain ⟨as, ds, rfl⟩ := List.append_of_mem hb
      have hbelow : bs = as :=
        eq_of_common_block hS hbs hchain hbsS' fun x hx => hchainS x (List.mem_append_left _ hx)
      subst hbelow
      refine ⟨bs.length + 1, ?_, [], ?_, fun x hx => absurd hx List.not_mem_nil⟩
      · rw [List.length_append, List.length_cons]
        omega
      · have hsplit : bs ++ b :: ds = (bs ++ [b]) ++ ds := List.append_cons bs b ds
        have hlength : (bs ++ [b]).length = bs.length + 1 := List.length_append ..
        rw [hsplit, List.append_nil, List.take_left' hlength]
    · obtain ⟨k, hk, rest, rfl, hrest⟩ := ih (linkedFrom_append.1 hbs).1 hbsS'
      refine ⟨k, hk, rest ++ [b], List.append_assoc _ _ _, fun x hx => ?_⟩
      rcases List.mem_append.1 hx with hx | hx
      · exact hrest x hx
      · rw [List.mem_singleton.1 hx]
        exact hb

/-- A known block that is not on the chain is an orphan. -/
theorem mem_orphans_of_holds (hS : Identified l.Holds) {b : Block} (hb : l.Holds b)
    (hchain : b ∉ l.chain) : b ∈ orphans l.chain l.pooled := by
  refine mem_orphans.2 ⟨hb.resolve_left hchain, fun c hc heq => hchain ?_⟩
  rw [← hS.eq_of_nonce_eq c b (Or.inl hc) hb heq]
  exact hc

/-- An orphan on top of a beginning of the chain is a root. -/
theorem isRoot_of_previous_eq (hS : Identified l.Holds) {k : Nat} {r : Block}
    (hr : r.previous = tipAfter .zero (l.chain.take k)) : IsRoot (orphans l.chain l.pooled) r := by
  intro o ho heq
  obtain ⟨hpooled, hnew⟩ := mem_orphans.1 ho
  rw [hr] at heq
  -- the block below is none at all or one of the chain, and an orphan is neither
  by_cases hnil : l.chain.take k = []
  · rw [hnil, tipAfter_nil] at heq
    exact hS.nonce_ne_zero o (Or.inr hpooled) heq
  · obtain ⟨c, hc, hcn⟩ := exists_nonce_eq_tipAfter .zero hnil
    exact hnew c (List.mem_of_mem_take hc) (hcn.trans heq.symm)

/-- **A branch is no longer than the chain or a side chain with what is below it.** -/
theorem length_le_or_exists_sideChain {difficulty : Nat} (hl : Sound difficulty l)
    (hS : Identified l.Holds) {bs : List Block} (hbs : l.Branch bs) :
    bs.length ≤ l.chain.length ∨
      ∃ s ∈ GossipLedger.sideChains l.chain l.pooled, bs.length ≤ s.kept + s.blocks.length := by
  obtain ⟨k, hk, rest, rfl, hrest⟩ :=
    exists_take_append hS hl.linked (fun c hc => Or.inl hc) hbs.linked hbs.mem
  cases rest with
  | nil =>
    left
    rw [List.append_nil]
    exact List.length_take_le' k l.chain
  | cons r rest =>
    right
    have horphan : ∀ c ∈ r :: rest, c ∈ orphans l.chain l.pooled := fun c hc =>
      mem_orphans_of_holds hS (hbs.mem c (List.mem_append_right _ hc)) (hrest c hc)
    have hlinked := (linkedFrom_append.1 hbs.linked).2
    have hroot := isRoot_of_previous_eq hS hlinked.1
    -- the first block above the chain is a root, and its side chain is long enough
    obtain ⟨s, hs, hkept, hblocks⟩ := exists_mem_sideChains hl.nodup
      (fun c hc => hS.nonce_ne_zero c (Or.inl hc)) hk (horphan r List.mem_cons_self) hroot hlinked.1
    refine ⟨s, hs, ?_⟩
    have hle := length_le_longestPath_of_isRoot (nodup_nonces_orphans l.chain l.pooled) hroot
      ⟨rfl, hlinked.2⟩ horphan
    rw [hkept, hblocks, List.length_append, List.length_take]
    omega

/-! ### Parked blocks -/

theorem holds_park {b c : Block} (hfree : l.pooled.contains b.nonce = false) :
    (l.park b).Holds c ↔ l.Holds c ∨ c = b := by
  unfold Holds
  rw [park_chain, park_pooled, Catalog.mem_add, or_assoc]
  simp [hfree]

/-- If no side chain overtakes, the chain is a longest branch. -/
theorem longest_of_overtaking?_eq_none {difficulty : Nat} {b : Block}
    (hl : Sound difficulty (l.park b)) (hS : Identified (l.park b).Holds)
    (hover : (l.park b).overtaking? = none) : (l.park b).Longest := by
  intro bs hbs
  rcases length_le_or_exists_sideChain hl hS hbs with hle | ⟨s, hs, hle⟩
  · exact hle
  · have hnot : ¬s.Overtakes (l.park b).chain.length := not_overtakes_of_overtaking? hover hs
    have hkept := (fits_of_mem_sideChains hs).kept_le
    unfold SideChain.Overtakes at hnot
    omega

/-- The chain with a side chain in place of its end is a branch. -/
theorem SideChain.Fits.branch {difficulty : Nat} {s : SideChain} (hl : Sound difficulty l)
    (hfits : s.Fits l.chain l.pooled) : l.Branch (l.chain.take s.kept ++ s.blocks) where
  linked := linkedFrom_append.2 ⟨hl.linked.take s.kept, hfits.linked⟩
  nodup := by
    have hsound := (hl.reorganize hfits).nodup
    rw [reorganize_chain] at hsound
    exact hsound
  mem b hb := by
    rcases List.mem_append.1 hb with hb | hb
    · exact Or.inl (List.mem_of_mem_take hb)
    · exact Or.inr (mem_orphans.1 (hfits.orphan b hb)).1

/-- A branch that is longer than a chain which was longest before contains the block
that was parked. -/
theorem Longest.mem_of_park {b : Block} (h : l.Longest)
    (hfree : l.pooled.contains b.nonce = false) {bs : List Block} (hbs : (l.park b).Branch bs)
    (hlong : l.chain.length < bs.length) : b ∈ bs := by
  by_contra hb
  have hold : l.Branch bs := by
    refine ⟨hbs.linked, hbs.nodup, fun c hc => ?_⟩
    rcases (holds_park hfree).1 (hbs.mem c hc) with hc' | rfl
    · exact hc'
    · exact absurd hc hb
  have hle := h bs hold
  omega

/-- Blocks of a branch above one that is not on the chain are not on it either. -/
theorem not_mem_chain_of_above {difficulty : Nat} (hl : Sound difficulty l)
    (hS : Identified l.Holds) {as bs : List Block} {b c : Block}
    (hbs : l.Branch (as ++ b :: bs)) (hb : b ∉ l.chain) (hc : c ∈ bs) : c ∉ l.chain := by
  intro hchain
  obtain ⟨cs, ds, rfl⟩ := List.append_of_mem hc
  obtain ⟨es, fs, heq⟩ := List.append_of_mem hchain
  have hlinked := hl.linked
  unfold Linked at hlinked
  rw [heq] at hlinked
  have hbranch := hbs.linked
  rw [← List.cons_append, ← List.append_assoc] at hbranch
  -- all that is below `c` on the branch is on the chain, also `b`
  have hbelow : as ++ b :: cs = es := by
    refine eq_of_common_block hS hbranch hlinked (fun x hx => hbs.mem x ?_) fun x hx => Or.inl ?_
    · rw [← List.cons_append, ← List.append_assoc]
      exact List.mem_append_left _ hx
    · rw [heq]
      exact List.mem_append_left _ hx
  refine hb ?_
  rw [heq, ← hbelow]
  simp

/-! ### Side chains in place of the end of the chain -/

/-- A reorganization loses no block and adds none. -/
theorem holds_reorganize {s : SideChain} (hfits : s.Fits l.chain l.pooled)
    (hS : Identified l.Holds) {c : Block} : (l.reorganize s).1.Holds c ↔ l.Holds c := by
  constructor
  · intro hc
    exact holds_of_holds_reorganize hfits hc
  · rintro (hc | hc)
    · rw [← List.take_append_drop s.kept l.chain] at hc
      rcases List.mem_append.1 hc with hc | hc
      · refine Or.inl ?_
        rw [reorganize_chain]
        exact List.mem_append_left _ hc
      · -- a dropped block is pooled, unless its nonce is, and then it is too
        have hkey : (l.reorganize s).1.pooled.contains c.nonce = true := by
          rw [reorganize_pooled]
          exact Catalog.contains_foldl_add.2 (Or.inr ⟨c, hc, rfl⟩)
        obtain ⟨d, hd, heq⟩ := Catalog.contains_iff.1 hkey
        have hknown : l.Holds d := holds_of_holds_reorganize hfits (Or.inr hd)
        rw [← hS.eq_of_nonce_eq d c hknown (Or.inl (List.mem_of_mem_drop hc)) heq]
        exact Or.inr hd
    · refine Or.inr ?_
      rw [reorganize_pooled]
      exact Catalog.mem_foldl_add_of_mem hc

/-- **A branch that meets a side chain is no longer than it with what is below it**:
it leaves the chain at the same root. -/
theorem length_le_of_mem_sideChain {difficulty : Nat} (hl : Sound difficulty l)
    (hS : Identified l.Holds) {s : SideChain} (hs : s ∈ GossipLedger.sideChains l.chain l.pooled)
    {b : Block} (hb : b ∈ s.blocks) {bs : List Block} (hbs : l.Branch bs) (hmem : b ∈ bs) :
    bs.length ≤ s.kept + s.blocks.length := by
  have hfits := fits_of_mem_sideChains hs
  have hbchain : b ∉ l.chain := fun hc => (mem_orphans.1 (hfits.orphan b hb)).2 b hc rfl
  obtain ⟨below, above, rfl⟩ := List.append_of_mem hmem
  obtain ⟨as, cs, has⟩ := List.append_of_mem hb
  -- below the block where they meet both are the same
  have hspliced := SideChain.Fits.branch hl hfits
  rw [has, ← List.append_assoc] at hspliced
  obtain rfl : below = l.chain.take s.kept ++ as :=
    eq_of_common_block hS hbs.linked hspliced.linked
      (fun x hx => hbs.mem x (List.mem_append_left _ hx))
      fun x hx => hspliced.mem x (List.mem_append_left _ hx)
  have horphan : ∀ c ∈ as ++ b :: above, c ∈ orphans l.chain l.pooled := by
    intro c hc
    rcases List.mem_append.1 hc with hc | hc
    · exact hfits.orphan c (by rw [has]; exact List.mem_append_left _ hc)
    · rcases List.mem_cons.1 hc with rfl | hc'
      · exact hfits.orphan c hb
      · refine mem_orphans_of_holds hS (hbs.mem c (List.mem_append_right _ hc)) ?_
        exact not_mem_chain_of_above hl hS hbs hbchain hc'
  -- so above the chain the branch is a path of orphans from the root of the side chain
  obtain ⟨r, path, hpath, hroot, hblocks⟩ := exists_root_of_mem_sideChains hs
  obtain ⟨rest, hrest⟩ : ∃ rest, as ++ b :: above = r :: rest := by
    rw [has] at hpath
    cases as with
    | nil => exact ⟨above, by rw [List.nil_append, (List.cons.inj hpath).1]⟩
    | cons a as => exact ⟨as ++ b :: above, by rw [List.cons_append, (List.cons.inj hpath).1]⟩
  have hlinked := hbs.linked
  rw [List.append_assoc, hrest] at hlinked
  rw [hrest] at horphan
  have hle := length_le_longestPath_of_isRoot (nodup_nonces_orphans _ _) hroot
    ⟨rfl, (linkedFrom_append.1 hlinked).2.2⟩ horphan
  rw [List.append_assoc, hrest, List.length_append, List.length_take, hblocks]
  exact Nat.add_le_add (Nat.min_le_left _ _) hle

/-- **If a side chain overtakes, it becomes part of a longest branch.** -/
theorem longest_reorganize {difficulty : Nat} {b : Block} {s : SideChain} (h : l.Longest)
    (hl : Sound difficulty (l.park b)) (hS : Identified (l.park b).Holds)
    (hkind : l.kindOf b = .unknownParent) (hover : (l.park b).overtaking? = some s)
    {bs : List Block} (hbs : (l.park b).Branch bs) :
    bs.length ≤ ((l.park b).reorganize s).1.chain.length := by
  obtain ⟨hnew, -, hfree⟩ := kindOf_eq_unknownParent.1 hkind
  obtain ⟨hs, hovertakes⟩ := mem_of_overtaking? hover
  have hfits := fits_of_overtaking? hover
  have hkept : s.kept ≤ l.chain.length := hfits.kept_le
  have hheight : ((l.park b).chain.take s.kept ++ s.blocks).length = s.kept + s.blocks.length := by
    rw [List.length_append, List.length_take, park_chain]
    omega
  have hgain : l.chain.length < s.kept + s.blocks.length := by
    have : l.chain.length - s.kept < s.blocks.length := hovertakes
    omega
  rw [reorganize_chain, hheight]
  by_cases hlong : bs.length ≤ l.chain.length
  · omega
  · -- the branch is longer than the chain was, and so is the side chain: both
    -- contain the new block
    have hb : b ∈ s.blocks := by
      have hspliced := SideChain.Fits.branch hl hfits
      rcases List.mem_append.1 (h.mem_of_park hfree hspliced (by rw [hheight]; exact hgain))
        with hb | hb
      · exact absurd rfl (hnew b (List.mem_of_mem_take hb))
      · exact hb
    exact length_le_of_mem_sideChain hl hS hs hb hbs (h.mem_of_park hfree hbs (by omega))

/-! ### Blocks on top of the chain -/

/-- A block on top of a longest chain leaves it leading: a branch that is longer than
the chain was contains the block, and below it is the chain. -/
theorem leads_extend {difficulty : Nat} {b : Block} {mining : Option Block}
    (hl : Sound difficulty l) (h : l.Longest) (hS : Identified fun x => l.Holds x ∨ x = b)
    (hprev : b.previous = l.headHash)
    (hm : Sound difficulty ((l.preempt b mining).1.extend b)) :
    ((l.preempt b mining).1.extend b).Leads := by
  have hchain : ((l.preempt b mining).1.extend b).chain = l.chain ++ [b] := by
    rw [extend_chain, preempt_chain]
  intro bs hbs
  by_cases hb : b ∈ bs
  · -- below the block the branch is the chain, so above it it continues the new one
    obtain ⟨below, above, rfl⟩ := List.append_of_mem hb
    have hnew : LinkedFrom .zero (l.chain ++ b :: []) :=
      linkedFrom_concat.2 ⟨hl.linked, hprev.trans l.headHash_eq⟩
    obtain rfl : below = l.chain :=
      eq_of_common_block hS hbs.linked hnew
        (fun x hx => holds_extend.1 (hbs.mem x (List.mem_append_left _ hx)))
        fun x hx => Or.inl (Or.inl hx)
    have hcons : ((l.preempt b mining).1.extend b).chain ++ above = l.chain ++ b :: above := by
      rw [hchain, List.append_assoc, List.singleton_append]
    refine ⟨above, ?_, ?_⟩
    · rw [hcons]
      exact hbs
    · rw [hcons]
  · -- a branch without the block was a branch before
    have hold : l.Branch bs := by
      refine ⟨hbs.linked, hbs.nodup, fun c hc => ?_⟩
      rcases holds_extend.1 (hbs.mem c hc) with hc' | rfl
      · exact hc'
      · exact absurd hc hb
    have hle := h bs hold
    refine ⟨[], ?_, ?_⟩
    · rw [List.append_nil]
      exact hm.branch
    · rw [List.append_nil, hchain, List.length_append]
      omega

/-! ### What becomes of a block -/

/-- **No block is lost**, and the only one that is added is the one that came, if it
was accepted. -/
theorem Arrival.holds_iff {b c : Block} {mining : Option Block} {o : BlockOutcome}
    (harrival : Arrival l b mining m o)
    (hS : Identified fun x => l.Holds x ∨ o.isAccepted = true ∧ x = b) :
    m.Holds c ↔ l.Holds c ∨ o.isAccepted = true ∧ c = b := by
  cases harrival with
  | invalid => simp [BlockOutcome.isAccepted]
  | ignored => simp [BlockOutcome.isAccepted]
  | extended =>
    simp only [BlockOutcome.isAccepted, true_and]
    exact holds_extend
  | reorganized _ hkind hover =>
    obtain ⟨-, -, hfree⟩ := kindOf_eq_unknownParent.1 hkind
    obtain ⟨requeued, ho⟩ := (l.park b).reorganize_outcome (s := _)
    rw [ho]
    simp only [BlockOutcome.isAccepted, true_and]
    rw [← holds_park hfree]
    refine holds_reorganize (fits_of_overtaking? hover) (hS.mono fun x hx => ?_)
    rcases (holds_park hfree).1 hx with hx | rfl
    · exact Or.inl hx
    · exact Or.inr ⟨by rw [ho]; rfl, rfl⟩
  | stored _ hkind =>
    obtain ⟨-, -, hfree⟩ := kindOf_eq_unknownParent.1 hkind
    simp only [BlockOutcome.isAccepted, true_and]
    exact holds_park hfree

/-- A block that does not move the head leaves nothing to connect, if nothing was left
before. -/
theorem Arrival.extensions_eq_nil {b : Block} {mining : Option Block} {o : BlockOutcome}
    (harrival : Arrival l b mining m o) (hstays : o.movedHead = false)
    (hrest : l.extensions = []) : m.extensions = [] := by
  cases harrival with
  | invalid => exact hrest
  | ignored => exact hrest
  | extended => exact absurd hstays (by simp [BlockOutcome.movedHead])
  | reorganized =>
    obtain ⟨requeued, ho⟩ := (l.park b).reorganize_outcome (s := _)
    rw [ho] at hstays
    exact absurd hstays (by simp [BlockOutcome.movedHead])
  | stored _ hkind =>
    obtain ⟨-, hprev, -⟩ := kindOf_eq_unknownParent.1 hkind
    refine List.eq_nil_iff_forall_not_mem.2 fun c hc => ?_
    obtain ⟨hpooled, htop, hnew⟩ := mem_extensions.1 hc
    rcases Catalog.mem_of_mem_add hpooled with hold | rfl
    · have hext : c ∈ l.extensions := mem_extensions.2 ⟨hold, htop, hnew⟩
      rw [hrest] at hext
      exact List.not_mem_nil hext
    · exact hprev htop

/-- **A block that comes to a longest chain leaves it leading**, if blocks are known by
their nonces. -/
theorem Arrival.leads {difficulty : Nat} {b : Block} {mining : Option Block} {o : BlockOutcome}
    (harrival : Arrival l b mining m o) (hl : Sound difficulty l) (h : l.Longest)
    (hS : Identified fun x => l.Holds x ∨ o.isAccepted = true ∧ x = b) : m.Leads := by
  have hm := harrival.sound hl
  have hS' : o.isAccepted = true → Identified fun x => l.Holds x ∨ x = b := by
    intro ho
    exact hS.mono fun x hx => hx.imp_right fun h => ⟨ho, h⟩
  cases harrival with
  | invalid => exact h.leads hl
  | ignored => exact h.leads hl
  | extended _ _ hprev => exact leads_extend hl h (hS' rfl) hprev hm
  | reorganized hmeets hkind hover =>
    obtain ⟨-, -, hfree⟩ := kindOf_eq_unknownParent.1 hkind
    obtain ⟨requeued, ho⟩ := (l.park b).reorganize_outcome (s := _)
    have hpark : Identified (l.park b).Holds :=
      (hS' (by rw [ho]; rfl)).mono fun x hx => (holds_park hfree).1 hx
    refine Longest.leads (fun bs hbs => ?_) hm
    exact longest_reorganize h (hl.park hmeets) hpark hkind hover
      (hbs.congr fun c => holds_reorganize (fits_of_overtaking? hover) hpark)
  | stored _ hkind hover =>
    obtain ⟨-, -, hfree⟩ := kindOf_eq_unknownParent.1 hkind
    have hpark : Identified (l.park b).Holds :=
      (hS' rfl).mono fun x hx => (holds_park hfree).1 hx
    exact (longest_of_overtaking?_eq_none hm hpark hover).leads hm

end Ledger
end GossipLedger
