import GossipLedger.Proofs.Ledger.Search
import GossipLedger.Proofs.Ledger.Retention

/-!
# What the side chains cover

A branch of orphans can be attached to the chain if its first block stands on a block of
the chain, or on none.  Such a branch should be among the side chains, or a longer one from
the same first block.

The search starts at the roots, the orphans that stand on no orphan.  A block that stands on
a block of the chain is one, because no orphan has a nonce of the chain.  A block that stands
on none points at zero, and zero is a nonce like any other: as soon as an orphan has it,
every block that stands on none is taken for a block on top of that orphan.  Then none of
them is a root, and what starts with them is hidden.  That is the only way for a branch to
be missed.

## Main definitions

* `Ledger.Attachable` — a branch of orphans that can be attached.
* `Covered` — a side chain starts where a branch starts and is as long.
* `Ledger.Hidden` — an orphan is taken for the predecessor of a block that has none.

## Main results

* `Ledger.Attachable.isRoot_iff` — the first block of a branch is a root unless it is hidden.
* `exists_of_mem_sideChains` — what a side chain is and where it stands.
* `Ledger.covered_iff_not_hidden` — **a branch is covered exactly if it is not hidden.**
* `Ledger.not_covered_beside_zero` — a branch can be hidden.
-/

namespace GossipLedger

/-- Some side chain starts with a given block and has at least a given number of blocks. -/
def Covered (ss : List SideChain) (r : Block) (bs : List Block) : Prop :=
  ∃ s ∈ ss, s.blocks.head? = some r ∧ (r :: bs).length ≤ s.blocks.length

instance (ss : List SideChain) (r : Block) (bs : List Block) : Decidable (Covered ss r bs) :=
  inferInstanceAs (Decidable (∃ s ∈ ss, _ ∧ _))

/-- What a side chain is and where it stands: it fits, and its place is that of the block
that its first block points at, or before the first if that is none. -/
theorem exists_of_mem_sideChains {chain : List Block} {pool : BlockPool} {s : SideChain}
    (h : s ∈ sideChains chain pool) :
    s.Fits chain pool ∧ ∃ r bs, s.blocks = r :: bs ∧ s.parent = position chain r.previous ∧
      (s.parent = none → r.previous = .zero) := by
  obtain ⟨r, -, -, hs⟩ := mem_sideChains.1 h
  obtain ⟨bs, hbs⟩ := exists_longestPath_eq_cons (orphans chain pool) (orphans chain pool).length r
  refine ⟨fits_of_mem_sideChains h, r, bs, ?_⟩
  rw [branchFrom_eq, placeOf] at hs
  cases hplace : position chain r.previous with
  | some i =>
    rw [hplace] at hs
    obtain rfl := Option.some.inj hs
    exact ⟨hbs, rfl, by simp⟩
  | none =>
    rw [hplace] at hs
    by_cases hzero : r.previous.isZero = true
    · simp only [hzero, if_true] at hs
      obtain rfl := Option.some.inj hs
      exact ⟨hbs, rfl, fun _ => Digest.isZero_iff.1 hzero⟩
    · simp [hzero] at hs

namespace Ledger

variable {l : Ledger} {r : Block} {bs : List Block}

/-- A branch of orphans that can be attached to the chain: each block stands on the one
before, the first on a block of the chain or on none. -/
structure Attachable (l : Ledger) (r : Block) (bs : List Block) : Prop where
  linked : LinkedFrom r.previous (r :: bs)
  orphan : ∀ b ∈ r :: bs, b ∈ orphans l.chain l.pooled
  stands : r.previous = .zero ∨ ∃ c ∈ l.chain, c.nonce = r.previous

/-- A block stands on none, and an orphan is taken for its predecessor. -/
def Hidden (l : Ledger) (r : Block) : Prop :=
  r.previous = .zero ∧ ∃ z ∈ orphans l.chain l.pooled, z.nonce = .zero

/-- **The first block of a branch is a root unless it is hidden.** -/
theorem Attachable.isRoot_iff (h : l.Attachable r bs) :
    IsRoot (orphans l.chain l.pooled) r ↔ ¬l.Hidden r := by
  constructor
  · rintro hroot ⟨hzero, z, hz, hnonce⟩
    exact hroot z hz (hnonce.trans hzero.symm)
  · intro hopen o ho heq
    rcases h.stands with hzero | ⟨c, hc, hnonce⟩
    · exact hopen ⟨hzero, o, ho, heq.trans hzero⟩
    · -- no orphan has a nonce of the chain
      exact (mem_orphans.1 ho).2 c hc (hnonce.trans heq.symm)

/-- It is known where a branch that can be attached leaves the chain. -/
theorem Attachable.exists_branchFrom (h : l.Attachable r bs) (os : List Block) :
    ∃ place, branchFrom l.chain os r = some ⟨place, longestPath os os.length r⟩ := by
  rw [branchFrom_eq, placeOf]
  cases hplace : position l.chain r.previous with
  | some i => exact ⟨some i, rfl⟩
  | none =>
    rcases h.stands with hzero | ⟨c, hc, hnonce⟩
    · exact ⟨none, by simp [Digest.isZero_iff.2 hzero]⟩
    · rw [position, List.findIdx?_eq_none_iff] at hplace
      exact absurd hnonce (by simpa using hplace c hc)

/-- A branch from a root is covered. -/
theorem Attachable.covered (h : l.Attachable r bs)
    (hroot : IsRoot (orphans l.chain l.pooled) r) :
    Covered l.rebuildSideChains.sideChains r bs := by
  obtain ⟨place, hplace⟩ := h.exists_branchFrom (orphans l.chain l.pooled)
  refine ⟨_, mem_sideChains.2 ⟨r, h.orphan r List.mem_cons_self, hroot, hplace⟩, ?_, ?_⟩
  · obtain ⟨path, hpath⟩ :=
      exists_longestPath_eq_cons (orphans l.chain l.pooled) (orphans l.chain l.pooled).length r
    simp [hpath]
  · exact length_le_longestPath_of_isRoot (nodup_nonces_orphans _ _) hroot h.linked h.orphan

/-- A side chain starts at a root. -/
theorem isRoot_of_covered (h : Covered l.rebuildSideChains.sideChains r bs) :
    IsRoot (orphans l.chain l.pooled) r := by
  obtain ⟨s, hs, hfirst, -⟩ := h
  obtain ⟨r', path, hblocks, hroot, -⟩ := exists_root_of_mem_sideChains hs
  rw [hblocks, List.head?_cons] at hfirst
  obtain rfl := Option.some.inj hfirst
  exact hroot

/-- **A branch that can be attached is covered exactly if it is not hidden**, whatever the
ledger is like, once the side chains are computed anew.  Every side chain fits, and its
place is that of the block that its first block points at, or before the first if that is
none.  In whatever order the pooled blocks are met, the search comes to an end with these
side chains and no others. -/
theorem covered_iff_not_hidden (l : Ledger) :
    (∀ r bs, l.Attachable r bs →
      (Covered l.rebuildSideChains.sideChains r bs ↔ ¬l.Hidden r)) ∧
    (∀ s ∈ l.rebuildSideChains.sideChains, s.Fits l.chain l.pooled ∧
      ∃ r bs, s.blocks = r :: bs ∧ s.parent = position l.chain r.previous ∧
        (s.parent = none → r.previous = .zero)) ∧
    (∀ blocks, blocks.Perm l.pooled.toList → ∀ ss,
      SearchEnds l.chain blocks ss ↔ ss = l.rebuildSideChains.sideChains) := by
  refine ⟨?_, ?_, ?_⟩
  · intro r bs h
    rw [← h.isRoot_iff]
    constructor
    · intro hcovered
      exact isRoot_of_covered hcovered
    · intro hroot
      exact h.covered hroot
  · intro s hs
    exact exists_of_mem_sideChains hs
  · intro blocks hblocks ss
    exact searchEnds_iff hblocks

/-! ### A branch that is hidden -/

/-- A block of the chain, a block with the nonce zero whose predecessor is not known, and a
second block that stands on none. -/
def besideZero : Ledger := (new 0).run (arrivals [sample 0 1, sample 9 0, sample 0 2])

/-- **A branch can be hidden.**  The second block that stands on none is an orphan, and as a
branch of its own it could be attached.  No side chain starts with it, and that is because of
the block with the nonce zero. -/
theorem not_covered_beside_zero :
    Reachable 0 besideZero ∧ besideZero.Attachable (sample 0 2) [] ∧
      ¬Covered besideZero.rebuildSideChains.sideChains (sample 0 2) [] ∧
      Covered ((new 0).run (arrivals [sample 0 1, sample 0 2])).rebuildSideChains.sideChains
        (sample 0 2) [] := by
  refine ⟨⟨_, rfl⟩, ⟨⟨rfl, trivial⟩, ?_, Or.inl rfl⟩, ?_, ?_⟩
  · decide +kernel
  · decide +kernel
  · decide +kernel

end Ledger
end GossipLedger
