import GossipLedger.Proofs.Ledger.Branches

/-!
# The search for side chains

Pooled blocks lie in no particular order, and the search for a longest path from a block
goes on to each block on top of it, without a limit.  `sideChains` and `longestPath` go
through the pool in the order of the nonces, and give up after as many steps as there are
orphans.  Here the search is described as it goes: the blocks are met in any order, those
on top of the same one are sorted before they are searched, and so are the roots.

The search has at most one result, whichever blocks there are.  It need not have any, as
blocks can stand on each other in a circle.  But from a root it always comes to an end, since
a path from there does not come back to a nonce; and its result is the same for every order
in which the blocks are met, because sorted they are the same list.

## Main definitions

* `childrenOf`, `rootsOf` — blocks on top of a nonce and blocks on top of none, sorted.
* `LeadsTo` — a path from a root leads up to a block.
* `Finds` — the search for a longest path comes to an end with a path.
* `Collects` — the search from one root after the other comes to an end.
* `SearchEnds` — the search for the side chains comes to an end with a list of them.

## Main results

* `Finds.eq` — the search has at most one result.
* `finds_longestPath` — **from a root the search comes to an end.**
* `searchEnds_iff` — **the side chains do not depend on the order of the blocks.**
-/

namespace GossipLedger

open Ledger

/-! ### The search as it goes -/

/-- The blocks on top of a nonce, in the order of their own. -/
def childrenOf (os : List Block) (n : Digest) : List Block :=
  Catalog.sortByKey Block.nonce (os.filter fun c => c.previous = n)

/-- The blocks on top of none of the others, in the order of their nonces. -/
def rootsOf (os : List Block) : List Block :=
  Catalog.sortByKey Block.nonce (os.filter fun b => !os.any fun o => o.nonce = b.previous)

/-- The search for a longest path from a block comes to an end with a path: so it does from
every block on top of it, and the first of the longest paths found there is continued. -/
inductive Finds (os : List Block) : Block → List Block → Prop
  | step {b : Block} (path : Block → List Block) :
      (∀ c ∈ childrenOf os b.nonce, Finds os c (path c)) →
      Finds os b (b :: firstLongest ((childrenOf os b.nonce).map path))

/-- Where a branch with a given first block leaves the chain, if that is known: above a
block, or before the first. -/
def placeOf (chain : List Block) (r : Block) : Option (Option Nat) :=
  match position chain r.previous with
  | some i => some (some i)
  | none => if r.previous.isZero then some none else none

/-- The search from one root after the other comes to an end.  A root whose predecessor is
not known is passed over. -/
inductive Collects (chain os : List Block) : List Block → List SideChain → Prop
  | nil : Collects chain os [] []
  | skip {r : Block} {rs : List Block} {ss : List SideChain} :
      placeOf chain r = none → Collects chain os rs ss → Collects chain os (r :: rs) ss
  | found {r : Block} {rs path : List Block} {ss : List SideChain} {place : Option Nat} :
      placeOf chain r = some place → Finds os r path → Collects chain os rs ss →
      Collects chain os (r :: rs) (⟨place, path⟩ :: ss)

/-- The orphans among blocks that are met in some order. -/
def orphansAmong (chain blocks : List Block) : List Block :=
  blocks.filter fun b => !onChain chain b.nonce

/-- The search for the side chains, among blocks that are met in some order, comes to an end
with a list of them. -/
def SearchEnds (chain blocks : List Block) (ss : List SideChain) : Prop :=
  Collects chain (orphansAmong chain blocks) (rootsOf (orphansAmong chain blocks)) ss

/-! ### At most one result -/

/-- **The search for a longest path has at most one result.** -/
theorem Finds.eq {os path path' : List Block} {b : Block} (h : Finds os b path)
    (h' : Finds os b path') : path = path' := by
  induction h generalizing path' with
  | step f _ ih =>
    cases h' with
    | step f' hf' =>
      -- the paths from the blocks on top are the same, so the first longest is
      have hsame : ∀ c ∈ childrenOf os _, f c = f' c := fun c hc => ih c hc (hf' c hc)
      rw [List.map_congr_left hsame]

theorem Collects.eq {chain os rs : List Block} {ss ss' : List SideChain}
    (h : Collects chain os rs ss) (h' : Collects chain os rs ss') : ss = ss' := by
  induction h generalizing ss' with
  | nil => cases h'; rfl
  | skip hplace _ ih =>
    cases h' with
    | skip _ hrest => exact ih hrest
    | found hplace' => simp [hplace] at hplace'
  | found hplace hfinds _ ih =>
    cases h' with
    | skip hplace' => simp [hplace] at hplace'
    | found hplace' hfinds' hrest =>
      obtain rfl := Option.some.inj (hplace.symm.trans hplace')
      rw [hfinds.eq hfinds', ih hrest]

/-! ### Paths from a root -/

/-- A path of orphans, which stands on what a root stands on, leads up to a block. -/
structure LeadsTo (os : List Block) (r : Block) (below : List Block) (b : Block) : Prop where
  linked : LinkedFrom r.previous (below ++ [b])
  orphan : ∀ x ∈ below ++ [b], x ∈ os

/-- A path goes on to each block on top. -/
theorem LeadsTo.step {os below : List Block} {r b c : Block} (h : LeadsTo os r below b)
    (hc : c ∈ os.filter fun c => c.previous = b.nonce) : LeadsTo os r (below ++ [b]) c := by
  obtain ⟨hmem, hprev⟩ := List.mem_filter.1 hc
  refine ⟨linkedFrom_concat.2 ⟨h.linked, ?_⟩, ?_⟩
  · rw [tipAfter_concat]
    exact of_decide_eq_true hprev
  · intro x hx
    rcases List.mem_append.1 hx with hx | hx
    · exact h.orphan x hx
    · rw [List.mem_singleton.1 hx]
      exact hmem

/-- A root leads up to itself. -/
theorem leadsTo_root {os : List Block} {r : Block} (hmem : r ∈ os) : LeadsTo os r [] r :=
  ⟨⟨rfl, trivial⟩, fun x hx => by rw [List.mem_singleton.1 hx]; exact hmem⟩

/-- A path from a root meets no orphan twice, so however it goes on, it has no more blocks
than there are orphans. -/
theorem LeadsTo.length_add_le {os below bs : List Block} {r b : Block}
    (h : LeadsTo os r below b) (hos : (os.map Block.nonce).Nodup) (hr : IsRoot os r)
    (hlinked : LinkedFrom b.previous bs) (hsub : ∀ x ∈ bs, x ∈ os) :
    below.length + bs.length ≤ os.length := by
  obtain ⟨hbelow, hprev⟩ := linkedFrom_concat.1 h.linked
  have hlinked : LinkedFrom r.previous (below ++ bs) :=
    linkedFrom_append.2 ⟨hbelow, hprev ▸ hlinked⟩
  have hsub : ∀ x ∈ below ++ bs, x ∈ os := by
    intro x hx
    rcases List.mem_append.1 hx with hx | hx
    · exact h.orphan x (List.mem_append_left _ hx)
    · exact hsub x hx
  have hnodup := (nodup_nonces_of_isRoot hos hr hlinked hsub).of_map
  rw [← List.length_append]
  exact (List.subperm_of_subset hnodup hsub).length_le

theorem LeadsTo.length_lt {os below : List Block} {r b : Block} (h : LeadsTo os r below b)
    (hos : (os.map Block.nonce).Nodup) (hr : IsRoot os r) : below.length < os.length := by
  have hlinked : LinkedFrom b.previous [b] := ⟨rfl, trivial⟩
  exact h.length_add_le hos hr hlinked fun x hx => h.orphan x (List.mem_append_right below hx)

theorem nodup_nonces_of_sorted {os : List Block} (hos : os.Pairwise fun a b => a.nonce < b.nonce) :
    (os.map Block.nonce).Nodup := Catalog.nodup_keys (⟨os, hos⟩ : BlockPool)

/-! ### The search comes to an end -/

section Listing

variable {os listed : List Block} (hos : os.Pairwise fun a b => a.nonce < b.nonce)
  (hlisted : listed.Perm os)

include hos hlisted

/-- Sorted, the blocks on top of a nonce are the same in whatever order they are met. -/
theorem childrenOf_eq (n : Digest) :
    childrenOf listed n = os.filter fun c => c.previous = n :=
  Catalog.sortByKey_eq (hlisted.filter _) (hos.filter _)

/-- Sorted, the roots are the same in whatever order the blocks are met. -/
theorem rootsOf_eq :
    rootsOf listed = os.filter fun b => !os.any fun o => o.nonce = b.previous := by
  have hsame : ∀ b : Block, (listed.any fun o => o.nonce = b.previous) =
      os.any fun o => o.nonce = b.previous := fun b => hlisted.any_eq
  simp only [rootsOf, hsame]
  exact Catalog.sortByKey_eq (hlisted.filter _) (hos.filter _)

/-- The search from a block comes to an end if it does from every orphan on top. -/
theorem finds_step {b : Block} (path : Block → List Block)
    (h : ∀ c ∈ os.filter (fun c => c.previous = b.nonce), Finds listed c (path c)) :
    Finds listed b (b :: firstLongest ((os.filter fun c => c.previous = b.nonce).map path)) := by
  rw [← childrenOf_eq hos hlisted] at h ⊢
  exact .step path h

/-- The search from a block that a path from a root leads to comes to an end, within as
many steps as there are orphans that the path does not meet. -/
theorem finds_of_leadsTo {r b : Block} {below : List Block} {n : Nat} (hr : IsRoot os r)
    (hpath : LeadsTo os r below b) (hfuel : os.length ≤ below.length + 1 + n) :
    Finds listed b (longestPath os n b) := by
  have hnodup := nodup_nonces_of_sorted hos
  induction n generalizing below b with
  | zero =>
    -- the path has met all orphans, so there is none to go on to
    have hnone : (os.filter fun c => c.previous = b.nonce) = [] := by
      refine List.eq_nil_iff_forall_not_mem.2 fun c hc => ?_
      have hlt := (hpath.step hc).length_lt hnodup hr
      rw [List.length_append, List.length_singleton] at hlt
      omega
    have hstep := finds_step hos hlisted (b := b) (longestPath os 0)
    rw [hnone] at hstep
    exact hstep fun c hc => absurd hc List.not_mem_nil
  | succ n ih =>
    refine finds_step hos hlisted (longestPath os n) fun c hc => ih (hpath.step hc) ?_
    rw [List.length_append, List.length_singleton]
    omega

/-- **From a root the search comes to an end**, and finds what it finds in the order of the
nonces with as many steps as there are orphans. -/
theorem finds_longestPath {r : Block} (hr : IsRoot os r) (hmem : r ∈ os) :
    Finds listed r (longestPath os os.length r) :=
  finds_of_leadsTo hos hlisted hr (leadsTo_root hmem) (Nat.le_add_left _ _)

end Listing

/-! ### The side chains -/

theorem branchFrom_eq (chain os : List Block) (r : Block) :
    branchFrom chain os r =
      (placeOf chain r).map fun place => ⟨place, longestPath os os.length r⟩ := by
  unfold branchFrom placeOf
  cases position chain r.previous with
  | some i => rfl
  | none =>
    by_cases hzero : r.previous.isZero = true
    · simp [hzero]
    · simp [hzero]

/-- The search from one root after the other comes to an end if it does from each. -/
theorem collects_filterMap {chain os listed rs : List Block}
    (h : ∀ r ∈ rs, Finds listed r (longestPath os os.length r)) :
    Collects chain listed rs (rs.filterMap (branchFrom chain os)) := by
  induction rs with
  | nil => exact .nil
  | cons r rs ih =>
    have hrest := ih fun x hx => h x (List.mem_cons_of_mem _ hx)
    rw [List.filterMap_cons, branchFrom_eq]
    cases hplace : placeOf chain r with
    | none => exact .skip hplace hrest
    | some place => exact .found hplace (h r List.mem_cons_self) hrest

/-- **The side chains do not depend on the order of the blocks**: in whatever order those of
a pool are met, the search comes to an end, and with the same side chains. -/
theorem searchEnds_iff {chain blocks : List Block} {pool : BlockPool}
    (h : blocks.Perm pool.toList) {ss : List SideChain} :
    SearchEnds chain blocks ss ↔ ss = sideChains chain pool := by
  have hos : (orphans chain pool).Pairwise fun a b => a.nonce < b.nonce := pool.sorted.filter _
  have hlisted : (orphansAmong chain blocks).Perm (orphans chain pool) := h.filter _
  have hends : SearchEnds chain blocks (sideChains chain pool) := by
    unfold SearchEnds sideChains
    rw [rootsOf_eq hos hlisted]
    refine collects_filterMap fun r hr => ?_
    obtain ⟨hmem, hroot⟩ := List.mem_filter.1 hr
    refine finds_longestPath hos hlisted ?_ hmem
    simpa [IsRoot] using hroot
  constructor
  · intro hss
    exact hss.eq hends
  · rintro rfl
    exact hends

end GossipLedger
