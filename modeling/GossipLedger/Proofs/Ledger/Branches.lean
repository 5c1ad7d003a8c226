import GossipLedger.Proofs.Catalog
import GossipLedger.Proofs.Ledger.Linked
import Mathlib.Data.List.Perm.Subperm
import Mathlib.Data.Nat.Basic

/-!
# Branches of orphans

The side chains as they are computed: each starts at a root, an orphan that stands
on no other orphan, and follows a longest path upwards.  The search for that path is
cut off after as many steps as there are orphans.  That is enough: a path from a root
does not come back to a nonce, so it has no more blocks than there are orphans.

## Main definitions

* `IsRoot` — a block that stands on no orphan.
* `SideChain.Fits` — a branch of orphans that stands on the chain where it says.

## Main results

* `length_le_longestPath_of_isRoot` — **no path from a root is longer.**
* `fits_of_mem_sideChains` — every computed side chain fits.
* `exists_mem_sideChains` — every root on the chain has its side chain.
-/

namespace GossipLedger

open Ledger

theorem Digest.isZero_iff {d : Digest} : d.isZero = true ↔ d = .zero := by
  unfold isZero
  rw [List.all_eq_true]
  constructor
  · intro h
    have hd : d.bytes = List.replicate 32 0 :=
      List.eq_replicate_iff.2 ⟨d.length_bytes, fun x hx => by simpa using h x hx⟩
    cases d
    simp only at hd
    subst hd
    rfl
  · rintro rfl x hx
    simpa using List.eq_of_mem_replicate hx

/-! ### The longest of several lists -/

private theorem foldl_longest {α : Type} (ls : List (List α)) (best : List α) :
    best.length ≤ (ls.foldl (fun best l => if best.length < l.length then l else best) best).length
      ∧ (∀ l ∈ ls, l.length ≤
        (ls.foldl (fun best l => if best.length < l.length then l else best) best).length)
      ∧ (ls.foldl (fun best l => if best.length < l.length then l else best) best = best
        ∨ ls.foldl (fun best l => if best.length < l.length then l else best) best ∈ ls) := by
  induction ls generalizing best with
  | nil => simp
  | cons l ls ih =>
    obtain ⟨hbest, hall, hmem⟩ := ih (if best.length < l.length then l else best)
    rw [List.foldl_cons]
    have hle : best.length ≤ (if best.length < l.length then l else best).length ∧
        l.length ≤ (if best.length < l.length then l else best).length := by
      split <;> omega
    refine ⟨le_trans hle.1 hbest, ?_, ?_⟩
    · intro m hm
      rcases List.mem_cons.1 hm with rfl | hm
      · exact le_trans hle.2 hbest
      · exact hall m hm
    · rcases hmem with h | h
      · rw [h]
        split
        · exact Or.inr List.mem_cons_self
        · exact Or.inl rfl
      · exact Or.inr (List.mem_cons_of_mem _ h)

theorem length_le_firstLongest {α : Type} {ls : List (List α)} {l : List α} (h : l ∈ ls) :
    l.length ≤ (firstLongest ls).length := (foldl_longest ls []).2.1 l h

theorem firstLongest_mem {α : Type} (ls : List (List α)) :
    firstLongest ls = [] ∨ firstLongest ls ∈ ls := (foldl_longest ls []).2.2

/-! ### Longest paths -/

/-- A block that stands on no orphan. -/
def IsRoot (os : List Block) (b : Block) : Prop := ∀ o ∈ os, o.nonce ≠ b.previous

section LongestPath

variable {os : List Block}

theorem exists_longestPath_eq_cons (os : List Block) (n : Nat) (b : Block) :
    ∃ bs, longestPath os n b = b :: bs := by
  cases n with
  | zero => exact ⟨[], rfl⟩
  | succ n => exact ⟨_, rfl⟩

theorem linkedFrom_longestPath (n : Nat) (b : Block) :
    LinkedFrom b.previous (longestPath os n b) := by
  induction n generalizing b with
  | zero => exact ⟨rfl, trivial⟩
  | succ n ih =>
    refine ⟨rfl, ?_⟩
    rcases firstLongest_mem ((os.filter fun c => c.previous = b.nonce).map (longestPath os n))
      with h | h
    · rw [h]
      trivial
    · obtain ⟨c, hc, heq⟩ := List.mem_map.1 h
      have hprev : c.previous = b.nonce := by simpa using (List.mem_filter.1 hc).2
      rw [← heq, ← hprev]
      exact ih c

theorem mem_of_mem_longestPath {n : Nat} {b x : Block} (h : x ∈ longestPath os n b) :
    x = b ∨ x ∈ os := by
  induction n generalizing b with
  | zero => exact Or.inl (List.mem_singleton.1 h)
  | succ n ih =>
    rcases List.mem_cons.1 h with rfl | h
    · exact Or.inl rfl
    · rcases firstLongest_mem ((os.filter fun c => c.previous = b.nonce).map (longestPath os n))
        with hnil | hmem
      · rw [hnil] at h
        exact absurd h List.not_mem_nil
      · obtain ⟨c, hc, heq⟩ := List.mem_map.1 hmem
        rw [← heq] at h
        rcases ih h with rfl | hx
        · exact Or.inr (List.mem_filter.1 hc).1
        · exact Or.inr hx

/-- A path of orphans on a block is no longer than the one found, if the search goes
on for as many steps. -/
theorem length_le_longestPath {n : Nat} {b : Block} {bs : List Block}
    (hlinked : LinkedFrom b.nonce bs) (hos : ∀ x ∈ bs, x ∈ os) (hlen : bs.length ≤ n) :
    (b :: bs).length ≤ (longestPath os n b).length := by
  induction n generalizing b bs with
  | zero =>
    obtain rfl := List.length_eq_zero_iff.1 (Nat.le_zero.1 hlen)
    exact le_rfl
  | succ n ih =>
    cases bs with
    | nil =>
      rw [longestPath, List.length_cons, List.length_cons]
      exact Nat.succ_le_succ (Nat.zero_le _)
    | cons c cs =>
      have hcs := ih hlinked.2 (fun x hx => hos x (List.mem_cons_of_mem _ hx))
        (Nat.le_of_succ_le_succ hlen)
      have hc : c ∈ os.filter fun c => c.previous = b.nonce :=
        List.mem_filter.2 ⟨hos c List.mem_cons_self, by simpa using hlinked.1⟩
      have hle := length_le_firstLongest (List.mem_map_of_mem (f := longestPath os n) hc)
      rw [longestPath, List.length_cons, List.length_cons]
      exact Nat.succ_le_succ (le_trans hcs hle)

variable (hos : (os.map Block.nonce).Nodup)

include hos

/-- A path of orphans from a root does not come back to a nonce. -/
theorem nodup_nonces_of_isRoot {r : Block} (hr : IsRoot os r) {bs : List Block}
    (hlinked : LinkedFrom r.previous bs) (hsub : ∀ x ∈ bs, x ∈ os) :
    (bs.map Block.nonce).Nodup :=
  nodup_nonces_of_linkedFrom hlinked
    (fun _ ha _ hb h => List.inj_on_of_nodup_map hos (hsub _ ha) (hsub _ hb) h)
    fun b hb => hr b (hsub b hb)

/-- **No path of orphans from a root is longer than the one found.** -/
theorem length_le_longestPath_of_isRoot {r : Block} (hr : IsRoot os r) {bs : List Block}
    (hlinked : LinkedFrom r.previous (r :: bs)) (hsub : ∀ x ∈ r :: bs, x ∈ os) :
    (r :: bs).length ≤ (longestPath os os.length r).length := by
  -- a path that does not come back fits into the orphans, so the fuel suffices
  have hnodup := (nodup_nonces_of_isRoot hos hr hlinked hsub).of_map
  have hlen : (r :: bs).length ≤ os.length := (List.subperm_of_subset hnodup hsub).length_le
  refine length_le_longestPath hlinked.2 (fun x hx => hsub x (List.mem_cons_of_mem _ hx)) ?_
  rw [List.length_cons] at hlen
  omega

end LongestPath

/-! ### Places on the chain -/

theorem onChain_eq_false_iff {chain : List Block} {n : Digest} :
    onChain chain n = false ↔ ∀ b ∈ chain, b.nonce ≠ n := by
  simp [onChain]

theorem mem_orphans {chain : List Block} {pool : BlockPool} {b : Block} :
    b ∈ orphans chain pool ↔ b ∈ pool.toList ∧ ∀ c ∈ chain, c.nonce ≠ b.nonce := by
  unfold orphans
  rw [List.mem_filter, ← onChain_eq_false_iff]
  simp

theorem nodup_nonces_orphans (chain : List Block) (pool : BlockPool) :
    ((orphans chain pool).map Block.nonce).Nodup :=
  pool.nodup_keys.sublist (List.filter_sublist.map _)

theorem tipAfter_take_position {chain : List Block} {n : Digest} {i : Nat}
    (h : position chain n = some i) :
    i < chain.length ∧ tipAfter .zero (chain.take (i + 1)) = n := by
  obtain ⟨hi, hn, -⟩ := List.findIdx?_eq_some_iff_getElem.1 h
  refine ⟨hi, ?_⟩
  rw [List.take_succ_eq_append_getElem hi, tipAfter_concat]
  simpa using hn

/-- The block below the tip of a chain's beginning is found in its place. -/
theorem position_tipAfter_take {chain : List Block} (hchain : (chain.map Block.nonce).Nodup)
    {i : Nat} (hi : i < chain.length) :
    position chain (tipAfter .zero (chain.take (i + 1))) = some i := by
  rw [List.take_succ_eq_append_getElem hi, tipAfter_concat, position,
    List.findIdx?_eq_some_iff_getElem]
  refine ⟨hi, by simp, fun j hji => ?_⟩
  simp only [decide_eq_true_eq]
  intro heq
  have hblock : chain[j] = chain[i] :=
    List.inj_on_of_nodup_map hchain (List.getElem_mem _) (List.getElem_mem _) heq
  have := hchain.of_map.getElem_inj_iff.1 hblock
  omega

/-! ### The side chains that are computed -/

/-- A branch of orphans that stands on the chain where it says and does not come back
to a nonce. -/
structure SideChain.Fits (chain : List Block) (pool : BlockPool) (s : SideChain) : Prop where
  /-- The block that it stands on is there. -/
  parent_lt : ∀ i, s.parent = some i → i < chain.length
  /-- Its blocks stand one on the other, the first on that block. -/
  linked : LinkedFrom (tipAfter .zero (chain.take s.kept)) s.blocks
  /-- Its blocks are orphans. -/
  orphan : ∀ b ∈ s.blocks, b ∈ orphans chain pool
  /-- Its nonces are different. -/
  nodup : (s.blocks.map Block.nonce).Nodup

theorem SideChain.Fits.kept_le {chain : List Block} {pool : BlockPool} {s : SideChain}
    (h : s.Fits chain pool) : s.kept ≤ chain.length := by
  unfold kept
  split
  next => exact Nat.zero_le _
  next i hi => exact h.parent_lt i hi

theorem mem_sideChains {chain : List Block} {pool : BlockPool} {s : SideChain} :
    s ∈ sideChains chain pool ↔ ∃ r ∈ orphans chain pool, IsRoot (orphans chain pool) r ∧
      branchFrom chain (orphans chain pool) r = some s := by
  simp only [sideChains, IsRoot, List.mem_filterMap, List.mem_filter, Bool.not_eq_true',
    List.any_eq_false, decide_eq_true_eq, and_assoc, ne_eq]

/-- Where a branch stands. -/
theorem tipAfter_kept_of_branchFrom {chain os : List Block} {r : Block} {s : SideChain}
    (h : branchFrom chain os r = some s) :
    s.blocks = longestPath os os.length r ∧ (∀ i, s.parent = some i → i < chain.length) ∧
      tipAfter .zero (chain.take s.kept) = r.previous := by
  unfold branchFrom at h
  split at h
  next i hi =>
    obtain rfl := Option.some.inj h
    obtain ⟨hlt, htip⟩ := tipAfter_take_position hi
    exact ⟨rfl, fun j hj => Option.some.inj hj ▸ hlt, htip⟩
  next =>
    split at h
    next hz =>
      obtain rfl := Option.some.inj h
      exact ⟨rfl, fun j hj => absurd hj (by simp), by simp [SideChain.kept, Digest.isZero_iff.1 hz]⟩
    next => exact absurd h (by simp)

/-- **Every side chain that is computed fits.** -/
theorem fits_of_mem_sideChains {chain : List Block} {pool : BlockPool} {s : SideChain}
    (h : s ∈ sideChains chain pool) : s.Fits chain pool := by
  obtain ⟨r, hr, hroot, hs⟩ := mem_sideChains.1 h
  obtain ⟨hblocks, hlt, htip⟩ := tipAfter_kept_of_branchFrom hs
  have horphan : ∀ b ∈ s.blocks, b ∈ orphans chain pool := by
    intro b hb
    rw [hblocks] at hb
    rcases mem_of_mem_longestPath hb with rfl | hb
    · exact hr
    · exact hb
  have hlinked : LinkedFrom r.previous s.blocks := by
    rw [hblocks]
    exact linkedFrom_longestPath _ r
  refine ⟨hlt, by rw [htip]; exact hlinked, horphan, ?_⟩
  exact nodup_nonces_of_isRoot (nodup_nonces_orphans chain pool) hroot hlinked horphan

/-- A side chain is a longest path from a root. -/
theorem exists_root_of_mem_sideChains {chain : List Block} {pool : BlockPool} {s : SideChain}
    (h : s ∈ sideChains chain pool) : ∃ r path, s.blocks = r :: path ∧
      IsRoot (orphans chain pool) r ∧
      s.blocks = longestPath (orphans chain pool) (orphans chain pool).length r := by
  obtain ⟨r, -, hroot, hs⟩ := mem_sideChains.1 h
  obtain ⟨hblocks, -, -⟩ := tipAfter_kept_of_branchFrom hs
  obtain ⟨path, hpath⟩ :=
    exists_longestPath_eq_cons (orphans chain pool) (orphans chain pool).length r
  exact ⟨r, path, hblocks.trans hpath, hroot, hblocks⟩

/-- **Every root that stands on the chain has its side chain**, if no block of the
chain looks like none at all. -/
theorem exists_mem_sideChains {chain : List Block} {pool : BlockPool}
    (hchain : (chain.map Block.nonce).Nodup) (hzero : ∀ b ∈ chain, b.nonce ≠ .zero) {k : Nat}
    (hk : k ≤ chain.length) {r : Block} (hr : r ∈ orphans chain pool)
    (hroot : IsRoot (orphans chain pool) r) (hprev : r.previous = tipAfter .zero (chain.take k)) :
    ∃ s ∈ sideChains chain pool, s.kept = k ∧
      s.blocks = longestPath (orphans chain pool) (orphans chain pool).length r := by
  cases k with
  | zero =>
    -- the root stands on none; no block of the chain may be taken for that
    have hnone : position chain r.previous = none := by
      rw [hprev, position, List.findIdx?_eq_none_iff]
      exact fun b hb => decide_eq_false (hzero b hb)
    have hz : r.previous.isZero = true := Digest.isZero_iff.2 hprev
    refine ⟨⟨none, longestPath _ _ r⟩, mem_sideChains.2 ⟨r, hr, hroot, ?_⟩, rfl, rfl⟩
    unfold branchFrom
    rw [hnone]
    simp [hz]
  | succ i =>
    have hi : position chain r.previous = some i := by
      rw [hprev]
      exact position_tipAfter_take hchain hk
    refine ⟨⟨some i, longestPath _ _ r⟩, mem_sideChains.2 ⟨r, hr, hroot, ?_⟩, rfl, rfl⟩
    unfold branchFrom
    rw [hi]

end GossipLedger
