import GossipLedger.Proofs.Ledger.Retention
import GossipLedger.Proofs.Ledger.Search

/-!
# Longest paths

The path that the search from a root comes to an end with, described without the search.
The depth of an orphan is the number of blocks of a longest sequence upwards from it.  At
every block the search goes on to the orphan of greatest depth on top, and if several have
that depth, to the one with the smallest nonce: it looks at them in the order of their
nonces and keeps a path only if it is longer than all those before.  There is one such path
from a root, and no sequence from there is longer.

Only a root is safe to start from.  Orphans can stand on each other in a circle, and from a
block of a circle the search does not come to an end.  But a sequence from a root does not
come back to a nonce, so it meets no circle and has no more blocks than there are orphans.

## Main definitions

* `UpFrom` — orphans one on top of the other, from a block upwards.
* `HasDepth` — the number of blocks of a longest such sequence.
* `Foremost` — the orphan to go on to from a block.
* `LeastLongest` — the longest path that goes on to the foremost orphan everywhere.

## Main results

* `exists_split_firstLongest` — what is before and after the first of the longest lists.
* `not_finds_of_circle` — from a block of a circle the search does not come to an end.
* `LeadsTo.foremost` — a path that is found goes on to the foremost orphan.
* `LeastLongest.eq` — there is at most one such path.
* `finds_iff_eq_longestPath` — **from a root the search comes to an end with that path**, in
  whatever order the blocks are met.
-/

namespace GossipLedger

open Ledger

/-! ### Sequences upwards -/

/-- Orphans one on top of the other, from a block upwards. -/
structure UpFrom (os : List Block) (b : Block) (bs : List Block) : Prop where
  /-- The block is the first. -/
  starts : bs.head? = some b
  /-- Each stands on the one before. -/
  linked : LinkedFrom b.previous bs
  orphan : ∀ x ∈ bs, x ∈ os

/-- The number of blocks of a longest sequence upwards from a block. -/
structure HasDepth (os : List Block) (b : Block) (n : Nat) : Prop where
  reached : ∃ bs, UpFrom os b bs ∧ bs.length = n
  bound : ∀ bs, UpFrom os b bs → bs.length ≤ n

/-- The orphan `y` of depth `n` is the one to go on to from the block `x`: of the orphans on
top of `x` none has a greater depth, and none of the same depth has a smaller nonce. -/
structure Foremost (os : List Block) (x y : Block) (n : Nat) : Prop where
  depth : HasDepth os y n
  first : ∀ c ∈ os, c.previous = x.nonce →
    ∃ m, HasDepth os c m ∧ (m < n ∨ m = n ∧ (c = y ∨ y.nonce < c.nonce))

/-- The longest path from a block upwards that goes on to the foremost orphan everywhere. -/
structure LeastLongest (os : List Block) (r : Block) (path : List Block) : Prop where
  up : UpFrom os r path
  /-- It does not come back to a nonce. -/
  nodup : (path.map Block.nonce).Nodup
  longest : ∀ bs, UpFrom os r bs → bs.length ≤ path.length
  foremost : ∀ below x y above, path = below ++ x :: y :: above →
    Foremost os x y (above.length + 1)

section Sequences

variable {os : List Block} {b : Block}

theorem UpFrom.exists_cons {bs : List Block} (h : UpFrom os b bs) :
    ∃ cs, bs = b :: cs ∧ LinkedFrom b.nonce cs ∧ ∀ x ∈ cs, x ∈ os := by
  obtain ⟨cs, rfl⟩ := List.head?_eq_some_iff.1 h.starts
  exact ⟨cs, rfl, h.linked.2, fun x hx => h.orphan x (List.mem_cons_of_mem b hx)⟩

/-- A block has one depth. -/
theorem HasDepth.eq {m n : Nat} (hm : HasDepth os b m) (hn : HasDepth os b n) : m = n := by
  obtain ⟨bs, hbs, rfl⟩ := hm.reached
  obtain ⟨cs, hcs, rfl⟩ := hn.reached
  exact Nat.le_antisymm (hn.bound bs hbs) (hm.bound cs hcs)

/-- A path that is found goes upwards through orphans. -/
theorem upFrom_longestPath (hb : b ∈ os) (n : Nat) : UpFrom os b (longestPath os n b) := by
  obtain ⟨bs, hbs⟩ := exists_longestPath_eq_cons os n b
  refine ⟨by rw [hbs, List.head?_cons], linkedFrom_longestPath n b, fun x hx => ?_⟩
  rcases mem_of_mem_longestPath hx with rfl | hx
  · exact hb
  · exact hx

end Sequences

/-! ### Circles -/

theorem mem_childrenOf {os : List Block} {n : Digest} {c : Block} :
    c ∈ childrenOf os n ↔ c ∈ os ∧ c.previous = n := by
  unfold childrenOf Catalog.sortByKey
  rw [List.mem_mergeSort, List.mem_filter, decide_eq_true_eq]

/-- **From a block of a circle the search does not come to an end**: it would have to do so
from the next block of the circle before. -/
theorem not_finds_of_circle {os path : List Block} {b : Block} (bs : List Block) (hne : bs ≠ [])
    (hlinked : LinkedFrom b.nonce bs) (hsub : ∀ x ∈ bs, x ∈ os)
    (hback : tipAfter b.nonce bs = b.nonce) : ¬Finds os b path := by
  intro h
  induction h generalizing bs with
  | step _ _ ih =>
    cases bs with
    | nil => exact hne rfl
    | cons c cs =>
      have hc : c ∈ childrenOf os _ := mem_childrenOf.2 ⟨hsub c List.mem_cons_self, hlinked.1⟩
      -- the circle begins with the next block instead, which comes last now
      refine ih c hc (cs ++ [c]) (by simp) ?_ ?_ (tipAfter_concat _ _ _)
      · exact linkedFrom_concat.2 ⟨hlinked.2, hlinked.1.trans hback.symm⟩
      · intro x hx
        exact hsub x (by simpa [or_comm] using hx)

/-! ### The first of the longest lists -/

/-- Of several lists the first of the longest is longer than all before it and as long as
any after it. -/
theorem exists_split_firstLongest {α : Type} {ls : List (List α)} (h : firstLongest ls ≠ []) :
    ∃ as bs, ls = as ++ firstLongest ls :: bs ∧
      (∀ a ∈ as, a.length < (firstLongest ls).length) ∧
        ∀ b ∈ bs, b.length ≤ (firstLongest ls).length := by
  induction ls using List.reverseRecOn with
  | nil => exact absurd rfl h
  | append_singleton ls l ih =>
    have hconcat : firstLongest (ls ++ [l]) =
        if (firstLongest ls).length < l.length then l else firstLongest ls := by
      unfold firstLongest
      rw [List.foldl_concat]
    rw [hconcat] at h ⊢
    split at h
    next hlt =>
      rw [if_pos hlt]
      refine ⟨ls, [], rfl, fun a ha => ?_, by simp⟩
      exact lt_of_le_of_lt (length_le_firstLongest ha) hlt
    next hle =>
      rw [if_neg hle]
      obtain ⟨as, bs, hsplit, hbefore, hafter⟩ := ih h
      refine ⟨as, bs ++ [l], ?_, hbefore, ?_⟩
      · rw [← List.cons_append, ← List.append_assoc, ← hsplit]
      · intro b hb
        rcases List.mem_append.1 hb with hb | hb
        · exact hafter b hb
        · rw [List.mem_singleton.1 hb]
          exact Nat.le_of_not_lt hle

/-! ### What is found -/

/-- Of the orphans on top of a block, in the order of their nonces, the one that is deeper
than all before it and as deep as any after it is the foremost. -/
theorem foremost_of_split {os cs ds : List Block} {b c : Block} (depth : Block → Nat)
    (hos : os.Pairwise fun a b => a.nonce < b.nonce)
    (hchildren : (os.filter fun c => c.previous = b.nonce) = cs ++ c :: ds)
    (hdepth : ∀ d ∈ cs ++ c :: ds, HasDepth os d (depth d))
    (hbefore : ∀ d ∈ cs, depth d < depth c) (hafter : ∀ d ∈ ds, depth d ≤ depth c) :
    Foremost os b c (depth c) := by
  have hsorted : (cs ++ c :: ds).Pairwise fun a b => a.nonce < b.nonce :=
    hchildren ▸ hos.filter _
  refine ⟨hdepth c (by simp), fun d hd hprev => ?_⟩
  have hmem : d ∈ cs ++ c :: ds := hchildren ▸ List.mem_filter.2 ⟨hd, decide_eq_true hprev⟩
  refine ⟨depth d, hdepth d hmem, ?_⟩
  rcases List.mem_append.1 hmem with hd | hd
  · exact Or.inl (hbefore d hd)
  · rcases List.mem_cons.1 hd with rfl | hd
    · exact Or.inr ⟨rfl, Or.inl rfl⟩
    · -- those after it have greater nonces
      have hlt : c.nonce < d.nonce :=
        (List.pairwise_cons.1 (List.pairwise_append.1 hsorted).2.1).1 d hd
      rcases Nat.lt_or_eq_of_le (hafter d hd) with hless | hsame
      · exact Or.inl hless
      · exact Or.inr ⟨hsame, Or.inr hlt⟩

section Root

variable {os : List Block} (hos : os.Pairwise fun a b => a.nonce < b.nonce) {r : Block}
  (hr : IsRoot os r)

include hos hr

/-- The path that is found from a block is as long as the block is deep. -/
theorem LeadsTo.hasDepth {below : List Block} {b : Block} {n : Nat} (h : LeadsTo os r below b)
    (hfuel : os.length ≤ below.length + 1 + n) : HasDepth os b (longestPath os n b).length := by
  have hb : b ∈ os := h.orphan b (by simp)
  refine ⟨⟨_, upFrom_longestPath hb n, rfl⟩, fun bs hbs => ?_⟩
  have hle := h.length_add_le (nodup_nonces_of_sorted hos) hr hbs.linked hbs.orphan
  obtain ⟨cs, rfl, hlinked, hsub⟩ := hbs.exists_cons
  rw [List.length_cons] at hle
  exact length_le_longestPath hlinked hsub (by omega)

/-- The first of the longest paths from the orphans on top of a block starts with the
foremost of them. -/
theorem LeadsTo.foremost_of_firstLongest {below above : List Block} {b y : Block} {n : Nat}
    (h : LeadsTo os r below b) (hfuel : os.length ≤ below.length + 1 + (n + 1))
    (hfirst : firstLongest ((os.filter fun c => c.previous = b.nonce).map (longestPath os n)) =
      y :: above) : Foremost os b y (above.length + 1) := by
  have hdepth : ∀ c ∈ os.filter fun c => c.previous = b.nonce,
      HasDepth os c (longestPath os n c).length := by
    intro c hc
    refine (h.step hc).hasDepth hos hr ?_
    rw [List.length_append, List.length_singleton]
    omega
  obtain ⟨before, after, hsplit, hbefore, hafter⟩ :=
    exists_split_firstLongest (by rw [hfirst]; exact List.cons_ne_nil y above)
  rw [hfirst] at hsplit hbefore hafter
  obtain ⟨cs, ds, hchildren, rfl, hds⟩ := List.map_eq_append_iff.1 hsplit
  obtain ⟨c, ds, rfl, hpath, rfl⟩ := List.map_eq_cons_iff.1 hds
  -- the path that is kept starts with the block that it was found from
  obtain ⟨bs, hbs⟩ := exists_longestPath_eq_cons os n c
  obtain ⟨rfl, -⟩ := List.cons_eq_cons.1 (hbs.symm.trans hpath)
  rw [← List.length_cons (a := c), ← hpath]
  rw [← hpath] at hbefore hafter
  refine foremost_of_split (fun d => (longestPath os n d).length) hos hchildren
    (hchildren ▸ hdepth) ?_ ?_
  · intro d hd
    exact hbefore _ (List.mem_map_of_mem hd)
  · intro d hd
    exact hafter _ (List.mem_map_of_mem hd)

/-- **A path that is found goes on to the foremost orphan everywhere.** -/
theorem LeadsTo.foremost {below under above : List Block} {b x y : Block} {n : Nat}
    (h : LeadsTo os r below b) (hfuel : os.length ≤ below.length + 1 + n)
    (hpath : longestPath os n b = under ++ x :: y :: above) :
    Foremost os x y (above.length + 1) := by
  induction n generalizing below under b with
  | zero =>
    have hlength := congrArg List.length hpath
    rw [List.length_append, longestPath] at hlength
    simp only [List.length_cons, List.length_nil] at hlength
    omega
  | succ n ih =>
    rw [longestPath] at hpath
    cases under with
    | nil =>
      obtain ⟨rfl, hfirst⟩ := List.cons_eq_cons.1 hpath
      exact h.foremost_of_firstLongest hos hr hfuel hfirst
    | cons u under =>
      -- the rest of the path was found from an orphan on top
      obtain ⟨-, hfirst⟩ := List.cons_eq_cons.1 hpath
      rcases firstLongest_mem ((os.filter fun c => c.previous = b.nonce).map (longestPath os n))
        with hnil | hmem
      · exact absurd (hnil.symm.trans hfirst) (by simp)
      · obtain ⟨c, hc, heq⟩ := List.mem_map.1 hmem
        refine ih (h.step hc) ?_ (heq.trans hfirst)
        rw [List.length_append, List.length_singleton]
        omega

/-- What is found from a root is the longest path that goes on to the foremost orphan
everywhere. -/
theorem leastLongest_longestPath (hmem : r ∈ os) :
    LeastLongest os r (longestPath os os.length r) := by
  have hpath := leadsTo_root hmem
  have hup : UpFrom os r (longestPath os os.length r) := upFrom_longestPath hmem os.length
  refine ⟨hup, ?_, (hpath.hasDepth hos hr (Nat.le_add_left _ _)).bound, ?_⟩
  · exact nodup_nonces_of_isRoot (nodup_nonces_of_sorted hos) hr hup.linked hup.orphan
  · intro below x y above heq
    exact hpath.foremost hos hr (Nat.le_add_left _ _) heq

end Root

/-! ### At most one path -/

section Unique

variable {os path path' : List Block} {r : Block}

/-- An orphan that the path goes on to stands on the one before. -/
theorem LeastLongest.on_top {below above : List Block} {x y : Block} (h : LeastLongest os r path)
    (hpath : path = below ++ x :: y :: above) : y ∈ os ∧ y.previous = x.nonce := by
  have hlinked := h.up.linked
  rw [hpath] at hlinked
  exact ⟨h.up.orphan y (by simp [hpath]), (linkedFrom_append.1 hlinked).2.2.1⟩

/-- The orphans that two paths go on to from the same block are the same. -/
theorem LeastLongest.next_eq {below above above' : List Block} {x y y' : Block}
    (h : LeastLongest os r path) (h' : LeastLongest os r path')
    (hpath : path = below ++ x :: y :: above) (hpath' : path' = below ++ x :: y' :: above') :
    y = y' := by
  have hfor := h.foremost _ _ _ _ hpath
  have hfor' := h'.foremost _ _ _ _ hpath'
  obtain ⟨hy, hprev⟩ := h.on_top hpath
  obtain ⟨hy', hprev'⟩ := h'.on_top hpath'
  obtain ⟨m, hm, hcase⟩ := hfor.first y' hy' hprev'
  obtain ⟨m', hm', hcase'⟩ := hfor'.first y hy hprev
  obtain rfl := hm.eq hfor'.depth
  obtain rfl := hm'.eq hfor.depth
  rcases hcase with hdeeper | ⟨hsame, rfl | hlt⟩
  · rcases hcase' with hdeeper' | ⟨hsame', -⟩
    · omega
    · omega
  · rfl
  · rcases hcase' with hdeeper' | ⟨-, rfl | hlt'⟩
    · omega
    · rfl
    · exact absurd (Digest.lt_trans hlt hlt') (Digest.lt_irrefl _)

/-- **There is at most one such path from a block.** -/
theorem LeastLongest.eq (h : LeastLongest os r path) (h' : LeastLongest os r path') :
    path = path' := by
  have hlength : path.length = path'.length :=
    Nat.le_antisymm (h'.longest path h.up) (h.longest path' h'.up)
  -- the two agree as far as one has looked, and then on the next block
  have hrest : ∀ above above' below x, path = below ++ x :: above → path' = below ++ x :: above' →
      above.length = above'.length → above = above' := by
    intro above
    induction above with
    | nil =>
      intro above' below x _ _ hlen
      exact (List.length_eq_zero_iff.1 hlen.symm).symm
    | cons y above ih =>
      intro above' below x hpath hpath' hlen
      cases above' with
      | nil => exact absurd hlen (by simp)
      | cons y' above' =>
        obtain rfl := h.next_eq h' hpath hpath'
        have hsame := ih above' (below ++ [x]) y (by simpa using hpath) (by simpa using hpath')
          (by simpa using hlen)
        rw [hsame]
  obtain ⟨above, rfl, -, -⟩ := h.up.exists_cons
  obtain ⟨above', rfl, -, -⟩ := h'.up.exists_cons
  rw [hrest above above' [] r rfl rfl (by simpa using hlength)]

end Unique

/-! ### The search from a root -/

/-- **From a root the search comes to an end, with the longest path that goes on to the
foremost orphan everywhere.**  The blocks of a pool, whatever they are, are met in any order;
from an orphan that stands on no orphan the search has a result, and just one.  It starts
with that orphan, each block is an orphan on top of the one before, and no nonce comes twice.
No sequence of orphans from there is longer.  Where several blocks are on top, it goes on to
one of the greatest depth, and of those to the one with the smallest nonce, which leaves no
other path. -/
theorem finds_iff_eq_longestPath (chain : List Block) (pool : BlockPool) {r : Block}
    (hmem : r ∈ orphans chain pool) (hroot : IsRoot (orphans chain pool) r) :
    LeastLongest (orphans chain pool) r
      (longestPath (orphans chain pool) (orphans chain pool).length r) ∧
    (∀ path, LeastLongest (orphans chain pool) r path →
      path = longestPath (orphans chain pool) (orphans chain pool).length r) ∧
    ∀ blocks, blocks.Perm pool.toList → ∀ path, Finds (orphansAmong chain blocks) r path ↔
      path = longestPath (orphans chain pool) (orphans chain pool).length r := by
  have hos : (orphans chain pool).Pairwise fun a b => a.nonce < b.nonce := pool.sorted.filter _
  have hleast := leastLongest_longestPath hos hroot hmem
  refine ⟨hleast, fun path hpath => hpath.eq hleast, fun blocks hblocks path => ?_⟩
  have hlisted : (orphansAmong chain blocks).Perm (orphans chain pool) := hblocks.filter _
  have hends := finds_longestPath hos hlisted hroot hmem
  constructor
  · intro hfinds
    exact hfinds.eq hends
  · intro heq
    rw [heq]
    exact hends

/-- A root with two branches of the same height on top, of which one splits again, a block
that stands on itself and two that stand on each other. -/
def tangled : BlockPool :=
  [sample 0 1, sample 1 3, sample 1 2, sample 3 5, sample 2 8, sample 2 7, sample 9 9,
    sample 11 10, sample 10 11].foldl Catalog.add .empty

/-- The search from the root takes the smaller nonce twice, also if the blocks are met the
other way round, and it does not come to an end from the block that stands on itself. -/
theorem finds_in_tangled :
    sample 0 1 ∈ orphans [] tangled ∧ IsRoot (orphans [] tangled) (sample 0 1) ∧
      LeastLongest (orphans [] tangled) (sample 0 1) [sample 0 1, sample 1 2, sample 2 7] ∧
      (∀ path, Finds (orphansAmong [] tangled.toList.reverse) (sample 0 1) path ↔
        path = [sample 0 1, sample 1 2, sample 2 7]) ∧
      ∀ path, ¬Finds (orphans [] tangled) (sample 9 9) path := by
  have hmem : sample 0 1 ∈ orphans [] tangled := by decide +kernel
  have hroot : IsRoot (orphans [] tangled) (sample 0 1) := by
    unfold IsRoot
    decide +kernel
  have hpath : longestPath (orphans [] tangled) (orphans [] tangled).length (sample 0 1) =
      [sample 0 1, sample 1 2, sample 2 7] := by decide +kernel
  obtain ⟨hleast, -, hfinds⟩ := finds_iff_eq_longestPath [] tangled hmem hroot
  rw [hpath] at hleast hfinds
  refine ⟨hmem, hroot, hleast, hfinds _ (List.reverse_perm _), fun path => ?_⟩
  exact not_finds_of_circle [sample 9 9] (by simp) ⟨rfl, trivial⟩ (by decide +kernel) rfl

end GossipLedger
