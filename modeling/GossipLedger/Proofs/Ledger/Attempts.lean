import GossipLedger.Ledger.Mining
import Mathlib.Data.Nat.Find
import Mathlib.Logic.Function.Iterate

/-!
# The attempts of a search

A search for a nonce goes along a chain of hashes.  The nonces on that chain depend on the
block only through what mining leaves alone, so the chain is the sequence of iterates of one
map, and a search that has made `k` attempts without an end stands at the `k`-th of them.
From there the next attempt decides: the signal is looked at, and if it is not raised, the next
nonce is hashed.  So the first nonce that meets the difficulty ends the search unless the signal
was seen before it was hashed.

The hash function is any function and the signal is any sequence of answers, also one that is
raised and taken back.  A bound on the attempts only matters to a search that has not ended
within it.

## Main definitions

* `Block.nextNonce`, `Block.attempt` — the map, and the nonces that the attempts come to.
* `FirstHit` — the first of them to meet the difficulty.
* `Undecided` — so many attempts were made, and nothing ended the search.

## Main results

* `search_eq_found_iff`, `search_eq_stopped_iff`, `search_eq_unfinished_iff` — how a search ends.
* `search_ends_at_first_hit` — **a search finds the first hit and nothing else**, it ends without
  one only if the signal was seen before, and it does end if nobody raises the signal and there
  is a hit at all.
-/

namespace GossipLedger

/-- The nonce after a nonce: the hash of the block with that one. -/
def Block.nextNonce (hash : Bytes → Digest) (b : Block) (nonce : Digest) : Digest :=
  hash { b with nonce }.contents

/-- The nonce that `k` attempts come to. -/
def Block.attempt (hash : Bytes → Digest) (b : Block) (k : Nat) : Digest :=
  (b.nextNonce hash)^[k] b.nonce

/-- The `k`-th attempt is the first that comes to a nonce which meets the difficulty.  The nonce
that the block had before the first attempt does not count. -/
structure FirstHit (hash : Bytes → Digest) (difficulty : Nat) (b : Block) (k : Nat) : Prop where
  pos : 1 ≤ k
  meets : (b.attempt hash k).Meets difficulty
  first : ∀ j, 1 ≤ j → j < k → ¬(b.attempt hash j).Meets difficulty

/-- So many attempts were made: the signal was not seen before any of them, and none of them met
the difficulty. -/
structure Undecided (hash : Bytes → Digest) (stop : Nat → Bool) (difficulty : Nat) (b : Block)
    (k : Nat) : Prop where
  unseen : ∀ i < k, stop i = false
  unmet : ∀ j, 1 ≤ j → j ≤ k → ¬(b.attempt hash j).Meets difficulty

variable {hash : Bytes → Digest} {stop : Nat → Bool} {difficulty : Nat} {b : Block}

/-! ### One attempt after the other -/

/-- The next attempt hashes the block with the nonce of the attempt before. -/
theorem Block.rehash_attempt (hash : Bytes → Digest) (b : Block) (k : Nat) :
    ({ b with nonce := b.attempt hash k } : Block).rehash hash =
      { b with nonce := b.attempt hash (k + 1) } := by
  have hnext : b.attempt hash (k + 1) = b.nextNonce hash (b.attempt hash k) :=
    Function.iterate_succ_apply' _ k b.nonce
  rw [hnext]
  rfl

/-- What one more attempt leads to. -/
theorem Undecided.succ {k : Nat} (h : Undecided hash stop difficulty b k) (hseen : stop k = false)
    (hmeets : ¬(b.attempt hash (k + 1)).Meets difficulty) :
    Undecided hash stop difficulty b (k + 1) := by
  constructor
  · intro i hi
    rcases Nat.lt_succ_iff_lt_or_eq.1 hi with hlt | rfl
    · exact h.unseen i hlt
    · exact hseen
  · intro j hj hle
    rcases Nat.le_succ_iff.1 hle with hle | rfl
    · exact h.unmet j hj hle
    · exact hmeets

/-- An attempt whose signal is raised ends the search. -/
theorem searchFrom_of_stop {fuel k : Nat} (hseen : stop k = true) (c : Block) :
    searchFrom hash stop difficulty fuel k c = .stopped := by
  cases fuel <;> simp only [searchFrom, hseen, if_true]

/-- **What one attempt does**: it finds the next nonce, or the search goes on from there. -/
theorem searchFrom_succ {k : Nat} (fuel : Nat) (hseen : stop k = false) :
    searchFrom hash stop difficulty (fuel + 1) k { b with nonce := b.attempt hash k } =
      if (b.attempt hash (k + 1)).Meets difficulty then
        .found { b with nonce := b.attempt hash (k + 1) }
      else searchFrom hash stop difficulty fuel (k + 1)
        { b with nonce := b.attempt hash (k + 1) } := by
  rw [searchFrom, hseen]
  simp only [Bool.false_eq_true, if_false, Block.rehash_attempt]
  rfl

/-- **A search that is undecided goes on where its attempts have come to.** -/
theorem search_of_undecided {k : Nat} (h : Undecided hash stop difficulty b k) (fuel : Nat) :
    search hash stop difficulty (fuel + k) b =
      searchFrom hash stop difficulty fuel k { b with nonce := b.attempt hash k } := by
  induction k generalizing fuel with
  | zero => rfl
  | succ k ih =>
    have hbefore : Undecided hash stop difficulty b k :=
      ⟨fun i hi => h.unseen i (by omega), fun j hj hle => h.unmet j hj (by omega)⟩
    rw [show fuel + (k + 1) = fuel + 1 + k by omega, ih hbefore,
      searchFrom_succ fuel (h.unseen k (by omega)), if_neg (h.unmet (k + 1) (by omega) le_rfl)]

/-- After so many attempts the search is undecided, or an earlier one has ended it. -/
theorem undecided_or_ended (hash : Bytes → Digest) (stop : Nat → Bool) (difficulty : Nat)
    (b : Block) (n : Nat) :
    Undecided hash stop difficulty b n ∨ ∃ k < n, Undecided hash stop difficulty b k ∧
      (stop k = true ∨ stop k = false ∧ (b.attempt hash (k + 1)).Meets difficulty) := by
  induction n with
  | zero => exact .inl ⟨fun i hi => by omega, fun j hj hle => by omega⟩
  | succ n ih =>
    rcases ih with h | ⟨k, hk, h⟩
    · cases hseen : stop n with
      | true => exact .inr ⟨n, n.lt_succ_self, h, .inl hseen⟩
      | false =>
        by_cases hmeets : (b.attempt hash (n + 1)).Meets difficulty
        · exact .inr ⟨n, n.lt_succ_self, h, .inr ⟨hseen, hmeets⟩⟩
        · exact .inl (h.succ hseen hmeets)
    · exact .inr ⟨k, by omega, h⟩

/-! ### How a search ends -/

/-- The first hit, which nobody stopped, is found. -/
theorem search_of_firstHit {fuel k : Nat} (hhit : FirstHit hash difficulty b k) (hk : k ≤ fuel)
    (hunseen : ∀ i < k, stop i = false) :
    search hash stop difficulty fuel b = .found { b with nonce := b.attempt hash k } := by
  obtain ⟨k, rfl⟩ := Nat.exists_eq_add_of_le' hhit.pos
  obtain ⟨rest, rfl⟩ := Nat.exists_eq_add_of_le' hk
  have hbefore : Undecided hash stop difficulty b k :=
    ⟨fun i hi => hunseen i (by omega), fun j hj hle => hhit.first j hj (by omega)⟩
  rw [show rest + (k + 1) = rest + 1 + k by omega, search_of_undecided hbefore,
    searchFrom_succ rest (hunseen k (by omega)), if_pos hhit.meets]

/-- A signal that is seen before any hit stops the search. -/
theorem search_of_stop {fuel m : Nat} (h : Undecided hash stop difficulty b m) (hm : m ≤ fuel)
    (hseen : stop m = true) : search hash stop difficulty fuel b = .stopped := by
  obtain ⟨rest, rfl⟩ := Nat.exists_eq_add_of_le' hm
  rw [search_of_undecided h, searchFrom_of_stop hseen]

/-- Without a signal and a hit the search is not finished. -/
theorem search_of_unseen {fuel : Nat} (h : Undecided hash stop difficulty b fuel)
    (hunseen : stop fuel = false) : search hash stop difficulty fuel b = .unfinished := by
  have hgoes := search_of_undecided h 0
  rw [Nat.zero_add] at hgoes
  rw [hgoes, searchFrom, hunseen]
  rfl

/-- **Every search ends in one of the three ways**, and each for its reason. -/
theorem search_cases (hash : Bytes → Digest) (stop : Nat → Bool) (difficulty fuel : Nat)
    (b : Block) :
    (∃ k ≤ fuel, FirstHit hash difficulty b k ∧ (∀ i < k, stop i = false) ∧
      search hash stop difficulty fuel b = .found { b with nonce := b.attempt hash k }) ∨
    (∃ m ≤ fuel, Undecided hash stop difficulty b m ∧ stop m = true ∧
      search hash stop difficulty fuel b = .stopped) ∨
    (Undecided hash stop difficulty b fuel ∧ stop fuel = false ∧
      search hash stop difficulty fuel b = .unfinished) := by
  rcases undecided_or_ended hash stop difficulty b fuel with h | ⟨k, hk, h, hseen | hhit⟩
  · cases hseen : stop fuel with
    | true => exact .inr (.inl ⟨fuel, le_rfl, h, hseen, search_of_stop h le_rfl hseen⟩)
    | false => exact .inr (.inr ⟨h, rfl, search_of_unseen h hseen⟩)
  · exact .inr (.inl ⟨k, Nat.le_of_lt hk, h, hseen, search_of_stop h (Nat.le_of_lt hk) hseen⟩)
  · obtain ⟨hseen, hmeets⟩ := hhit
    have hfirst : FirstHit hash difficulty b (k + 1) :=
      ⟨by omega, hmeets, fun j hj hlt => h.unmet j hj (by omega)⟩
    have hunseen : ∀ i < k + 1, stop i = false := by
      intro i hi
      rcases Nat.lt_succ_iff_lt_or_eq.1 hi with hlt | rfl
      · exact h.unseen i hlt
      · exact hseen
    exact .inl ⟨k + 1, hk, hfirst, hunseen, search_of_firstHit hfirst hk hunseen⟩

/-- A search finds the block with the nonce of the first hit, and only that. -/
theorem search_eq_found_iff {fuel : Nat} {found : Block} :
    search hash stop difficulty fuel b = .found found ↔
      ∃ k ≤ fuel, FirstHit hash difficulty b k ∧ (∀ i < k, stop i = false) ∧
        found = { b with nonce := b.attempt hash k } := by
  constructor
  · intro h
    rcases search_cases hash stop difficulty fuel b with
      ⟨k, hk, hhit, hunseen, heq⟩ | ⟨m, -, -, -, heq⟩ | ⟨-, -, heq⟩
    · exact ⟨k, hk, hhit, hunseen, SearchResult.found.inj (h.symm.trans heq)⟩
    · exact nomatch h.symm.trans heq
    · exact nomatch h.symm.trans heq
  · rintro ⟨k, hk, hhit, hunseen, rfl⟩
    exact search_of_firstHit hhit hk hunseen

/-- A search is stopped exactly if the signal is seen before any hit. -/
theorem search_eq_stopped_iff {fuel : Nat} :
    search hash stop difficulty fuel b = .stopped ↔
      ∃ m ≤ fuel, Undecided hash stop difficulty b m ∧ stop m = true := by
  constructor
  · intro h
    rcases search_cases hash stop difficulty fuel b with
      ⟨k, -, -, -, heq⟩ | ⟨m, hm, hundecided, hseen, -⟩ | ⟨-, -, heq⟩
    · exact nomatch h.symm.trans heq
    · exact ⟨m, hm, hundecided, hseen⟩
    · exact nomatch h.symm.trans heq
  · rintro ⟨m, hm, hundecided, hseen⟩
    exact search_of_stop hundecided hm hseen

/-- A search goes on exactly as long as there is neither a signal nor a hit. -/
theorem search_eq_unfinished_iff {fuel : Nat} :
    search hash stop difficulty fuel b = .unfinished ↔
      Undecided hash stop difficulty b fuel ∧ stop fuel = false := by
  constructor
  · intro h
    rcases search_cases hash stop difficulty fuel b with
      ⟨k, -, -, -, heq⟩ | ⟨m, -, -, -, heq⟩ | ⟨hundecided, hunseen, -⟩
    · exact nomatch h.symm.trans heq
    · exact nomatch h.symm.trans heq
    · exact ⟨hundecided, hunseen⟩
  · rintro ⟨hundecided, hunseen⟩
    exact search_of_unseen hundecided hunseen

/-- Where there is a hit, there is a first one. -/
theorem exists_firstHit {k : Nat} (hk : 1 ≤ k) (hmeets : (b.attempt hash k).Meets difficulty) :
    ∃ first ≤ k, FirstHit hash difficulty b first := by
  have hexists : ∃ j, 1 ≤ j ∧ (b.attempt hash j).Meets difficulty := ⟨k, hk, hmeets⟩
  obtain ⟨hpos, hhit⟩ := Nat.find_spec hexists
  exact ⟨Nat.find hexists, Nat.find_min' hexists ⟨hk, hmeets⟩, hpos, hhit,
    fun j hj hlt hearlier => Nat.find_min hexists hlt ⟨hj, hearlier⟩⟩

/-- **A search finds the first hit of the chain of hashes and nothing else.**  What it finds is
the block with the nonce of the first attempt that meets the difficulty, and nothing else
changed.  It ends without a block exactly if the signal was seen before the next attempt was
made, none of those before having been a hit, so that a first hit could only come later.  As
long as neither happens it goes on.  And if nobody ever raises the signal, it finds a block
whenever any attempt at all would meet the difficulty, within that many attempts. -/
theorem search_ends_at_first_hit (hash : Bytes → Digest) (stop : Nat → Bool) (difficulty : Nat)
    (b : Block) :
    (∀ fuel found, search hash stop difficulty fuel b = .found found ↔
      ∃ k ≤ fuel, FirstHit hash difficulty b k ∧ (∀ i < k, stop i = false) ∧
        found = { b with nonce := b.attempt hash k }) ∧
    (∀ fuel, search hash stop difficulty fuel b = .stopped ↔
      ∃ m ≤ fuel, stop m = true ∧ (∀ i < m, stop i = false) ∧
        ∀ j, 1 ≤ j → j ≤ m → ¬(b.attempt hash j).Meets difficulty) ∧
    (∀ fuel, search hash stop difficulty fuel b = .unfinished ↔
      (∀ i ≤ fuel, stop i = false) ∧
        ∀ j, 1 ≤ j → j ≤ fuel → ¬(b.attempt hash j).Meets difficulty) ∧
    ((∀ i, stop i = false) → ∀ k, 1 ≤ k → (b.attempt hash k).Meets difficulty →
      ∀ fuel, k ≤ fuel → ∃ found, search hash stop difficulty fuel b = .found found) := by
  refine ⟨fun fuel found => search_eq_found_iff, fun fuel => ?_, fun fuel => ?_, ?_⟩
  · rw [search_eq_stopped_iff]
    constructor
    · rintro ⟨m, hm, hundecided, hseen⟩
      exact ⟨m, hm, hseen, hundecided.unseen, hundecided.unmet⟩
    · rintro ⟨m, hm, hseen, hunseen, hunmet⟩
      exact ⟨m, hm, ⟨hunseen, hunmet⟩, hseen⟩
  · rw [search_eq_unfinished_iff]
    constructor
    · rintro ⟨hundecided, hlast⟩
      refine ⟨fun i hi => ?_, hundecided.unmet⟩
      rcases Nat.lt_or_eq_of_le hi with hlt | rfl
      · exact hundecided.unseen i hlt
      · exact hlast
    · rintro ⟨hunseen, hunmet⟩
      exact ⟨⟨fun i hi => hunseen i (Nat.le_of_lt hi), hunmet⟩, hunseen fuel le_rfl⟩
  · intro hunseen k hk hmeets fuel hfuel
    obtain ⟨first, hle, hhit⟩ := exists_firstHit hk hmeets
    exact ⟨_, search_of_firstHit hhit (Nat.le_trans hle hfuel) fun i _ => hunseen i⟩

/-- A hash that takes one off the first byte of the nonce, with zeros after it. -/
def countdown (contents : Bytes) : Digest :=
  ⟨(contents.getD 32 0 - 1) :: List.replicate 31 0, rfl⟩

/-- A block whose nonce begins with a three. -/
def threeBlock : Block := ⟨.zero, ⟨3 :: List.replicate 31 0, rfl⟩, default, []⟩

/-- The third attempt comes to a nonce of zeros.  Nobody stops the search before it, or somebody
does after two attempts. -/
theorem search_counts_down :
    (∀ i, (fun _ : Nat => false) i = false) ∧ 1 ≤ 3 ∧
      (threeBlock.attempt countdown 3).Meets 1 ∧
      (∃ found, search countdown (fun _ => false) 1 5 threeBlock = .found found) ∧
      search countdown (fun i => decide (2 ≤ i)) 1 5 threeBlock = .stopped := by
  have hmeets : (threeBlock.attempt countdown 3).Meets 1 := by decide +kernel
  have hunmet : ∀ j < 3, 1 ≤ j → ¬(threeBlock.attempt countdown j).Meets 1 := by decide +kernel
  obtain ⟨-, -, -, hfinds⟩ := search_ends_at_first_hit countdown (fun _ => false) 1 threeBlock
  obtain ⟨-, hstops, -, -⟩ :=
    search_ends_at_first_hit countdown (fun i => decide (2 ≤ i)) 1 threeBlock
  refine ⟨fun _ => rfl, by decide, hmeets, hfinds (fun _ => rfl) 3 (by decide) hmeets 5 (by decide),
    (hstops 5).2 ⟨2, by decide, by decide, fun i hi => ?_, fun j hj hle => ?_⟩⟩
  · simpa using hi
  · exact hunmet j (by omega) hj

end GossipLedger
