import GossipLedger.Proofs.Catalog
import GossipLedger.Proofs.Ledger.Accounting
import GossipLedger.Proofs.Ledger.Soundness

/-!
# Candidates for mining

The block to be mined next takes up all that waits.  It is put on the chain by the same
rule as the block of a peer, and if it is then still said to be the one being mined, its
own transactions are sent back to the pool just before it confirms them.  In either case
nothing may be left: a transaction that still waited would be mined again, and again.

The reward may have the name of a transaction that waits, for a name is only that of the
contents, and a reward that was cut off waits again like any other transaction.  Then the
block confirms the name once, by its reward.

## Main definitions

* `Ledger.IsCandidate` — a block takes up all that waits, behind a reward.

## Main results

* `Ledger.buildCandidate_eq_none_iff` — when there is nothing to be mined.
* `Ledger.IsCandidate.transactions_eq` — the pool may be met in any order.
* `Ledger.IsCandidate.pending_extend` — nothing waits any more afterwards.
* `Ledger.candidate_complete_and_applicable` — **candidates are complete, and can always be
  put on the chain.**
-/

namespace GossipLedger
namespace Ledger

variable {l : Ledger} {difficulty : Nat} {reward : Transaction} {b : Block}

/-- A block on top of the chain takes up all that waits, behind a reward. -/
structure IsCandidate (l : Ledger) (reward : Transaction) (b : Block) : Prop where
  previous_eq : b.previous = l.headHash
  /-- The reward comes first. -/
  first_eq : b.transactions.head? = some reward
  /-- The others are in the order of their names. -/
  increasing : b.transactions.tail.Pairwise fun t u => t.name < u.name
  /-- The others are those that wait and do not have the name of the reward. -/
  mem_tail_iff : ∀ t, t ∈ b.transactions.tail ↔ t ∈ l.pending.toList ∧ t.name ≠ reward.name

/-! ### What is built -/

/-- **Nothing is to be mined exactly if nothing waits.** -/
theorem buildCandidate_eq_none_iff {time : Timestamp} :
    l.buildCandidate reward time = none ↔ l.pending.isEmpty = true := by
  unfold buildCandidate
  split
  next h => exact iff_of_true rfl h
  next h => exact iff_of_false (Option.some_ne_none _) h

/-- What is built takes up all that waits. -/
theorem isCandidate_of_buildCandidate {time : Timestamp}
    (h : l.buildCandidate reward time = some b) : l.IsCandidate reward b := by
  unfold buildCandidate at h
  split at h
  next => exact absurd h (Option.some_ne_none _).symm
  next =>
    obtain rfl := Option.some.inj h
    refine ⟨rfl, rfl, l.pending.sorted.sublist List.filter_sublist, fun t => ?_⟩
    show t ∈ l.pending.toList.filter _ ↔ _
    rw [List.mem_filter, decide_eq_true_eq]

namespace IsCandidate

theorem transactions_eq_cons (h : l.IsCandidate reward b) :
    b.transactions = reward :: b.transactions.tail := by
  obtain ⟨others, hothers⟩ := List.head?_eq_some_iff.1 h.first_eq
  rw [hothers, List.tail_cons]

/-- **The pool may be met in any order**: what waits, sorted by its names and without the
name of the reward, is what stands behind the reward. -/
theorem transactions_eq (h : l.IsCandidate reward b) {ts : List Transaction}
    (hts : ts.Perm l.pending.toList) :
    b.transactions = reward ::
      (Catalog.sortByKey Transaction.name ts).filter fun t => t.name ≠ reward.name := by
  rw [Catalog.sortByKey_eq hts l.pending.sorted]
  refine h.transactions_eq_cons.trans (congrArg (reward :: ·) ?_)
  have hantisymm : Std.Antisymm fun t u : Transaction => t.name < u.name :=
    ⟨fun t u htu hut => absurd hut (Catalog.key_asymm htu)⟩
  have hirrefl : Std.Irrefl fun t u : Transaction => t.name < u.name :=
    ⟨fun t ht => Catalog.key_asymm ht ht⟩
  refine List.Pairwise.eq_of_mem_iff h.increasing
    (l.pending.sorted.sublist List.filter_sublist) fun t => ?_
  rw [h.mem_tail_iff, List.mem_filter, decide_eq_true_eq]

/-- The names in a candidate are different. -/
theorem nodup_names (h : l.IsCandidate reward b) :
    (b.transactions.map Transaction.name).Nodup := by
  rw [h.transactions_eq_cons, List.map_cons, List.nodup_cons]
  constructor
  · intro hmem
    obtain ⟨t, ht, hname⟩ := List.mem_map.1 hmem
    exact ((h.mem_tail_iff t).1 ht).2 hname
  · exact (⟨_, h.increasing⟩ : Catalog Transaction.name).nodup_keys

/-- No name in a candidate is confirmed already, but for that of the reward. -/
theorem not_confirmed (h : l.IsCandidate reward b) (hapart : l.Apart) {t : Transaction}
    (ht : t ∈ b.transactions) (hname : t.name ≠ reward.name) : l.confirms t.name = false := by
  rw [h.transactions_eq_cons] at ht
  rcases List.mem_cons.1 ht with rfl | ht
  · exact absurd rfl hname
  · exact hapart t.name (Catalog.contains_of_mem ((h.mem_tail_iff t).1 ht).1)

/-- A candidate confirms every name that waits. -/
theorem confirms_of_waits (h : l.IsCandidate reward b) {t : Transaction}
    (ht : t ∈ l.pending.toList) : b.confirms t.name = true := by
  rw [Block.confirms_iff, h.transactions_eq_cons]
  by_cases hname : t.name = reward.name
  · exact ⟨reward, List.mem_cons_self, hname.symm⟩
  · exact ⟨t, List.mem_cons_of_mem _ ((h.mem_tail_iff t).2 ⟨ht, hname⟩), rfl⟩

/-- A candidate shares its reward with a block that has the same transactions. -/
theorem sharesTransactions (h : l.IsCandidate reward b) {m : Block}
    (hm : m.transactions = b.transactions) : m.sharesTransactions b = true := by
  have hmem : reward ∈ b.transactions := by
    rw [h.transactions_eq_cons]
    exact List.mem_cons_self
  refine List.any_eq_true.2 ⟨reward, hmem, Block.confirms_iff.2 ⟨reward, ?_, rfl⟩⟩
  rw [hm]
  exact hmem

/-! ### What is built is put on the chain -/

/-- The nonce of a candidate does not matter: it is found later. -/
theorem with_nonce (h : l.IsCandidate reward b) (nonce : Digest) :
    l.IsCandidate reward { b with nonce := nonce } :=
  ⟨h.previous_eq, h.first_eq, h.increasing, h.mem_tail_iff⟩

variable {mining : Option Block}

/-- **Nothing waits any more** once a candidate is on the chain, also if it was said to be the
one being mined: what is sent back before is confirmed by the block. -/
theorem pending_extend (h : l.IsCandidate reward b)
    (hmining : ∀ m ∈ mining, m.transactions = b.transactions) :
    ((l.preempt b mining).1.extend b).pending.isEmpty = true := by
  rw [Catalog.isEmpty, List.isEmpty_iff, List.eq_nil_iff_forall_not_mem]
  intro t ht
  have hkept : b.confirms t.name = false :=
    (contains_extend.1 (Catalog.contains_of_mem ht)).2
  rw [← Bool.not_eq_true] at hkept
  refine hkept ?_
  rcases mem_of_mem_preempt (mem_of_mem_extend ht) with ht | ⟨m, hm, ht⟩
  · exact h.confirms_of_waits ht
  · rw [hmining m hm] at ht
    exact Block.confirms_iff.2 ⟨t, ht, rfl⟩

/-- A candidate ends the attempt at it. -/
theorem preempt_snd (h : l.IsCandidate reward b)
    (hmining : ∀ m ∈ mining, m.transactions = b.transactions) :
    (l.preempt b mining).2 = mining.isSome := by
  cases mining with
  | none => rfl
  | some m =>
    unfold preempt
    simp only [h.sharesTransactions (hmining m rfl), if_true, Option.isSome_some]

end IsCandidate

/-- **Candidates are complete, and can always be put on the chain.**  There is none exactly if
nothing waits.  Otherwise it stands on the last block of the chain, begins with the reward,
and goes on with exactly those that wait and have another name, in the order of their names,
however the pool is met.  No name is there twice, and none but that of the reward is
confirmed already.  With any nonce that meets the difficulty and is not on the chain it
extends the chain, whether nothing is being mined or a block with its transactions, such as
the candidate itself; then nothing waits any more. -/
theorem candidate_complete_and_applicable (hl : Reachable difficulty l) (reward : Transaction)
    (time : Timestamp) :
    (l.buildCandidate reward time = none ↔ l.pending.isEmpty = true) ∧
    ∀ b, l.buildCandidate reward time = some b →
      l.IsCandidate reward b ∧
      (∀ ts, ts.Perm l.pending.toList → b.transactions = reward ::
        (Catalog.sortByKey Transaction.name ts).filter fun t => t.name ≠ reward.name) ∧
      (b.transactions.map Transaction.name).Nodup ∧
      (∀ t ∈ b.transactions, t.name ≠ reward.name → l.confirms t.name = false) ∧
      ∀ nonce, nonce.Meets difficulty → (∀ c ∈ l.chain, c.nonce ≠ nonce) →
        ∀ mining, (∀ m ∈ mining, m.transactions = b.transactions) →
          (l.addBlock { b with nonce := nonce } mining).2 = .extended mining.isSome ∧
          (l.addBlock { b with nonce := nonce } mining).1.chain =
            l.chain ++ [{ b with nonce := nonce }] ∧
          (l.addBlock { b with nonce := nonce } mining).1.pending.isEmpty = true := by
  refine ⟨buildCandidate_eq_none_iff, fun b hb => ?_⟩
  have h := isCandidate_of_buildCandidate hb
  refine ⟨h, fun ts hts => h.transactions_eq hts, h.nodup_names,
    fun t ht hname => h.not_confirmed hl.apart ht hname, ?_⟩
  intro nonce hmeets hnew mining hmining
  have hown := h.with_nonce nonce
  rw [addBlock_of_current (hl.sound.difficulty_eq ▸ hmeets) hnew hown.previous_eq]
  refine ⟨?_, ?_, ?_⟩
  · exact congrArg BlockOutcome.extended (hown.preempt_snd hmining)
  · rw [extend_chain, preempt_chain]
  · exact hown.pending_extend hmining

/-- A reward with the name of a payment, which waits again since its block was cut off. -/
def namesake : Transaction := ⟨.zero, filled 1, 5, filled 7⟩

/-- A payment was cut off and waits again, next to one that came in since. -/
def afterRival : Ledger := (new 0).run (disputed ++ [.block rival none, .transaction (payment 9)])

/-- The reward takes the place of the payment with its name.  When the candidate comes back
while it is being mined, neither payment is left waiting. -/
theorem candidate_after_rival :
    Reachable 0 afterRival ∧ afterRival.pending.toList = [payment 7, payment 9] ∧
    ∃ b, afterRival.buildCandidate namesake default = some b ∧
      b.transactions = [namesake, payment 9] ∧
      (filled 40).Meets 0 ∧ (∀ c ∈ afterRival.chain, c.nonce ≠ filled 40) ∧
      (afterRival.addBlock { b with nonce := filled 40 } (some b)).2 = .extended true ∧
      (afterRival.addBlock { b with nonce := filled 40 } (some b)).1.pending.isEmpty = true := by
  have hreachable : Reachable 0 afterRival := ⟨_, rfl⟩
  have hpending : afterRival.pending.toList = [payment 7, payment 9] := by decide +kernel
  have hnew : ∀ c ∈ afterRival.chain, c.nonce ≠ filled 40 := by decide +kernel
  have hmeets : (filled 40).Meets 0 := by decide +kernel
  obtain ⟨hnone, hsome⟩ := candidate_complete_and_applicable hreachable namesake default
  obtain ⟨b, hb⟩ : ∃ b, afterRival.buildCandidate namesake default = some b := by
    rw [← Option.ne_none_iff_exists', Ne, hnone, Catalog.isEmpty, hpending]
    exact Bool.false_ne_true
  obtain ⟨-, hsorted, -, -, happlies⟩ := hsome b hb
  obtain ⟨hextended, -, hempty⟩ := happlies (filled 40) hmeets hnew (some b) (by rintro m ⟨⟩; rfl)
  refine ⟨hreachable, hpending, b, hb, ?_, hmeets, hnew, hextended, hempty⟩
  rw [hsorted _ (.refl _), Catalog.sortByKey_eq (.refl _) afterRival.pending.sorted, hpending]
  decide +kernel

end Ledger
end GossipLedger
