import GossipLedger.Proofs.Ledger.Outcomes
import Mathlib.Algebra.BigOperators.Group.Finset.Piecewise
import Mathlib.Algebra.Order.Group.Abs
import Mathlib.Algebra.Order.Group.Int

/-!
# Money

The money of a digest is what the transactions on the chain pay it, less what they take from
it.  A transaction gives to its output what it takes from its input, so whoever counts all
the digests that a chain names finds no money at all: the money that some have is what others
owe, the reward of a miner among it, which the digest of zero bytes owes.

The money is kept in a signed word of 64 bits and every amount in a word of 32, so a sum could
only leave its word after 2³¹ transactions.  The words are added one by one here
(`Ledger.balance64?`), and an addition that leaves the word would have no result.

## Main definitions

* `Ledger.transactions` — the transactions on the chain, with repetitions.
* `Ledger.received`, `Ledger.paid` — what some transactions pay a digest and take from it.
* `Ledger.net` — what they add to its money.
* `Ledger.balance64?` — the money of a digest, computed with words.
* `BlockOutcome.Exchanges` — what an outcome takes off the chain and what it appends.

## Main results

* `Ledger.sum_net` — transactions among some digests leave their money together as it is.
* `Ledger.fitsWord_net` — fewer than 2³¹ transactions stay in the word.
* `Ledger.exists_balance64?` — the sum of words is the money.
* `Ledger.Arrival.exchanges` — a block exchanges the end of the chain for other blocks.
* `Ledger.money_conserved` — **no block makes money or loses any.**
-/

namespace GossipLedger

/-- What an outcome takes off the end of the chain, and what it appends.  A reorganization puts
a side chain in the place of the blocks above the one that it stands on, an extension appends
the block that came, and nothing else touches the chain. -/
def BlockOutcome.Exchanges (b : Block) (l : Ledger) (gone added : List Block) :
    BlockOutcome → Prop
  | .extended _ => gone = [] ∧ added = [b]
  | .reorganized dropped _ => gone.length = dropped ∧
      ∃ s ∈ (l.park b).sideChains, gone = l.dropped s ∧ added = s.blocks
  | .invalid | .ignored | .stored => gone = [] ∧ added = []

namespace Ledger

variable {l m : Ledger} {b : Block} {mining : Option Block} {o : BlockOutcome}
variable {d : Digest} {t : Transaction} {ts us : List Transaction}

/-- The transactions on the chain, in their order and with repetitions. -/
def transactions (l : Ledger) : List Transaction := l.chain.flatMap Block.transactions

/-- The amounts of some transactions together. -/
def amounts (ts : List Transaction) : Nat := (ts.map fun t => t.amount.toNat).foldr (· + ·) 0

/-- What some transactions pay a digest. -/
def received (d : Digest) (ts : List Transaction) : Nat := amounts (ts.filter (·.output = d))

/-- What some transactions take from a digest. -/
def paid (d : Digest) (ts : List Transaction) : Nat := amounts (ts.filter (·.input = d))

/-- What some transactions add to the money of a digest. -/
def net (d : Digest) (ts : List Transaction) : Int := received d ts - paid d ts

theorem amounts_filter_cons (counts : Transaction → Bool) (t : Transaction)
    (ts : List Transaction) : amounts ((t :: ts).filter counts) =
      (if counts t then t.amount.toNat else 0) + amounts (ts.filter counts) := by
  rw [List.filter_cons]
  split
  next => rfl
  next => exact (zero_add _).symm

@[simp] theorem net_nil (d : Digest) : net d [] = 0 := rfl

/-- A transfer to oneself counts on both sides. -/
@[simp] theorem net_cons (d : Digest) (t : Transaction) (ts : List Transaction) :
    net d (t :: ts) = gain d t + net d ts := by
  simp only [net, received, paid, amounts_filter_cons, gain, decide_eq_true_eq]
  split <;> split <;> omega

@[simp] theorem net_append (d : Digest) (ts us : List Transaction) :
    net d (ts ++ us) = net d ts + net d us := by
  induction ts with
  | nil => exact (zero_add _).symm
  | cons t ts ih => rw [List.cons_append, net_cons, net_cons, ih, add_assoc]

/-- **The money of a digest** is what it received on the chain, less what it paid. -/
theorem balance_eq_net (l : Ledger) (d : Digest) : l.balance d = net d l.transactions := by
  unfold balance transactions
  induction l.chain.flatMap Block.transactions with
  | nil => rfl
  | cons t ts ih => rw [List.map_cons, List.foldr_cons, ih, net_cons]

/-! ### All money together -/

/-- A transaction among some digests leaves their money together as it is. -/
theorem sum_gain {D : Finset Digest} (hin : t.input ∈ D) (hout : t.output ∈ D) :
    ∑ d ∈ D, gain d t = 0 := by
  simp only [gain, Finset.sum_sub_distrib]
  rw [Finset.sum_ite_eq, Finset.sum_ite_eq, if_pos hout, if_pos hin, sub_self]

/-- **Transactions among some digests leave their money together as it is.** -/
theorem sum_net {D : Finset Digest} (hts : ∀ t ∈ ts, t.input ∈ D ∧ t.output ∈ D) :
    ∑ d ∈ D, net d ts = 0 := by
  induction ts with
  | nil => exact Finset.sum_const_zero
  | cons t ts ih =>
    obtain ⟨hin, hout⟩ := hts t List.mem_cons_self
    simp only [net_cons, Finset.sum_add_distrib]
    rw [sum_gain hin hout, ih fun u hu => hts u (List.mem_cons_of_mem t hu), add_zero]

/-- A digest that no transaction names has no money. -/
theorem net_eq_zero (hts : ∀ t ∈ ts, t.input ≠ d ∧ t.output ≠ d) : net d ts = 0 := by
  induction ts with
  | nil => rfl
  | cons t ts ih =>
    obtain ⟨hin, hout⟩ := hts t List.mem_cons_self
    rw [net_cons, ih fun u hu => hts u (List.mem_cons_of_mem t hu)]
    simp [gain, hin, hout]

/-! ### Words -/

/-- A number that a signed word of 64 bits holds. -/
def FitsWord (n : Int) : Prop := -2 ^ 63 ≤ n ∧ n < 2 ^ 63

instance (n : Int) : Decidable (FitsWord n) := inferInstanceAs (Decidable (_ ∧ _))

/-- The word of a number that fits. -/
def word? (n : Int) : Option Int64 := if FitsWord n then some (.ofInt n) else none

theorem exists_word? {n : Int} (h : FitsWord n) : ∃ w, word? n = some w ∧ w.toInt = n :=
  ⟨.ofInt n, if_pos h, Int64.toInt_ofInt_of_le h.1 h.2⟩

/-- What a transaction adds to the money of a digest, computed with words: the amount is added
for the output, and then taken away for the input. -/
def gain64? (d : Digest) (t : Transaction) : Option Int64 :=
  (if t.output = d then word? (0 + t.amount.toNat) else some 0).bind fun credit =>
    if t.input = d then word? (credit.toInt - t.amount.toNat) else some credit

/-- The sum of some gains from a word on, computed with words. -/
def total64? (d : Digest) (ts : List Transaction) (sum : Int64) : Option Int64 :=
  ts.foldlM (fun sum t => (gain64? d t).bind fun delta => word? (sum.toInt + delta.toInt)) sum

/-- The money of a digest on the chain, computed with words. -/
def balance64? (l : Ledger) (d : Digest) : Option Int64 := total64? d l.transactions 0

/-- An amount is a word of 32 bits. -/
theorem abs_gain_le (d : Digest) (t : Transaction) : |gain d t| ≤ 2 ^ 32 - 1 := by
  have hamount : t.amount.toNat < 2 ^ 32 := t.amount.toNat_lt
  rw [abs_le, gain]
  constructor <;> split <;> split <;> omega

theorem abs_net_le (d : Digest) (ts : List Transaction) :
    |net d ts| ≤ ts.length * (2 ^ 32 - 1) := by
  induction ts with
  | nil => simp
  | cons t ts ih =>
    calc |net d (t :: ts)| = |gain d t + net d ts| := by rw [net_cons]
      _ ≤ |gain d t| + |net d ts| := abs_add_le _ _
      _ ≤ (2 ^ 32 - 1) + ts.length * (2 ^ 32 - 1) := add_le_add (abs_gain_le d t) ih
      _ = (t :: ts).length * (2 ^ 32 - 1) := by
        rw [List.length_cons]
        omega

/-- **Fewer than 2³¹ transactions stay in the word.** -/
theorem fitsWord_net (d : Digest) (hfew : ts.length < 2 ^ 31) : FitsWord (net d ts) := by
  have hnet := abs_le.1 (abs_net_le d ts)
  constructor <;> omega

/-- The gain computed with words is the gain. -/
theorem exists_gain64? (d : Digest) (t : Transaction) :
    ∃ w, gain64? d t = some w ∧ w.toInt = gain d t := by
  have hamount : t.amount.toNat < 2 ^ 32 := t.amount.toNat_lt
  have hcredit : ∃ w : Int64,
      (if t.output = d then word? (0 + t.amount.toNat) else some 0) = some w ∧
        w.toInt = if t.output = d then (t.amount.toNat : Int) else 0 := by
    split
    next =>
      rw [zero_add]
      exact exists_word? (by constructor <;> omega)
    next => exact ⟨0, rfl, rfl⟩
  obtain ⟨credit, heq, hval⟩ := hcredit
  rw [gain64?, heq, Option.bind_some, gain, ← hval]
  split
  next =>
    refine exists_word? ?_
    rw [hval]
    constructor <;> split <;> omega
  next => exact ⟨credit, rfl, (sub_zero _).symm⟩

/-- If the sums on the way fit, then the sum of words is the sum. -/
theorem exists_total64? (d : Digest) (ts : List Transaction) (sum : Int64)
    (hfits : ∀ us, us <+: ts → FitsWord (sum.toInt + net d us)) :
    ∃ w, total64? d ts sum = some w ∧ w.toInt = sum.toInt + net d ts := by
  induction ts generalizing sum with
  | nil => exact ⟨sum, rfl, (add_zero _).symm⟩
  | cons t ts ih =>
    obtain ⟨delta, hdelta, hgain⟩ := exists_gain64? d t
    -- the first sum on the way
    have hfirst : FitsWord (sum.toInt + delta.toInt) := by
      have hone := hfits [t] (List.prefix_append [t] ts)
      rwa [net_cons, net_nil, add_zero, ← hgain] at hone
    obtain ⟨next, hnext, hval⟩ := exists_word? hfirst
    obtain ⟨w, hw, hsum⟩ := ih next fun us hus => by
      have hmore := hfits (t :: us) (List.cons_prefix_cons.2 ⟨rfl, hus⟩)
      rwa [net_cons, ← hgain, ← add_assoc, ← hval] at hmore
    refine ⟨w, ?_, ?_⟩
    · rw [total64?, List.foldlM_cons, hdelta, Option.bind_some, hnext]
      exact hw
    · rw [hsum, hval, hgain, net_cons, add_assoc]

/-- **The sum of words is the money**, on a chain of fewer than 2³¹ transactions. -/
theorem exists_balance64? (d : Digest) (hfew : l.transactions.length < 2 ^ 31) :
    ∃ w, l.balance64? d = some w ∧ w.toInt = l.balance d := by
  have hstart : Int64.toInt 0 = 0 := rfl
  obtain ⟨w, hw, hval⟩ := exists_total64? d l.transactions 0 fun us hus => by
    rw [hstart, zero_add]
    exact fitsWord_net d (hus.length_le.trans_lt hfew)
  rw [hstart, zero_add, ← balance_eq_net] at hval
  exact ⟨w, hw, hval⟩

/-! ### The money that a block moves -/

/-- A block exchanges the end of the chain for other blocks. -/
theorem Arrival.exchanges (harrival : Arrival l b mining m o) :
    ∃ kept gone added, o.Exchanges b l gone added ∧
      l.chain = kept ++ gone ∧ m.chain = kept ++ added := by
  cases harrival with
  | invalid | ignored =>
    exact ⟨l.chain, [], [], ⟨rfl, rfl⟩, (List.append_nil _).symm, (List.append_nil _).symm⟩
  | extended =>
    refine ⟨l.chain, [], [b], ⟨rfl, rfl⟩, (List.append_nil _).symm, ?_⟩
    rw [extend_chain, preempt_chain]
  | @reorganized s _ _ hover =>
    exact ⟨l.chain.take s.kept, l.dropped s, s.blocks,
      ⟨rfl, s, (mem_of_overtaking? hover).1, rfl, rfl⟩,
      (List.take_append_drop s.kept l.chain).symm, reorganize_chain s⟩
  | stored =>
    refine ⟨l.chain, [], [], ⟨rfl, rfl⟩, (List.append_nil _).symm, ?_⟩
    rw [park_chain, List.append_nil]

/-- Where the end of a chain gives place to other blocks, the money changes by what these add
and those have added. -/
theorem balance_exchange {kept gone added : List Block} (hold : l.chain = kept ++ gone)
    (hnew : m.chain = kept ++ added) (d : Digest) :
    m.balance d = l.balance d - net d (gone.flatMap Block.transactions)
      + net d (added.flatMap Block.transactions) := by
  simp only [balance_eq_net, transactions, hold, hnew, List.flatMap_append, net_append]
  omega

/-- **No block makes money or loses any.**  The money of a digest is what it received on the
chain, less what it paid.  The digests that the chain names have no money together, and any
other digest has none.  The sums of fewer than 2³¹ transactions never leave
the word, on the way either.  What is pooled, stands on a side chain or waits is no money.  A
block that comes changes the money of each digest by what the blocks add that it appends to
the chain, less what those had added that it takes off. -/
theorem money_conserved (l : Ledger) :
    (∀ d, l.balance d = received d l.transactions - paid d l.transactions) ∧
    (∀ D : Finset Digest, (∀ t ∈ l.transactions, t.input ∈ D ∧ t.output ∈ D) →
      ∑ d ∈ D, l.balance d = 0 ∧ ∀ d, d ∉ D → l.balance d = 0) ∧
    (l.transactions.length < 2 ^ 31 → ∀ d,
      (∀ ts, ts <+: l.transactions → FitsWord (net d ts)) ∧
      ∃ w, l.balance64? d = some w ∧ w.toInt = l.balance d) ∧
    (∀ pooled sideChains pending d,
      ({ l with pooled, sideChains, pending } : Ledger).balance d = l.balance d) ∧
    ∀ b mining, ∃ kept gone added,
      (l.addBlock b mining).2.Exchanges b l gone added ∧
      l.chain = kept ++ gone ∧ (l.addBlock b mining).1.chain = kept ++ added ∧
      ∀ d, (l.addBlock b mining).1.balance d = l.balance d
        - net d (gone.flatMap Block.transactions) + net d (added.flatMap Block.transactions) := by
  refine ⟨l.balance_eq_net, fun D hD => ⟨?_, fun d hd => ?_⟩, fun hfew d => ?_,
    fun _ _ _ _ => rfl, fun b mining => ?_⟩
  · simp only [balance_eq_net]
    exact sum_net hD
  · rw [balance_eq_net]
    refine net_eq_zero fun t ht => ?_
    obtain ⟨hin, hout⟩ := hD t ht
    exact ⟨ne_of_mem_of_not_mem hin hd, ne_of_mem_of_not_mem hout hd⟩
  · exact ⟨fun ts hts => fitsWord_net d (hts.length_le.trans_lt hfew), exists_balance64? d hfew⟩
  · obtain ⟨kept, gone, added, hout, hold, hnew⟩ := (l.addBlock_arrival b mining).exchanges
    exact ⟨kept, gone, added, hout, hold, hnew, balance_exchange hold hnew⟩

/-- A reward, a payment that is made twice, and a payment to oneself. -/
def spree : Block := ⟨.zero, filled 1, default, [⟨.zero, filled 7, 9, filled 21⟩,
  ⟨filled 7, filled 8, 4, filled 22⟩, ⟨filled 7, filled 8, 4, filled 22⟩,
  ⟨filled 7, filled 7, 3, filled 23⟩]⟩

/-- A payment on another branch. -/
def thrift : Block := ⟨.zero, filled 2, default, [⟨filled 8, filled 7, 6, filled 24⟩]⟩

/-- A branch of two blocks puts one payment in the place of everything that was paid. -/
theorem money_after_other_branch :
    let l := (new 0).run (arrivals [spree, thrift])
    let m := (l.addBlock (sample 2 3) none).1
    let D : Finset Digest := {.zero, filled 7, filled 8}
    (∀ t ∈ l.transactions, t.input ∈ D ∧ t.output ∈ D) ∧ l.transactions.length < 2 ^ 31 ∧
      ∑ d ∈ D, l.balance d = 0 ∧ l.balance (filled 9) = 0 ∧
      l.balance .zero = -9 ∧ l.balance (filled 7) = 1 ∧
      (∃ w, l.balance64? (filled 7) = some w ∧ w.toInt = 1) ∧
      (l.addBlock (sample 2 3) none).2 = .reorganized 1 (firstOfEachName spree.transactions) ∧
      (∃ kept gone added, l.chain = kept ++ gone ∧ m.chain = kept ++ added ∧
        gone.length = 1 ∧
        m.balance (filled 7) = 1 - net (filled 7) (gone.flatMap Block.transactions)
          + net (filled 7) (added.flatMap Block.transactions)) ∧
      m.balance (filled 7) = 6 := by
  intro l m D
  have hamong : ∀ t ∈ l.transactions, t.input ∈ D ∧ t.output ∈ D := by decide +kernel
  have hfew : l.transactions.length < 2 ^ 31 := by decide +kernel
  have hone : l.balance (filled 7) = 1 := by decide +kernel
  have hout : (l.addBlock (sample 2 3) none).2 =
      .reorganized 1 (firstOfEachName spree.transactions) := by decide +kernel
  obtain ⟨-, htogether, hword, -, hblock⟩ := money_conserved l
  obtain ⟨hzero, hother⟩ := htogether D hamong
  obtain ⟨w, hw, hval⟩ := (hword hfew (filled 7)).2
  obtain ⟨kept, gone, added, hexch, hold, hnew, hmoved⟩ := hblock (sample 2 3) none
  rw [hout] at hexch
  refine ⟨hamong, hfew, hzero, hother _ (by decide +kernel), by decide +kernel, hone,
    ⟨w, hw, hval.trans hone⟩, hout, ⟨kept, gone, added, hold, hnew, hexch.1, ?_⟩,
    by decide +kernel⟩
  rw [← hone]
  exact hmoved (filled 7)

end Ledger
end GossipLedger
