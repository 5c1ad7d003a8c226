import GossipLedger.Proofs.Ledger.Steps

/-!
# Transactions that wait and transactions that are confirmed

A name is either waiting or confirmed, never both, and once it is one of the two it
stays one of the two.  A block on top takes its names from those that wait.  When the
chain is cut back, the names of the dropped blocks wait again before the side chain
is put in their place, so that none is lost on the way.

## Main definitions

* `Ledger.Apart` — no name both waits and is confirmed.
* `Ledger.Remembers` — what one ledger knows another knows as well.

## Main results

* `Ledger.Arrival.apart`, `Ledger.Arrival.remembers` — what a block does to both.
* `Ledger.apart_run_and_knows_run` — **no transaction is lost or held twice.**
-/

namespace GossipLedger
namespace Ledger

variable {l m : Ledger}

/-- No name both waits and is confirmed. -/
def Apart (l : Ledger) : Prop := ∀ n, l.pending.contains n = true → l.confirms n = false

/-- Every name that waits or is confirmed in one ledger does so in the other. -/
def Remembers (l m : Ledger) : Prop := ∀ n, l.knows n = true → m.knows n = true

theorem Remembers.refl (l : Ledger) : l.Remembers l := fun _ h => h

theorem Remembers.trans {k : Ledger} (h : k.Remembers l) (h' : l.Remembers m) : k.Remembers m :=
  fun n hn => h' n (h n hn)

/-- Names are kept by a step after which those that waited wait or are confirmed, and
those that were confirmed too. -/
theorem Remembers.of_parts (hwait : ∀ n, l.pending.contains n = true → m.knows n = true)
    (hconf : ∀ n, l.confirms n = true → m.knows n = true) : l.Remembers m := by
  intro n hn
  rcases knows_iff.1 hn with h | h
  · exact hwait n h
  · exact hconf n h

theorem apart_new (difficulty : Nat) : (new difficulty).Apart := by
  intro n _
  rfl

/-! ### Transactions that come in or are sent back -/

theorem apart_requeue (ts : List Transaction) (h : l.Apart) : (l.requeue ts).Apart := by
  intro n hn
  have hsame : (l.requeue ts).confirms n = l.confirms n := by rw [confirms, requeue_chain]; rfl
  rw [hsame]
  rcases contains_requeue.1 hn with hn | ⟨hn, -⟩
  · exact h n hn
  · exact hn

theorem remembers_requeue (l : Ledger) (ts : List Transaction) : l.Remembers (l.requeue ts) := by
  refine .of_parts (fun n hn => ?_) (fun n hn => ?_)
  · exact knows_iff.2 (Or.inl (contains_requeue.2 (Or.inl hn)))
  · refine knows_iff.2 (Or.inr ?_)
    rw [confirms, requeue_chain]
    exact hn

theorem apart_addTransaction (t : Transaction) (h : l.Apart) : (l.addTransaction t).Apart := by
  rcases l.addTransaction_eq t with heq | ⟨hnew, heq⟩
  · rw [heq]
    exact h
  · rw [heq]
    intro n hn
    rcases Catalog.contains_add.1 hn with hn | rfl
    · exact h n hn
    · -- a name that was not known is not confirmed
      have hboth := Bool.or_eq_false_iff.1 hnew
      exact hboth.2

theorem remembers_addTransaction (l : Ledger) (t : Transaction) :
    l.Remembers (l.addTransaction t) := by
  rcases l.addTransaction_eq t with heq | ⟨-, heq⟩
  · rw [heq]
    exact .refl l
  · rw [heq]
    refine .of_parts (fun n hn => ?_) (fun n hn => ?_)
    · exact knows_iff.2 (Or.inl (Catalog.contains_add.2 (Or.inl hn)))
    · exact knows_iff.2 (Or.inr hn)

/-! ### Blocks on top -/

theorem apart_extend (b : Block) (h : l.Apart) : (l.extend b).Apart := by
  intro n hn
  obtain ⟨hwait, hb⟩ := contains_extend.1 hn
  rw [← Bool.not_eq_true, confirms_extend]
  rintro (hconf | hconf)
  · rw [h n hwait] at hconf
    exact absurd hconf (by simp)
  · rw [hb] at hconf
    exact absurd hconf (by simp)

theorem remembers_extend (l : Ledger) (b : Block) : l.Remembers (l.extend b) := by
  refine .of_parts (fun n hn => ?_) (fun n hn => ?_)
  · -- a name that waits goes on to wait unless the block confirms it
    cases hb : b.confirms n with
    | true => exact knows_iff.2 (Or.inr (confirms_extend.2 (Or.inr hb)))
    | false => exact knows_iff.2 (Or.inl (contains_extend.2 ⟨hn, hb⟩))
  · exact knows_iff.2 (Or.inr (confirms_extend.2 (Or.inl hn)))

theorem apart_foldl_extend (bs : List Block) (h : l.Apart) : (bs.foldl extend l).Apart := by
  induction bs generalizing l with
  | nil => exact h
  | cons b bs ih => exact ih (apart_extend b h)

theorem remembers_foldl_extend (l : Ledger) (bs : List Block) :
    l.Remembers (bs.foldl extend l) := by
  induction bs generalizing l with
  | nil => exact .refl l
  | cons b bs ih => exact (remembers_extend l b).trans (ih (l.extend b))

/-! ### Reorganizations -/

/-- What remains of the chain confirms no more than all of it. -/
theorem confirms_of_confirms_cutBack {s : SideChain} {n : Digest}
    (h : (l.cutBack s).confirms n = true) : l.confirms n = true := by
  obtain ⟨b, hb, hn⟩ := confirms_iff.1 h
  rw [cutBack_chain] at hb
  exact confirms_iff.2 ⟨b, List.mem_of_mem_take hb, hn⟩

theorem apart_cutBack (s : SideChain) (h : l.Apart) : (l.cutBack s).Apart := by
  intro n hn
  rcases contains_cutBack.1 hn with hn | ⟨hn, -⟩
  · rw [← Bool.not_eq_true]
    intro hconf
    have hfull := confirms_of_confirms_cutBack hconf
    rw [h n hn] at hfull
    exact absurd hfull (by simp)
  · exact hn

/-- **Nothing is lost when the chain is cut back**: a name that was confirmed is still
confirmed below the cut, or it waits again. -/
theorem remembers_cutBack (l : Ledger) (s : SideChain) : l.Remembers (l.cutBack s) := by
  refine .of_parts (fun n hn => ?_) (fun n hn => ?_)
  · exact knows_iff.2 (Or.inl (contains_cutBack.2 (Or.inl hn)))
  · obtain ⟨b, hb, hbn⟩ := confirms_iff.1 hn
    -- confirmed below the cut it stays so, confirmed above only it waits again
    cases hrest : (l.cutBack s).confirms n with
    | true => exact knows_iff.2 (Or.inr hrest)
    | false =>
      rw [← List.take_append_drop s.kept l.chain] at hb
      rcases List.mem_append.1 hb with hb | hb
      · have hkept : (l.cutBack s).confirms n = true :=
          confirms_iff.2 ⟨b, by rw [cutBack_chain]; exact hb, hbn⟩
        rw [hrest] at hkept
        exact absurd hkept (by simp)
      · exact knows_iff.2 (Or.inl (contains_cutBack.2 (Or.inr ⟨hrest, b, hb, hbn⟩)))

theorem apart_reorganize (s : SideChain) (h : l.Apart) : (l.reorganize s).1.Apart :=
  apart_foldl_extend s.blocks (apart_cutBack s h)

theorem remembers_reorganize (l : Ledger) (s : SideChain) :
    l.Remembers (l.reorganize s).1 :=
  (remembers_cutBack l s).trans (remembers_foldl_extend _ s.blocks)

/-! ### Every operation -/

theorem apart_preempt (b : Block) (mining : Option Block) (h : l.Apart) :
    (l.preempt b mining).1.Apart := by
  rcases l.preempt_eq b mining with heq | ⟨m, -, heq⟩
  · rw [heq]
    exact h
  · rw [heq]
    exact apart_requeue _ h

theorem remembers_preempt (l : Ledger) (b : Block) (mining : Option Block) :
    l.Remembers (l.preempt b mining).1 := by
  rcases l.preempt_eq b mining with heq | ⟨m, -, heq⟩
  · rw [heq]
    exact .refl l
  · rw [heq]
    exact remembers_requeue l _

/-- Whatever becomes of a block, names that wait and confirmed names stay apart. -/
theorem Arrival.apart {b : Block} {mining : Option Block} {o : BlockOutcome}
    (harrival : Arrival l b mining m o) (h : l.Apart) : m.Apart := by
  cases harrival with
  | invalid => exact h
  | ignored => exact h
  | extended => exact apart_extend b (apart_preempt b mining h)
  | reorganized => exact apart_reorganize _ h
  | stored => exact h

/-- Whatever becomes of a block, no name is forgotten. -/
theorem Arrival.remembers {b : Block} {mining : Option Block} {o : BlockOutcome}
    (harrival : Arrival l b mining m o) : l.Remembers m := by
  cases harrival with
  | invalid => exact .refl l
  | ignored => exact .refl l
  | extended => exact (remembers_preempt l b mining).trans (remembers_extend _ b)
  | reorganized => exact remembers_reorganize (l.park b) _
  | stored => exact .refl l

theorem apart_apply (op : Op) (h : l.Apart) : (l.apply op).Apart := by
  cases op with
  | transaction t => exact apart_addTransaction t h
  | block b mining => exact (l.addBlock_arrival b mining).apart h
  | rebuild => exact h

theorem remembers_apply (l : Ledger) (op : Op) : l.Remembers (l.apply op) := by
  cases op with
  | transaction t => exact remembers_addTransaction l t
  | block b mining => exact (l.addBlock_arrival b mining).remembers
  | rebuild => exact .refl l

theorem remembers_run (l : Ledger) (ops : List Op) : l.Remembers (l.run ops) := by
  induction ops generalizing l with
  | nil => exact .refl l
  | cons op ops ih => exact (remembers_apply l op).trans (ih (l.apply op))

theorem apart_run (difficulty : Nat) (ops : List Op) : ((new difficulty).run ops).Apart :=
  run_keeps (P := Apart) (fun _ op h => apart_apply op h) ops (apart_new difficulty)

theorem Reachable.apart {difficulty : Nat} (h : Reachable difficulty l) : l.Apart := by
  obtain ⟨ops, rfl⟩ := h
  exact apart_run difficulty ops

/-- **No transaction is lost or held twice**: after any sequence of operations no name
both waits and is confirmed, and whatever operations follow, a name that waits or is
confirmed goes on to wait or to be confirmed. -/
theorem apart_run_and_knows_run (difficulty : Nat) (ops : List Op) :
    (∀ n, ¬(((new difficulty).run ops).pending.contains n = true ∧
        ((new difficulty).run ops).confirms n = true)) ∧
      ∀ more n, ((new difficulty).run ops).knows n = true →
        (((new difficulty).run ops).run more).knows n = true := by
  constructor
  · rintro n ⟨hwait, hconf⟩
    rw [apart_run difficulty ops n hwait] at hconf
    exact absurd hconf (by simp)
  · intro more n hn
    exact remembers_run _ more n hn

end Ledger
end GossipLedger
