import GossipLedger.Proofs.Ledger.Branches

/-!
# What the operations of a ledger do

Each operation is described once, by what it does to the chain, to the pooled blocks
and to the names that wait, so that no later proof looks into it again.  What can
become of a block is an inductive relation with one rule for each outcome.

## Main definitions

* `Ledger.Arrival` — what can become of a block, and why.
* `Ledger.Op`, `Ledger.run` — the operations of a ledger, and sequences of them.
* `Ledger.Reachable` — what a ledger can become.

## Main results

* `Ledger.contains_requeue`, `Ledger.contains_extend`, `Ledger.contains_cutBack` —
  the names that wait after each step.
* `Ledger.fits_of_overtaking?` — a side chain that overtakes fits.
* `Ledger.addBlock_arrival` — **a block has one of the five outcomes, for its reason.**
* `Ledger.run_keeps` — what every operation keeps is kept by any sequence.
-/

namespace GossipLedger

theorem Block.confirms_iff {b : Block} {n : Digest} :
    b.confirms n = true ↔ ∃ t ∈ b.transactions, t.name = n := by
  simp [Block.confirms]

namespace Ledger

variable {l : Ledger}

theorem confirms_iff {n : Digest} :
    l.confirms n = true ↔ ∃ b ∈ l.chain, b.confirms n = true := by
  simp [confirms]

theorem knows_iff {n : Digest} :
    l.knows n = true ↔ l.pending.contains n = true ∨ l.confirms n = true := by
  simp [knows]

/-! ### Transactions that wait -/

theorem addTransaction_eq (l : Ledger) (t : Transaction) :
    l.addTransaction t = l ∨
      l.knows t.name = false ∧ l.addTransaction t = { l with pending := l.pending.add t } := by
  unfold addTransaction
  split
  next => exact Or.inl rfl
  next h => exact Or.inr ⟨by simpa using h, rfl⟩

@[simp] theorem addTransaction_chain (t : Transaction) : (l.addTransaction t).chain = l.chain := by
  rcases l.addTransaction_eq t with h | ⟨-, h⟩ <;> rw [h]

@[simp] theorem addTransaction_pooled (t : Transaction) :
    (l.addTransaction t).pooled = l.pooled := by
  rcases l.addTransaction_eq t with h | ⟨-, h⟩ <;> rw [h]

@[simp] theorem addTransaction_difficulty (t : Transaction) :
    (l.addTransaction t).difficulty = l.difficulty := by
  rcases l.addTransaction_eq t with h | ⟨-, h⟩ <;> rw [h]

theorem mem_of_mem_addTransaction {t u : Transaction}
    (h : u ∈ (l.addTransaction t).pending.toList) : u ∈ l.pending.toList ∨ u = t := by
  rcases l.addTransaction_eq t with heq | ⟨-, heq⟩
  · rw [heq] at h
    exact Or.inl h
  · rw [heq] at h
    exact Catalog.mem_of_mem_add h

/-- What waits still waits when a transaction has come in. -/
theorem mem_addTransaction_of_mem {t u : Transaction} (hu : u ∈ l.pending.toList) :
    u ∈ (l.addTransaction t).pending.toList := by
  rcases l.addTransaction_eq t with h | ⟨-, h⟩
  · rw [h]
    exact hu
  · rw [h]
    exact Catalog.mem_add_of_mem hu

/-- Sending transactions back changes nothing but the ones that wait. -/
theorem requeue_eq (l : Ledger) (ts : List Transaction) :
    l.requeue ts = { l with pending := (l.requeue ts).pending } := by
  unfold requeue
  induction ts generalizing l with
  | nil => rfl
  | cons t ts ih =>
    rw [List.foldl_cons]
    split
    next => exact ih l
    next => exact ih _

@[simp] theorem requeue_chain (ts : List Transaction) : (l.requeue ts).chain = l.chain := by
  rw [requeue_eq]

@[simp] theorem requeue_pooled (ts : List Transaction) : (l.requeue ts).pooled = l.pooled := by
  rw [requeue_eq]

@[simp] theorem requeue_difficulty (ts : List Transaction) :
    (l.requeue ts).difficulty = l.difficulty := by
  rw [requeue_eq]

/-- **The names that wait after transactions were sent back**: theirs too, unless
they are confirmed. -/
theorem contains_requeue {ts : List Transaction} {n : Digest} :
    (l.requeue ts).pending.contains n = true ↔
      l.pending.contains n = true ∨ l.confirms n = false ∧ ∃ t ∈ ts, t.name = n := by
  unfold requeue
  induction ts generalizing l with
  | nil => simp
  | cons t ts ih =>
    rw [List.foldl_cons, ih]
    split
    next h =>
      -- a confirmed transaction is passed over, so its name does not matter
      constructor
      · rintro (hl | ⟨hn, u, hu, rfl⟩)
        · exact Or.inl hl
        · exact Or.inr ⟨hn, u, List.mem_cons_of_mem _ hu, rfl⟩
      · rintro (hl | ⟨hn, u, hu, rfl⟩)
        · exact Or.inl hl
        · rcases List.mem_cons.1 hu with rfl | hu
          · rw [h] at hn
            exact absurd hn (by simp)
          · exact Or.inr ⟨hn, u, hu, rfl⟩
    next h =>
      show (l.pending.add t).contains n = true ∨ l.confirms n = false ∧ (∃ u ∈ ts, u.name = n) ↔ _
      rw [Catalog.contains_add]
      constructor
      · rintro ((hl | rfl) | ⟨hn, u, hu, rfl⟩)
        · exact Or.inl hl
        · exact Or.inr ⟨by simpa using h, t, List.mem_cons_self, rfl⟩
        · exact Or.inr ⟨hn, u, List.mem_cons_of_mem _ hu, rfl⟩
      · rintro (hl | ⟨hn, u, hu, rfl⟩)
        · exact Or.inl (Or.inl hl)
        · rcases List.mem_cons.1 hu with rfl | hu
          · exact Or.inl (Or.inr rfl)
          · exact Or.inr ⟨hn, u, hu, rfl⟩

/-- The transactions that wait afterwards waited before or were sent back. -/
theorem mem_of_mem_requeue {ts : List Transaction} {t : Transaction}
    (h : t ∈ (l.requeue ts).pending.toList) : t ∈ l.pending.toList ∨ t ∈ ts := by
  unfold requeue at h
  induction ts generalizing l with
  | nil => exact Or.inl h
  | cons u us ih =>
    rw [List.foldl_cons] at h
    rcases ih h with h | h
    · split at h
      next => exact Or.inl h
      next =>
        rcases Catalog.mem_of_mem_add h with h | rfl
        · exact Or.inl h
        · exact Or.inr List.mem_cons_self
    · exact Or.inr (List.mem_cons_of_mem _ h)

/-! ### A block on top -/

@[simp] theorem extend_chain (b : Block) : (l.extend b).chain = l.chain ++ [b] := rfl

@[simp] theorem extend_pooled (b : Block) : (l.extend b).pooled = l.pooled := rfl

theorem contains_extend {b : Block} {n : Digest} :
    (l.extend b).pending.contains n = true ↔
      l.pending.contains n = true ∧ b.confirms n = false := by
  show (l.pending.filter fun t => !b.confirms t.name).contains n = true ↔ _
  rw [Catalog.contains_filter (q := fun n => !b.confirms n) fun t => rfl]
  simp

theorem confirms_extend {b : Block} {n : Digest} :
    (l.extend b).confirms n = true ↔ l.confirms n = true ∨ b.confirms n = true := by
  simp [confirms]

theorem mem_of_mem_extend {b : Block} {t : Transaction}
    (h : t ∈ (l.extend b).pending.toList) : t ∈ l.pending.toList :=
  (Catalog.mem_filter.1 h).1

@[simp] theorem foldl_extend_chain (bs : List Block) :
    (bs.foldl extend l).chain = l.chain ++ bs := by
  induction bs generalizing l with
  | nil => simp
  | cons b bs ih => rw [List.foldl_cons, ih, extend_chain, List.append_assoc, List.singleton_append]

@[simp] theorem foldl_extend_pooled (bs : List Block) : (bs.foldl extend l).pooled = l.pooled := by
  induction bs generalizing l with
  | nil => rfl
  | cons b bs ih => exact ih

@[simp] theorem foldl_extend_difficulty (bs : List Block) :
    (bs.foldl extend l).difficulty = l.difficulty := by
  induction bs generalizing l with
  | nil => rfl
  | cons b bs ih => exact ih

/-- What waits after several blocks came on top of the chain: what none of them confirms. -/
theorem mem_foldl_extend {bs : List Block} {t : Transaction} :
    t ∈ (bs.foldl extend l).pending.toList ↔
      t ∈ l.pending.toList ∧ ∀ b ∈ bs, b.confirms t.name = false := by
  induction bs generalizing l with
  | nil => simp
  | cons b bs ih =>
    have hextend : t ∈ (l.extend b).pending.toList ↔
        t ∈ l.pending.toList ∧ b.confirms t.name = false := by
      show t ∈ (l.pending.filter fun u => !b.confirms u.name).toList ↔ _
      rw [Catalog.mem_filter]
      simp
    rw [List.foldl_cons, ih, hextend]
    simp [and_assoc]

theorem mem_of_mem_foldl_extend {bs : List Block} {t : Transaction}
    (h : t ∈ (bs.foldl extend l).pending.toList) : t ∈ l.pending.toList := (mem_foldl_extend.1 h).1

/-- The names that wait after several blocks came on top of the chain. -/
theorem contains_foldl_extend {bs : List Block} {n : Digest} :
    (bs.foldl extend l).pending.contains n = true ↔
      l.pending.contains n = true ∧ ∀ b ∈ bs, b.confirms n = false := by
  rw [Catalog.contains_iff, Catalog.contains_iff]
  constructor
  · rintro ⟨t, ht, rfl⟩
    obtain ⟨hold, hnone⟩ := mem_foldl_extend.1 ht
    exact ⟨⟨t, hold, rfl⟩, hnone⟩
  · rintro ⟨⟨t, ht, rfl⟩, hnone⟩
    exact ⟨t, mem_foldl_extend.2 ⟨ht, hnone⟩, rfl⟩

/-! ### Cutting back and splicing -/

@[simp] theorem cutBack_chain (s : SideChain) : (l.cutBack s).chain = l.chain.take s.kept := by
  rw [cutBack, requeue_chain]

@[simp] theorem cutBack_pooled (s : SideChain) :
    (l.cutBack s).pooled = (l.dropped s).foldl Catalog.add l.pooled := by
  rw [cutBack, requeue_pooled]

@[simp] theorem cutBack_difficulty (s : SideChain) : (l.cutBack s).difficulty = l.difficulty := by
  rw [cutBack, requeue_difficulty]

/-- **The names that wait after the chain was cut back**: those of the dropped
blocks too, unless the rest of the chain confirms them. -/
theorem contains_cutBack {s : SideChain} {n : Digest} :
    (l.cutBack s).pending.contains n = true ↔
      l.pending.contains n = true ∨
        (l.cutBack s).confirms n = false ∧ ∃ b ∈ l.dropped s, b.confirms n = true := by
  have hnames : (∃ t ∈ (l.dropped s).flatMap Block.transactions, t.name = n) ↔
      ∃ b ∈ l.dropped s, b.confirms n = true := by
    simp only [List.mem_flatMap, Block.confirms_iff]
    constructor
    · rintro ⟨t, ⟨b, hb, ht⟩, rfl⟩
      exact ⟨b, hb, t, ht, rfl⟩
    · rintro ⟨b, hb, t, ht, rfl⟩
      exact ⟨t, ⟨b, hb, ht⟩, rfl⟩
  unfold cutBack
  rw [contains_requeue, hnames]
  simp [confirms]

theorem mem_of_mem_cutBack {s : SideChain} {t : Transaction}
    (h : t ∈ (l.cutBack s).pending.toList) :
    t ∈ l.pending.toList ∨ ∃ b ∈ l.chain, t ∈ b.transactions := by
  rcases mem_of_mem_requeue h with h | h
  · exact Or.inl h
  · obtain ⟨b, hb, ht⟩ := List.mem_flatMap.1 h
    exact Or.inr ⟨b, List.mem_of_mem_drop hb, ht⟩

@[simp] theorem reorganize_chain (s : SideChain) :
    (l.reorganize s).1.chain = l.chain.take s.kept ++ s.blocks := by
  show (s.blocks.foldl extend (l.cutBack s)).chain = _
  rw [foldl_extend_chain, cutBack_chain]

@[simp] theorem reorganize_pooled (s : SideChain) :
    (l.reorganize s).1.pooled = (l.dropped s).foldl Catalog.add l.pooled := by
  show (s.blocks.foldl extend (l.cutBack s)).pooled = _
  rw [foldl_extend_pooled, cutBack_pooled]

@[simp] theorem reorganize_difficulty (s : SideChain) :
    (l.reorganize s).1.difficulty = l.difficulty := by
  show (s.blocks.foldl extend (l.cutBack s)).difficulty = _
  rw [foldl_extend_difficulty, cutBack_difficulty]

@[simp] theorem reorganize_pending (s : SideChain) :
    (l.reorganize s).1.pending = (s.blocks.foldl extend (l.cutBack s)).pending := rfl

theorem reorganize_outcome (s : SideChain) : ∃ requeued,
    (l.reorganize s).2 = .reorganized (l.dropped s).length requeued := ⟨_, rfl⟩

/-! ### Blocks that are parked -/

@[simp] theorem park_chain (b : Block) : (l.park b).chain = l.chain := rfl

@[simp] theorem park_pooled (b : Block) : (l.park b).pooled = l.pooled.add b := rfl

theorem longerOf_eq_some (best : Option SideChain) (s : SideChain) :
    ∃ t, longerOf best s = some t ∧ (best = some t ∨ t = s) := by
  cases best with
  | none => exact ⟨s, rfl, Or.inr rfl⟩
  | some b =>
    by_cases h : b.blocks.length ≤ s.blocks.length
    · exact ⟨s, if_pos h, Or.inr rfl⟩
    · exact ⟨b, if_neg h, Or.inl rfl⟩

theorem eq_nil_of_foldl_longerOf {ss : List SideChain} {best : Option SideChain}
    (h : ss.foldl longerOf best = none) : best = none ∧ ss = [] := by
  induction ss generalizing best with
  | nil => exact ⟨h, rfl⟩
  | cons s ss ih =>
    obtain ⟨t, ht, -⟩ := longerOf_eq_some best s
    have := (ih h).1
    rw [ht] at this
    exact absurd this (by simp)

theorem mem_of_foldl_longerOf {ss : List SideChain} {best : Option SideChain} {s : SideChain}
    (h : ss.foldl longerOf best = some s) : best = some s ∨ s ∈ ss := by
  induction ss generalizing best with
  | nil => exact Or.inl h
  | cons t ss ih =>
    obtain ⟨u, hu, hut⟩ := longerOf_eq_some best t
    rcases ih h with hs | hs
    · obtain rfl : u = s := Option.some.inj (hu.symm.trans hs)
      rcases hut with hut | rfl
      · exact Or.inl hut
      · exact Or.inr List.mem_cons_self
    · exact Or.inr (List.mem_cons_of_mem _ hs)

/-- The side chain that replaces is one of those that overtake. -/
theorem mem_of_overtaking? {s : SideChain} (h : l.overtaking? = some s) :
    s ∈ l.sideChains ∧ s.Overtakes l.chain.length := by
  rcases mem_of_foldl_longerOf h with h | h
  · exact absurd h (by simp)
  · obtain ⟨hs, hover⟩ := List.mem_filter.1 h
    exact ⟨hs, of_decide_eq_true hover⟩

/-- If none replaces, none overtakes. -/
theorem not_overtakes_of_overtaking? (h : l.overtaking? = none) {s : SideChain}
    (hs : s ∈ l.sideChains) : ¬s.Overtakes l.chain.length := by
  intro hover
  have hnil := (eq_nil_of_foldl_longerOf h).2
  have hmem : s ∈ l.sideChains.filter fun s => s.Overtakes l.chain.length :=
    List.mem_filter.2 ⟨hs, decide_eq_true hover⟩
  rw [hnil] at hmem
  exact absurd hmem List.not_mem_nil

/-- **A side chain that overtakes once a block is parked fits.** -/
theorem fits_of_overtaking? {b : Block} {s : SideChain} (h : (l.park b).overtaking? = some s) :
    s.Fits l.chain (l.pooled.add b) := fits_of_mem_sideChains (mem_of_overtaking? h).1

/-! ### What becomes of a block -/

/-- The transactions of a preempted attempt go back; nothing else changes. -/
theorem preempt_eq (l : Ledger) (b : Block) (mining : Option Block) :
    (l.preempt b mining).1 = l ∨ ∃ m, mining = some m ∧
      (l.preempt b mining).1 = l.requeue (m.transactions.filter fun t => !t.isCoinbase) := by
  cases mining with
  | none => exact Or.inl rfl
  | some m =>
    unfold preempt
    simp only
    split
    next => exact Or.inr ⟨m, rfl, rfl⟩
    next => exact Or.inl rfl

@[simp] theorem preempt_chain (b : Block) (mining : Option Block) :
    (l.preempt b mining).1.chain = l.chain := by
  rcases l.preempt_eq b mining with h | ⟨m, -, h⟩ <;> simp [h]

@[simp] theorem preempt_pooled (b : Block) (mining : Option Block) :
    (l.preempt b mining).1.pooled = l.pooled := by
  rcases l.preempt_eq b mining with h | ⟨m, -, h⟩ <;> simp [h]

@[simp] theorem preempt_difficulty (b : Block) (mining : Option Block) :
    (l.preempt b mining).1.difficulty = l.difficulty := by
  rcases l.preempt_eq b mining with h | ⟨m, -, h⟩ <;> simp [h]

theorem mem_of_mem_preempt {b : Block} {mining : Option Block} {t : Transaction}
    (h : t ∈ (l.preempt b mining).1.pending.toList) :
    t ∈ l.pending.toList ∨ ∃ m, mining = some m ∧ t ∈ m.transactions := by
  rcases l.preempt_eq b mining with heq | ⟨m, hm, heq⟩
  · rw [heq] at h
    exact Or.inl h
  · rw [heq] at h
    rcases mem_of_mem_requeue h with h | h
    · exact Or.inl h
    · exact Or.inr ⟨m, hm, List.mem_of_mem_filter h⟩

/-- What can become of a block, each outcome with its reason. -/
inductive Arrival (l : Ledger) (b : Block) (mining : Option Block) : Ledger → BlockOutcome → Prop
  /-- The nonce does not show enough work. -/
  | invalid : ¬b.Meets l.difficulty → Arrival l b mining l .invalid
  /-- The nonce is known. -/
  | ignored : b.Meets l.difficulty → l.kindOf b = .old → Arrival l b mining l .ignored
  /-- The block stands on top of the chain. -/
  | extended : b.Meets l.difficulty → (∀ c ∈ l.chain, c.nonce ≠ b.nonce) →
      b.previous = l.headHash → Arrival l b mining ((l.preempt b mining).1.extend b)
        (.extended (l.preempt b mining).2)
  /-- The block is pooled, and a side chain overtakes. -/
  | reorganized {s : SideChain} : b.Meets l.difficulty → l.kindOf b = .unknownParent →
      (l.park b).overtaking? = some s →
      Arrival l b mining ((l.park b).reorganize s).1 ((l.park b).reorganize s).2
  /-- The block is pooled, and no side chain overtakes. -/
  | stored : b.Meets l.difficulty → l.kindOf b = .unknownParent → (l.park b).overtaking? = none →
      Arrival l b mining (l.park b) .stored

theorem kindOf_eq_current {b : Block} :
    l.kindOf b = .current ↔ (∀ c ∈ l.chain, c.nonce ≠ b.nonce) ∧ b.previous = l.headHash := by
  rw [← onChain_eq_false_iff]
  unfold kindOf
  split
  next h => simp [h]
  next h =>
    split
    next hp => simpa [hp] using h
    next hp => split <;> simp [hp]

theorem kindOf_eq_unknownParent {b : Block} :
    l.kindOf b = .unknownParent ↔ (∀ c ∈ l.chain, c.nonce ≠ b.nonce) ∧
      b.previous ≠ l.headHash ∧ l.pooled.contains b.nonce = false := by
  rw [← onChain_eq_false_iff]
  unfold kindOf
  split
  next h => simp [h]
  next h =>
    split
    next hp => simp [hp]
    next hp =>
      split
      next hc => simp [hc]
      next hc => simpa [hp, hc] using h

theorem kindOf_eq_old {b : Block} :
    l.kindOf b = .old ↔ (∃ c ∈ l.chain, c.nonce = b.nonce) ∨
      (l.pooled.contains b.nonce = true ∧ b.previous ≠ l.headHash) := by
  have hon : onChain l.chain b.nonce = true ↔ ∃ c ∈ l.chain, c.nonce = b.nonce := by
    rw [← Bool.not_eq_false, onChain_eq_false_iff]
    push Not
    rfl
  unfold kindOf
  rw [← hon]
  split
  next h => simp [h]
  next h =>
    split
    next hp => simp [hp, h]
    next hp =>
      split
      next hc => simp [hp, hc]
      next hc => simp [h, hc]

/-- A block on top of the chain that shows enough work extends it. -/
theorem addBlock_of_current {b : Block} (hmeets : b.Meets l.difficulty)
    (hnew : ∀ c ∈ l.chain, c.nonce ≠ b.nonce) (hprev : b.previous = l.headHash)
    (mining : Option Block) :
    l.addBlock b mining =
      ((l.preempt b mining).1.extend b, .extended (l.preempt b mining).2) := by
  have hcurrent : l.kindOf b = .current := kindOf_eq_current.2 ⟨hnew, hprev⟩
  unfold addBlock
  rw [if_neg (not_not.2 hmeets), hcurrent]

/-- **A block has one of the five outcomes, for its reason.** -/
theorem addBlock_arrival (l : Ledger) (b : Block) (mining : Option Block) :
    Arrival l b mining (l.addBlock b mining).1 (l.addBlock b mining).2 := by
  by_cases hmeets : b.Meets l.difficulty
  · unfold addBlock
    rw [if_neg (not_not.2 hmeets)]
    cases hkind : l.kindOf b with
    | old => exact .ignored hmeets hkind
    | current =>
      obtain ⟨hnew, hprev⟩ := kindOf_eq_current.1 hkind
      exact .extended hmeets hnew hprev
    | unknownParent =>
      simp only
      cases hover : (l.park b).overtaking? with
      | some s => exact .reorganized hmeets hkind hover
      | none => exact .stored hmeets hkind hover
  · unfold addBlock
    rw [if_pos hmeets]
    exact .invalid hmeets

/-- What waits after a block came waited before, or was confirmed, or belonged to the
attempt that the block ended. -/
theorem Arrival.mem_pending {m : Ledger} {b : Block} {mining : Option Block} {o : BlockOutcome}
    (harrival : Arrival l b mining m o) {t : Transaction} (ht : t ∈ m.pending.toList) :
    t ∈ l.pending.toList ∨ (∃ c ∈ l.chain, t ∈ c.transactions) ∨
      ∃ c, mining = some c ∧ t ∈ c.transactions := by
  cases harrival with
  | invalid => exact Or.inl ht
  | ignored => exact Or.inl ht
  | extended =>
    rcases mem_of_mem_preempt (mem_of_mem_extend ht) with ht | ht
    · exact Or.inl ht
    · exact Or.inr (Or.inr ht)
  | reorganized =>
    rw [reorganize_pending] at ht
    rcases mem_of_mem_cutBack (mem_of_mem_foldl_extend ht) with ht | ht
    · exact Or.inl ht
    · exact Or.inr (Or.inl ht)
  | stored => exact Or.inl ht

/-- A block that does not move the head leaves the chain and what waits alone. -/
theorem Arrival.eq_of_stays {m : Ledger} {b : Block} {mining : Option Block} {o : BlockOutcome}
    (harrival : Arrival l b mining m o) (hstays : o.movedHead = false) :
    m.chain = l.chain ∧ m.pending = l.pending := by
  cases harrival with
  | invalid => exact ⟨rfl, rfl⟩
  | ignored => exact ⟨rfl, rfl⟩
  | extended => exact absurd hstays (by simp [BlockOutcome.movedHead])
  | reorganized =>
    obtain ⟨requeued, ho⟩ := (l.park b).reorganize_outcome (s := _)
    rw [ho] at hstays
    exact absurd hstays (by simp [BlockOutcome.movedHead])
  | stored => exact ⟨rfl, rfl⟩

/-! ### Sequences of operations -/

/-- An operation of a ledger. -/
inductive Op
  /-- A transaction comes in. -/
  | transaction (t : Transaction)
  /-- A block comes in while another may be being mined. -/
  | block (b : Block) (mining : Option Block)
  /-- The side chains are computed anew. -/
  | rebuild

/-- The ledger after an operation. -/
def apply (l : Ledger) : Op → Ledger
  | .transaction t => l.addTransaction t
  | .block b mining => (l.addBlock b mining).1
  | .rebuild => l.rebuildSideChains

/-- The ledger after a sequence of operations. -/
def run (l : Ledger) (ops : List Op) : Ledger := ops.foldl apply l

/-- What a ledger of a given difficulty can become. -/
def Reachable (difficulty : Nat) (l : Ledger) : Prop := ∃ ops, (new difficulty).run ops = l

theorem run_append (l : Ledger) (as bs : List Op) : l.run (as ++ bs) = (l.run as).run bs :=
  List.foldl_append

/-- **What is kept by every operation is kept by any sequence of them.** -/
theorem run_keeps {P : Ledger → Prop} (hstep : ∀ l op, P l → P (l.apply op)) (ops : List Op)
    (h : P l) : P (l.run ops) := by
  induction ops generalizing l with
  | nil => exact h
  | cons op ops ih => exact ih (hstep l op h)

end Ledger
end GossipLedger
