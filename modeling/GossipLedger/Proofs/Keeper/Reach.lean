import GossipLedger.Proofs.Keeper.Publishing
import GossipLedger.Proofs.Wire.Size

/-!
# Which own blocks reach the peers

A keeper mines all that waits at once, however much it is.  The block goes on top of its
own chain and is published in one packet, and a packet that is larger than a datagram is not
sent.  So a keeper that mines too much is alone with its block, and with all blocks that it
puts on top of it.

## Main definitions

* `Block.withNonce`, `Keeper.ownPacket` — a block that a keeper mined, and the packet with it.

## Main results

* `Keeper.encode_ownPacket_iff` — **when the block to be mined next can be sent**: exactly if
  the amounts of what waits are written with few digits enough; always with up to 263 waiting
  transactions, and never with 275 or more.
* `Keeper.length_le_size_after_submissions` — all that is submitted to a new keeper waits.
* `Keeper.AtRest.mem_chain_and_published` — what a keeper mines goes on top of its own chain,
  and is published.
* `Keeper.unsent_after_crowd` — a block on top of the own chain that is sent to nobody.
-/

namespace GossipLedger

/-- A block with the nonce that was found for it. -/
def Block.withNonce (b : Block) (nonce : Digest) : Block := { b with nonce := nonce }

namespace Keeper

open Ledger Json

variable {k : Keeper} {difficulty : Nat}

/-- The packet with a block that a keeper mined, once it has its nonce. -/
def ownPacket (k : Keeper) (candidate : Block) (nonce : Digest) : Packet :=
  .block ⟨candidate.withNonce nonce, k.settings.blockHopLimit⟩

/-! ### What is mined next -/

/-- The transactions that wait, but for one of a given name. -/
theorem length_filter_name (pool : TransactionPool) (name : Digest) :
    pool.size ≤ (pool.toList.filter fun t => t.name ≠ name).length + 1 := by
  have hone : pool.toList.countP (fun t => t.name = name) ≤ 1 := by
    have hcount := List.nodup_iff_count_le_one.1 pool.nodup_keys name
    rw [List.count_eq_countP, List.countP_map] at hcount
    refine le_trans (le_of_eq (List.countP_congr fun t _ => ?_)) hcount
    simp
  have hsplit := List.length_eq_countP_add_countP (fun t : Transaction => t.name ≠ name)
    (l := pool.toList)
  have hrest : pool.toList.countP (fun t => ¬decide (t.name ≠ name) = true) =
      pool.toList.countP fun t => t.name = name :=
    List.countP_congr fun t _ => by simp
  rw [hrest, List.countP_eq_length_filter] at hsplit
  show pool.toList.length ≤ _
  omega

/-- The size of the packet with an own block. -/
theorem length_ownPacket (k : Keeper) (previous nonce : Digest) (time : Timestamp)
    {ts : List Transaction} (h : ts ≠ []) :
    (k.ownPacket (.candidate previous time ts) nonce).document.bytes.length =
      227 + textSize time.text + decimals k.settings.blockHopLimit.toNat +
        (ts.map fun t => 237 + decimals t.amount.toNat).sum :=
  length_block ⟨⟨previous, nonce, time, ts⟩, k.settings.blockHopLimit⟩ h

/-- Nothing is sent of an own block with too many transactions. -/
theorem datagrams_ownPacket (k : Keeper) (previous nonce : Digest) (time : Timestamp)
    {ts : List Transaction} (h : 275 ≤ ts.length) (self : PeerAddress) (peers : PeerSet)
    (exclude : Option PeerAddress) :
    (Outbound.broadcast (k.ownPacket (.candidate previous time ts) nonce) exclude).datagrams
      self peers = [] := by
  have hlarge : ¬∃ bytes, (k.ownPacket (.candidate previous time ts) nonce).encode = .ok bytes :=
    not_encode_block_of_le_length (m := ⟨⟨previous, nonce, time, ts⟩, k.settings.blockHopLimit⟩) h
  exact Outbound.datagrams_eq_nil (o := .broadcast _ exclude) hlarge self peers

/-- Where transactions wait there is a block to be mined next: the reward, and all that waits
but for a transaction of its name. -/
theorem buildCandidate_of_waits {l : Ledger} (hwaits : l.pending.isEmpty = false)
    (coinbase : Transaction) (time : Timestamp) :
    l.buildCandidate coinbase time = some (.candidate l.headHash time
      (coinbase :: l.pending.toList.filter fun t => t.name ≠ coinbase.name)) := by
  unfold buildCandidate
  rw [if_neg (by simp [hwaits])]

/-- **When the block to be mined next can be sent.**  Where transactions wait there is such a
block; whatever nonce it gets, there is a datagram of it exactly if it has few bytes enough,
which its timestamp, the hop limit and the amounts of the reward and of what waits decide.
With at most 263 waiting transactions there always is, and with 275 or more nothing is ever
sent, to whichever peers. -/
theorem encode_ownPacket_iff (k : Keeper) (time : Timestamp)
    (hwaits : k.ledger.pending.isEmpty = false) :
    ∃ c, k.ledger.buildCandidate (.coinbase k.miner k.settings.coinbaseReward) time = some c ∧
      ∀ nonce,
        ((∃ bytes, (k.ownPacket c nonce).encode = .ok bytes) ↔
          227 + textSize time.text + decimals k.settings.blockHopLimit.toNat +
            ((237 + decimals k.settings.coinbaseReward.toNat) +
              ((k.ledger.pending.toList.filter fun t =>
                  t.name ≠ (Transaction.coinbase k.miner k.settings.coinbaseReward).name).map
                fun t => 237 + decimals t.amount.toNat).sum) ≤ maxPacketSize) ∧
        (k.ledger.pending.size ≤ 263 → ∃ bytes, (k.ownPacket c nonce).encode = .ok bytes) ∧
        (275 ≤ k.ledger.pending.size → ∀ self peers exclude,
          (Outbound.broadcast (k.ownPacket c nonce) exclude).datagrams self peers = []) := by
  have hreward : (Transaction.coinbase k.miner k.settings.coinbaseReward).amount =
      k.settings.coinbaseReward := rfl
  generalize Transaction.coinbase k.miner k.settings.coinbaseReward = coinbase at hreward ⊢
  have hne : coinbase :: (k.ledger.pending.toList.filter fun t => t.name ≠ coinbase.name) ≠ [] :=
    List.cons_ne_nil _ _
  have hfewer : (k.ledger.pending.toList.filter fun t => t.name ≠ coinbase.name).length ≤
    k.ledger.pending.size := List.length_filter_le _ _
  have hmost := length_filter_name k.ledger.pending coinbase.name
  refine ⟨_, buildCandidate_of_waits hwaits coinbase time, fun nonce => ⟨?_, fun hsize => ?_,
    fun hsize => ?_⟩⟩
  · rw [Packet.encode_eq_ok_iff, length_ownPacket k _ nonce time hne, List.map_cons, List.sum_cons,
      hreward]
  · refine encode_block_of_length_le hne ?_
    show (coinbase :: k.ledger.pending.toList.filter _).length ≤ 264
    rw [List.length_cons]
    omega
  · intro self peers exclude
    have hmany : 275 ≤
        (coinbase :: k.ledger.pending.toList.filter fun t => t.name ≠ coinbase.name).length := by
      rw [List.length_cons]
      omega
    exact datagrams_ownPacket k _ nonce time hmany self peers exclude

/-- Where a few transactions wait the next block can be sent. -/
theorem encode_ownPacket_of_one :
    ({ new { difficulty := 0 } .zero with
        ledger := (Ledger.new 0).addTransaction contested }).ledger.pending.isEmpty = false ∧
    ∃ c, ({ new { difficulty := 0 } .zero with
        ledger := (Ledger.new 0).addTransaction contested }).ledger.buildCandidate
          (.coinbase .zero 1) default = some c ∧
      ∃ bytes, (({ new { difficulty := 0 } .zero with
        ledger := (Ledger.new 0).addTransaction contested } : Keeper).ownPacket c .zero).encode =
          .ok bytes := by
  have hwaits : ({ new { difficulty := 0 } .zero with
      ledger := (Ledger.new 0).addTransaction contested }).ledger.pending.isEmpty = false := rfl
  obtain ⟨c, hc, hsent⟩ := encode_ownPacket_iff _ default hwaits
  exact ⟨hwaits, c, hc, (hsent .zero).2.1 (by decide)⟩

/-! ### All that is submitted waits -/

/-- A transaction with the right name is known once it was submitted. -/
theorem knows_told_submit {u : Transaction} (hwf : u.WellFormed) (picker : Picker Block)
    (time : Timestamp) :
    (k.told ⟨picker, time, .submit u⟩).keeper.ledger.knows u.name = true := by
  refine knows_told (t := ⟨picker, time, .submit u⟩) ?_
  cases hknown : k.ledger.knows u.name with
  | true => exact knows_takeIn (.submit u) hknown
  | false =>
    have hlearnt : u ∈ k.learns (.submit u) := by simp [learns, hwf, hknown]
    exact (knows_of_mem_learns hlearnt).2

/-- **All that is submitted waits** as long as no blocks are known. -/
theorem contains_after_submissions {us : List Transaction} (hwf : ∀ u ∈ us, u.WellFormed)
    {turns : List Turn} (hturns : turns.map Turn.command = us.map ChainCommand.submit)
    (hnone : ∀ b, ¬k.ledger.Holds b) {n : Digest}
    (hn : k.ledger.knows n = true ∨ ∃ u ∈ us, u.name = n) :
    (k.after turns).ledger.pending.contains n = true := by
  induction turns generalizing k us with
  | nil =>
    obtain rfl : us = [] := List.map_eq_nil_iff.1 hturns.symm
    have hknown : k.ledger.knows n = true := by simpa using hn
    refine (knows_iff.1 hknown).resolve_right fun hconfirmed => ?_
    obtain ⟨b, hb, -⟩ := confirms_iff.1 hconfirmed
    exact hnone b (Or.inl hb)
  | cons t ts ih =>
    obtain ⟨picker, time, c⟩ := t
    cases us with
    | nil => exact absurd hturns (by simp)
    | cons u us =>
      obtain ⟨rfl, hrest⟩ := List.cons_eq_cons.1 hturns
      rw [List.forall_mem_cons] at hwf
      have halive : (k.told ⟨picker, time, .submit u⟩).alive = true := rfl
      have hstill : ∀ b, ¬(k.told ⟨picker, time, .submit u⟩).keeper.ledger.Holds b := fun b hb =>
        (holds_or_mem_blocks hb).elim (hnone b) List.not_mem_nil
      rw [after, if_pos halive]
      refine ih hwf.2 hrest hstill ?_
      rcases hn with hn | ⟨v, hv, rfl⟩
      · exact Or.inl (knows_told (knows_takeIn _ hn))
      · rcases List.mem_cons.1 hv with rfl | hv
        · exact Or.inl (knows_told_submit hwf.1 picker time)
        · exact Or.inr ⟨v, hv, rfl⟩

/-- **All that is submitted to a new keeper waits**, whatever it is and however much. -/
theorem length_le_size_after_submissions (settings : ChainSettings) (identity : Digest)
    {us : List Transaction} (hwf : ∀ u ∈ us, u.WellFormed)
    (hnames : (us.map Transaction.name).Nodup) {turns : List Turn}
    (hturns : turns.map Turn.command = us.map ChainCommand.submit) :
    us.length ≤ ((new settings identity).after turns).ledger.pending.size := by
  have hnone : ∀ b, ¬(new settings identity).ledger.Holds b := by
    rintro b (hb | hb)
    · exact absurd hb List.not_mem_nil
    · exact absurd hb List.not_mem_nil
  have hsubset : us.map Transaction.name ⊆
      ((new settings identity).after turns).ledger.pending.toList.map Transaction.name := by
    intro n hn
    have hwaits := contains_after_submissions hwf hturns hnone (Or.inr (List.mem_map.1 hn))
    exact List.mem_map.2 (Catalog.contains_iff.1 hwaits)
  have hle := (hnames.subperm hsubset).length_le
  rwa [List.length_map, List.length_map] at hle

/-! ### What becomes of an own block -/

/-- **What a keeper at rest mines extends its chain**, whatever nonce it found that meets the
difficulty and that no block of the chain has. -/
theorem AtRest.addBlock_own (h : AtRest k) (hk : Sound difficulty k.ledger) {a : Attempt}
    (ha : k.attempt = some a) {nonce : Digest} (hmeets : nonce.Meets difficulty)
    (hnew : ∀ c ∈ k.ledger.chain, c.nonce ≠ nonce) (elapsed : Nat) :
    (k.finish elapsed).ledger.addBlock (a.candidate.withNonce nonce) none =
      (k.ledger.extend (a.candidate.withNonce nonce), .extended false) := by
  have hmeets' : (a.candidate.withNonce nonce).Meets (k.finish elapsed).ledger.difficulty :=
    hk.difficulty_eq ▸ hmeets
  exact addBlock_of_current hmeets' hnew (h.upToDate a ha).previous none

/-- What was mined in time is awaited. -/
theorem awaits_of_attempt {a : Attempt} (ha : k.attempt = some a) : k.awaits a.number := by
  unfold awaits
  rw [ha]
  rfl

/-- **What a keeper at rest mines ends on top of its own chain, and is published**, whatever
nonce it found that meets the difficulty and that no block of the chain has. -/
theorem AtRest.mem_chain_and_published (h : AtRest k) (hk : Sound difficulty k.ledger)
    {a : Attempt} (ha : k.attempt = some a) {nonce : Digest} (hmeets : nonce.Meets difficulty)
    (hnew : ∀ c ∈ k.ledger.chain, c.nonce ≠ nonce) {picker : Picker Block} {time : Timestamp}
    {elapsed : Nat} (halive : (k.told ⟨picker, time, .mined a.number
      (a.candidate.withNonce nonce) elapsed⟩).alive = true) :
    a.candidate.withNonce nonce ∈ (k.told ⟨picker, time, .mined a.number
        (a.candidate.withNonce nonce) elapsed⟩).keeper.ledger.chain ∧
      .later (elapsed * k.settings.publishDelayFactor.toNat) (k.ownPacket a.candidate nonce) ∈
        (k.told ⟨picker, time, .mined a.number
          (a.candidate.withNonce nonce) elapsed⟩).published := by
  have hawaits := awaits_of_attempt ha
  have hextended := h.addBlock_own hk ha hmeets hnew elapsed
  generalize hb : a.candidate.withNonce nonce = b at halive hextended ⊢
  constructor
  · -- what is connected or mined afterwards leaves the block on the chain
    have hkeeps := told_keeps (k := k)
      (P := fun k' => Sound difficulty k'.ledger ∧ b ∈ k'.ledger.chain)
      ⟨picker, time, .mined a.number b elapsed⟩ ⟨sound_takeIn hk _, ?_⟩ ?_ ?_
    · exact hkeeps.2
    · rw [Keeper.takeIn, if_pos hawaits, applyBlock_ledger]
      show b ∈ ((k.finish elapsed).ledger.addBlock b none).1.chain
      rw [hextended]
      simp
    · rintro k' c ⟨hk', hmem⟩ hc
      refine ⟨(k'.applyBlock_arrival c).sound hk', ?_⟩
      rw [applyBlock_ledger, (addBlock_extension hk' hc _).2.1]
      exact List.mem_append_left _ hmem
    · rintro k' hk'
      rw [startMining_ledger]
      exact hk'
  · have haccepted : ((k.finish elapsed).applyBlock b).2.1.isAccepted = true := by
      rw [applyBlock_outcome]
      show ((k.finish elapsed).ledger.addBlock b none).2.isAccepted = true
      rw [hextended]
      rfl
    rw [told_published hk]
    refine List.mem_append_right _ ?_
    rw [relays]
    simp only
    rw [if_pos ⟨hawaits, haccepted, halive⟩, ← hb]
    exact List.mem_singleton_self _

/-- After a block that moves the head, a keeper mines what then waits. -/
theorem exists_candidate_of_movedHead {b : Block} (hmoved : (k.applyBlock b).2.1.movedHead = true)
    {picker : Picker Block} {time : Timestamp} {hopLimit : UInt32} {origin : PeerAddress}
    (hwaits : (k.told ⟨picker, time, .block b hopLimit origin⟩).keeper.ledger.pending.isEmpty =
      false) :
    ∃ a, (k.told ⟨picker, time, .block b hopLimit origin⟩).keeper.attempt = some a ∧
      ∃ previous ts, a.candidate = .candidate previous time ts ∧
        (k.told ⟨picker, time, .block b hopLimit origin⟩).keeper.ledger.pending.size ≤
          ts.length := by
  have hidle : ((k.applyBlock b).1.connect picker
      (k.applyBlock b).1.ledger.pooled.size).1.attempt = none :=
    connect_keeps (P := fun k' => k'.attempt = none)
      (fun k' c hk' _ => (k'.applyBlock_attempt c).elim id fun hsame => hsame.trans hk') picker _
      (applyBlock_attempt_eq_none hmoved)
  have htold : (k.told ⟨picker, time, .block b hopLimit origin⟩).keeper =
      ((k.applyBlock b).1.connect picker (k.applyBlock b).1.ledger.pooled.size).1.startMining
        time := by
    rw [told_keeper]
    exact if_pos ⟨hmoved, rfl⟩
  rw [htold] at hwaits ⊢
  generalize ((k.applyBlock b).1.connect picker (k.applyBlock b).1.ledger.pooled.size).1 = k'
    at hidle hwaits ⊢
  rw [startMining_ledger] at hwaits ⊢
  rcases k'.startMining_cases time with ⟨hsome, -⟩ | ⟨-, hempty, -⟩ | ⟨-, -, hstarts⟩
  · rw [hidle] at hsome
    exact absurd hsome (by simp)
  · rw [hempty] at hwaits
    exact absurd hwaits (by simp)
  · rw [hstarts]
    refine ⟨_, rfl, _, _, rfl, ?_⟩
    rw [List.length_cons]
    exact length_filter_name _ _

/-! ### A block that is sent to nobody -/

/-- A block that stands on none that is known does the same whatever is mined. -/
theorem addBlock_of_unknownParent {l : Ledger} {b : Block} (h : l.kindOf b = .unknownParent)
    (mining : Option Block) : l.addBlock b mining = l.addBlock b none := by
  unfold addBlock
  rw [h]

/-- Where nothing can be connected, a block does to the ledger what it does by itself. -/
theorem told_block_ledger {b : Block} {picker : Picker Block} {time : Timestamp}
    {hopLimit : UInt32} {origin : PeerAddress} (h : (k.applyBlock b).1.ledger.extensions = []) :
    (k.told ⟨picker, time, .block b hopLimit origin⟩).keeper.ledger =
      (k.applyBlock b).1.ledger := by
  have hstop : ∀ fuel, ((k.applyBlock b).1.connect picker fuel).1 = (k.applyBlock b).1 := by
    intro fuel
    cases fuel with
    | zero => rfl
    | succ fuel =>
      have hnext : (k.applyBlock b).1.ledger.nextPooledBlock picker = none :=
        picker.pick_eq_none_iff.2 h
      rw [connect, hnext]
  rw [told_keeper]
  split
  next =>
    rw [startMining_ledger]
    exact congrArg Keeper.ledger (hstop _)
  next => rfl

theorem told_parked_ledger {l : Ledger} (hl : k.ledger = l) {b : Block} {picker : Picker Block}
    {time : Timestamp} {hopLimit : UInt32} {origin : PeerAddress}
    (hkind : l.kindOf b = .unknownParent) (hnone : (l.addBlock b none).1.extensions = []) :
    (k.told ⟨picker, time, .block b hopLimit origin⟩).keeper.ledger = (l.addBlock b none).1 := by
  have hblock : (k.applyBlock b).1.ledger = (l.addBlock b none).1 := by
    rw [applyBlock_ledger, hl, addBlock_of_unknownParent hkind]
  rw [← hblock] at hnone ⊢
  exact told_block_ledger hnone

theorem atRest_after (h : AtRest k) (hk : Sound difficulty k.ledger) (turns : List Turn) :
    AtRest (k.after turns) := by
  induction turns generalizing k with
  | nil => exact h
  | cons t ts ih =>
    rw [after]
    split
    next halive => exact ih (h.told hk halive) (sound_told hk t)
    next => exact h

/-- A digest that begins with the bytes of a number. -/
def numbered (n : Nat) : Digest :=
  ⟨UInt8.ofNat n :: UInt8.ofNat (n / 256) :: List.replicate 30 0, rfl⟩

theorem numbered_inj {m n : Nat} (hm : m < 275) (hn : n < 275) (h : numbered m = numbered n) :
    m = n := by
  obtain ⟨hlow, htail⟩ := List.cons_eq_cons.1 (congrArg Digest.bytes h)
  have hhigh := (List.cons_eq_cons.1 htail).1
  have hlow' := congrArg UInt8.toNat hlow
  have hhigh' := congrArg UInt8.toNat hhigh
  simp only [UInt8.toNat_ofNat'] at hlow' hhigh'
  omega

/-- A block with 275 transactions that have numbers for names. -/
def crowd : Block :=
  ⟨ending 0, ending 1, default, (List.range 275).map fun n => ⟨ending 5, ending 6, 1, numbered n⟩⟩

theorem length_crowd : crowd.transactions.length = 275 := by
  rw [crowd, List.length_map, List.length_range]

theorem nodup_names_crowd : (crowd.transactions.map Transaction.name).Nodup := by
  rw [crowd, List.map_map]
  refine List.nodup_range.map_on fun m hm n hn h => ?_
  exact numbered_inj (List.mem_range.1 hm) (List.mem_range.1 hn) h

/-- The ledger of a new keeper after the crowd came. -/
def crowdOnTop : Ledger := ((Ledger.new 0).addBlock crowd none).1

/-- The ledger after a sibling of the crowd came. -/
def crowdBeside : Ledger := (crowdOnTop.addBlock (bare 0 2) none).1

/-- The ledger after a block on top of the sibling, with which it takes the place of the
crowd. -/
def crowdCutOff : Ledger := (crowdBeside.addBlock (bare 2 3) none).1

theorem chain_crowdOnTop : crowdOnTop.chain = [crowd] := by decide +kernel

theorem chain_crowdCutOff : crowdCutOff.chain = [bare 0 2, bare 2 3] := by decide +kernel

/-- All of the crowd waits again: no name is forgotten, and the two blocks that are left
confirm none. -/
theorem le_size_crowdCutOff : 275 ≤ crowdCutOff.pending.size := by
  have hsubset : crowd.transactions.map Transaction.name ⊆
      crowdCutOff.pending.toList.map Transaction.name := by
    intro n hn
    have hconfirmed : crowdOnTop.confirms n = true := by
      rw [confirms_iff, chain_crowdOnTop]
      exact ⟨crowd, List.mem_singleton_self _, Block.confirms_iff.2 (List.mem_map.1 hn)⟩
    have hbeside : crowdBeside.knows n = true :=
      remembers_apply crowdOnTop (.block (bare 0 2) none) n (knows_iff.2 (Or.inr hconfirmed))
    have hknown : crowdCutOff.knows n = true :=
      remembers_apply crowdBeside (.block (bare 2 3) none) n hbeside
    rcases knows_iff.1 hknown with hwaits | hconfirmed
    · exact List.mem_map.2 (Catalog.contains_iff.1 hwaits)
    · rw [confirms_iff, chain_crowdCutOff] at hconfirmed
      obtain ⟨b, hb, hbn⟩ := hconfirmed
      simp only [List.mem_cons, List.not_mem_nil, or_false] at hb
      rcases hb with rfl | rfl
      · exact absurd hbn (by simp [Block.confirms, bare])
      · exact absurd hbn (by simp [Block.confirms, bare])
  have hle := (nodup_names_crowd.subperm hsubset).length_le
  rwa [List.length_map, List.length_map, length_crowd] at hle

/-- The last block comes to the keeper after the ones before it. -/
theorem after_blocksFrom_concat (peer : PeerAddress) (bs : List Block) (b : Block) :
    k.after (blocksFrom peer (bs ++ [b])) =
      ((k.after (blocksFrom peer bs)).told ⟨.first, default, .block b 0 peer⟩).keeper := by
  induction bs generalizing k with
  | nil => exact if_pos rfl
  | cons c bs ih =>
    have hfirst : ∀ cs, k.after (blocksFrom peer (c :: cs)) =
        (k.told ⟨.first, default, .block c 0 peer⟩).keeper.after (blocksFrom peer cs) :=
      fun cs => if_pos rfl
    rw [List.cons_append, hfirst, hfirst, ih]

theorem afterBlocks_concat (bs : List Block) (b : Block) : afterBlocks (bs ++ [b]) =
    ((afterBlocks bs).told
      ⟨.first, default, .block b 0 (.v4 ⟨127, 0, 0, 1⟩ 5000)⟩).keeper :=
  after_blocksFrom_concat _ bs b

theorem ledger_afterBlocks_concat {bs : List Block} {b : Block} {l : Ledger}
    (hl : (afterBlocks bs).ledger = l) (hkind : l.kindOf b = .unknownParent)
    (hnone : (l.addBlock b none).1.extensions = []) :
    (afterBlocks (bs ++ [b])).ledger = (l.addBlock b none).1 := by
  rw [afterBlocks_concat]
  exact told_parked_ledger hl hkind hnone

/-- Where the last block moves the head and enough waits afterwards, nothing is ever sent of
what is mined then. -/
theorem exists_unsent {bs : List Block} {b : Block} {l : Ledger}
    (hl : (afterBlocks bs).ledger = l) (hkind : l.kindOf b = .unknownParent)
    (hmoved : (l.addBlock b none).2.movedHead = true)
    (hwaits : 275 ≤ (afterBlocks (bs ++ [b])).ledger.pending.size) :
    ∃ a, (afterBlocks (bs ++ [b])).attempt = some a ∧ ∀ nonce self peers exclude,
      (Outbound.broadcast ((afterBlocks (bs ++ [b])).ownPacket a.candidate nonce)
        exclude).datagrams self peers = [] := by
  rw [afterBlocks_concat] at hwaits ⊢
  have hmoves : ((afterBlocks bs).applyBlock b).2.1.movedHead = true := by
    rw [applyBlock_outcome, hl, addBlock_of_unknownParent hkind]
    exact hmoved
  have hsome : ∀ pool : TransactionPool, 275 ≤ pool.size → pool.isEmpty = false := by
    intro pool hsize
    refine List.isEmpty_eq_false_iff.2 (List.ne_nil_of_length_pos ?_)
    exact lt_of_lt_of_le (by decide) hsize
  obtain ⟨a, ha, previous, ts, hcandidate, hsize⟩ :=
    exists_candidate_of_movedHead hmoves (hsome _ hwaits)
  refine ⟨a, ha, fun nonce self peers exclude => ?_⟩
  rw [hcandidate]
  exact datagrams_ownPacket _ previous nonce _ (hwaits.trans hsize) self peers exclude

/-- The crowd, and the blocks that take its place. -/
def crowding : List Block := [crowd] ++ [bare 0 2] ++ [bare 2 3]

theorem ledger_afterBlocks_crowding :
    (afterBlocks ([crowd] ++ [bare 0 2])).ledger = crowdBeside ∧
      (afterBlocks crowding).ledger = crowdCutOff := by
  have honTop : (afterBlocks ([] ++ [crowd])).ledger = crowdOnTop := by
    have hblock : ((new { difficulty := 0 } .zero).applyBlock crowd).1.ledger = crowdOnTop :=
      applyBlock_ledger crowd
    rw [afterBlocks_concat, ← hblock]
    refine told_block_ledger (k := new { difficulty := 0 } .zero) ?_
    rw [hblock]
    decide +kernel
  have hbeside : (afterBlocks ([crowd] ++ [bare 0 2])).ledger = crowdBeside :=
    ledger_afterBlocks_concat honTop (by decide +kernel) (by decide +kernel)
  exact ⟨hbeside, ledger_afterBlocks_concat hbeside (by decide +kernel) (by decide +kernel)⟩

/-- Nothing is ever sent of what is mined after the crowd was cut off. -/
theorem exists_unsent_crowding :
    ∃ a, (afterBlocks crowding).attempt = some a ∧ ∀ nonce self peers exclude,
      (Outbound.broadcast ((afterBlocks crowding).ownPacket a.candidate nonce) exclude).datagrams
        self peers = [] := by
  obtain ⟨hbeside, hcutOff⟩ := ledger_afterBlocks_crowding
  have hwaits : 275 ≤ (afterBlocks crowding).ledger.pending.size := by
    rw [hcutOff]
    exact le_size_crowdCutOff
  unfold crowding at hwaits ⊢
  exact exists_unsent hbeside (by decide +kernel) (by decide +kernel) hwaits

/-- **A block that reaches nobody.**  After the crowd was cut off a keeper mines all of it;
whatever nonce it finds that no block of the chain has, its block ends on top of its own
chain, and is published, and nothing of it is sent. -/
theorem unsent_after_crowd :
    ∃ a, (afterBlocks crowding).attempt = some a ∧
      ∀ nonce, nonce ≠ ending 2 → nonce ≠ ending 3 →
        a.candidate.withNonce nonce ∈ ((afterBlocks crowding).told ⟨.first, default,
          .mined a.number (a.candidate.withNonce nonce) 0⟩).keeper.ledger.chain ∧
        .later 0 ((afterBlocks crowding).ownPacket a.candidate nonce) ∈
          ((afterBlocks crowding).told ⟨.first, default,
            .mined a.number (a.candidate.withNonce nonce) 0⟩).published ∧
        ∀ self peers exclude, (Outbound.broadcast ((afterBlocks crowding).ownPacket a.candidate
          nonce) exclude).datagrams self peers = [] := by
  obtain ⟨a, ha, hunsent⟩ := exists_unsent_crowding
  have hsound : Sound 0 (new { difficulty := 0 } .zero).ledger := sound_new 0
  have hrest : AtRest (afterBlocks crowding) := atRest_after (atRest_new _ _) hsound _
  refine ⟨a, ha, fun nonce htwo hthree => ?_⟩
  have hnew : ∀ c ∈ (afterBlocks crowding).ledger.chain, c.nonce ≠ nonce := by
    intro c hc
    rw [ledger_afterBlocks_crowding.2, chain_crowdCutOff] at hc
    simp only [List.mem_cons, List.not_mem_nil, or_false] at hc
    rcases hc with rfl | rfl
    · exact htwo.symm
    · exact hthree.symm
  have halive : ∀ b, ((afterBlocks crowding).told ⟨.first, default, .mined a.number b 0⟩).alive =
      true := by
    refine fun b => alive_told fun number b' elapsed h => ?_
    obtain ⟨-, -, rfl⟩ := ChainCommand.mined.inj h
    rw [Nat.zero_mul]
    exact Nat.zero_le _
  obtain ⟨hchain, hpublished⟩ := hrest.mem_chain_and_published (sound_after hsound _) ha
    (Nat.zero_le _) hnew (halive _)
  rw [Nat.zero_mul] at hpublished
  exact ⟨hchain, hpublished, hunsent nonce⟩

end Keeper
end GossipLedger
