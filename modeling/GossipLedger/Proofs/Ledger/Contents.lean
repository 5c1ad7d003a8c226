import GossipLedger.Ledger.Block
import GossipLedger.Proofs.Time.Range
import Mathlib.Algebra.Order.Ring.Nat
import Mathlib.Data.List.Basic

/-!
# Hashed contents

What is hashed for a block, and for the name of a transaction, is a byte string without any
marks between its fields.  Still no field can be taken for a part of another.  All of them
but the last have a fixed width: 32 bytes for a digest, eight for the milliseconds, four for
an amount and for the number of transactions.  The names of the transactions come last and
have 32 bytes each, so the length of the string tells how many there are, and it makes no
difference that only four bytes of their number are hashed.

So wherever the hash does not collide, a transaction whose contents were altered no longer
has the right name.

## Main definitions

* `Collide` — two messages with the same hash.

## Main results

* `Digest.flatMap_bytes_eq_iff` — digests in a row are told apart.
* `littleEndian_eq_iff` — a word tells a number as far as it reaches.
* `Block.contents_eq_iff` — when the contents of two blocks are the same.
* `Transaction.contents_eq_iff` — the contents of a transaction tell all of it.
* `contents_unambiguous` — **hashed contents are unambiguous**, and an altered transaction is
  not well-formed unless the hash collides.
-/

namespace GossipLedger

/-- Two different messages with the same hash. -/
def Collide (m m' : Bytes) : Prop := m ≠ m' ∧ sha256 m = sha256 m'

instance (m m' : Bytes) : Decidable (Collide m m') := inferInstanceAs (Decidable (_ ∧ _))

/-! ### Digests -/

namespace Digest

theorem bytes_inj {d e : Digest} : d.bytes = e.bytes ↔ d = e := by
  cases d
  cases e
  simp

/-- A byte string begins with at most one digest. -/
theorem bytes_append_eq_iff {d e : Digest} {rest rest' : Bytes} :
    d.bytes ++ rest = e.bytes ++ rest' ↔ d = e ∧ rest = rest' := by
  have hwidth : d.bytes.length = e.bytes.length := d.length_bytes.trans e.length_bytes.symm
  rw [List.append_eq_append_iff_of_size_eq_left hwidth, bytes_inj]

theorem bytes_append_ne_nil (d : Digest) (rest : Bytes) : d.bytes ++ rest ≠ [] := by
  intro h
  have hlength := congrArg List.length h
  rw [List.length_append, d.length_bytes, List.length_nil] at hlength
  omega

/-- **Digests in a row are told apart**, and with them their number. -/
theorem flatMap_bytes_eq_iff {ds es : List Digest} :
    ds.flatMap bytes = es.flatMap bytes ↔ ds = es := by
  induction ds generalizing es with
  | nil =>
    cases es with
    | nil => simp
    | cons e es =>
      rw [List.flatMap_nil, List.flatMap_cons]
      exact iff_of_false (bytes_append_ne_nil e _).symm (List.cons_ne_nil e es).symm
  | cons d ds ih =>
    cases es with
    | nil =>
      rw [List.flatMap_nil, List.flatMap_cons]
      exact iff_of_false (bytes_append_ne_nil d _) (List.cons_ne_nil d ds)
    | cons e es =>
      rw [List.flatMap_cons, List.flatMap_cons, bytes_append_eq_iff, ih, List.cons_eq_cons]

end Digest

/-! ### Words -/

/-- A word tells a number as far as its bytes reach. -/
theorem littleEndian_eq_iff {width m n : Nat} :
    littleEndian width m = littleEndian width n ↔ m % 256 ^ width = n % 256 ^ width := by
  induction width generalizing m n with
  | zero => simp [littleEndian, Nat.mod_one]
  | succ w ih =>
    have hbyte : UInt8.ofNat (m % 256) = UInt8.ofNat (n % 256) ↔ m % 256 = n % 256 := by
      rw [← UInt8.toNat_inj, UInt8.toNat_ofNat', UInt8.toNat_ofNat']
      omega
    rw [littleEndian, littleEndian, List.cons_eq_cons, ih, hbyte, Nat.pow_succ', Nat.mod_mul,
      Nat.mod_mul]
    -- the lowest byte and the rest of the number
    generalize m / 256 % 256 ^ w = x
    generalize n / 256 % 256 ^ w = y
    omega

/-- A word tells what comes before the rest of a byte string. -/
theorem littleEndian_append_eq_iff {width m n : Nat} {rest rest' : Bytes} :
    littleEndian width m ++ rest = littleEndian width n ++ rest' ↔
      m % 256 ^ width = n % 256 ^ width ∧ rest = rest' := by
  have hwidth : (littleEndian width m).length = (littleEndian width n).length := by simp
  rw [List.append_eq_append_iff_of_size_eq_left hwidth, littleEndian_eq_iff]

/-- The word of eight bytes tells the milliseconds, also those before 1970. -/
theorem millis_word_eq_iff {t u : Timestamp} :
    (t.millis % UInt64.size).toNat % 256 ^ 8 = (u.millis % UInt64.size).toNat % 256 ^ 8 ↔
      t.millis = u.millis := by
  obtain ⟨hlow, hhigh⟩ := millis_mem t
  obtain ⟨hlow', hhigh'⟩ := millis_mem u
  unfold UInt64.size
  omega

/-- The word of four bytes tells an amount. -/
theorem amount_word_eq_iff {a b : UInt32} : a.toNat % 256 ^ 4 = b.toNat % 256 ^ 4 ↔ a = b := by
  have ha := a.toNat_lt
  have hb := b.toNat_lt
  rw [← UInt32.toNat_inj]
  omega

/-! ### Blocks and transactions -/

/-- **When the contents of two blocks are the same.**  The number of transactions, whatever is
hashed of it, follows from the names. -/
theorem Block.contents_eq_iff {a b : Block} : a.contents = b.contents ↔
    a.previous = b.previous ∧ a.nonce = b.nonce ∧ a.time.millis = b.time.millis ∧
      a.transactions.map Transaction.name = b.transactions.map Transaction.name := by
  have hnames : ∀ c : Block, (c.transactions.flatMap fun t => t.name.bytes) =
      (c.transactions.map Transaction.name).flatMap Digest.bytes := by
    intro c
    rw [List.flatMap_map]
  unfold contents
  simp only [List.append_assoc, Digest.bytes_append_eq_iff, littleEndian_append_eq_iff,
    millis_word_eq_iff, hnames, Digest.flatMap_bytes_eq_iff]
  constructor
  · rintro ⟨hprevious, hnonce, htime, -, hnames⟩
    exact ⟨hprevious, hnonce, htime, hnames⟩
  · rintro ⟨hprevious, hnonce, htime, hnames⟩
    have hcount : a.transactions.length = b.transactions.length := by
      simpa using congrArg List.length hnames
    exact ⟨hprevious, hnonce, htime, by rw [hcount], hnames⟩

/-- **The contents of a transaction tell all of it** but its name. -/
theorem Transaction.contents_eq_iff {input output input' output' : Digest}
    {amount amount' : UInt32} :
    contents input output amount = contents input' output' amount' ↔
      input = input' ∧ output = output' ∧ amount = amount' := by
  unfold contents
  rw [List.append_assoc, List.append_assoc, littleEndian_append_eq_iff, amount_word_eq_iff,
    Digest.bytes_append_eq_iff, Digest.bytes_inj]
  constructor
  · rintro ⟨hamount, hinput, houtput⟩
    exact ⟨hinput, houtput, hamount⟩
  · rintro ⟨hinput, houtput, hamount⟩
    exact ⟨hamount, hinput, houtput⟩

/-- Two well-formed transactions with the same name have the same contents, or two contents
that collide. -/
theorem Transaction.contents_eq_of_name_eq {t u : Transaction} (ht : t.WellFormed)
    (hu : u.WellFormed) (hname : u.name = t.name)
    (hcollide : ¬Collide (contents t.input t.output t.amount)
      (contents u.input u.output u.amount)) :
    contents t.input t.output t.amount = contents u.input u.output u.amount := by
  have hhash : nameOf t.input t.output t.amount = nameOf u.input u.output u.amount :=
    ht.symm.trans (hname.symm.trans hu)
  by_contra hne
  exact hcollide ⟨hne, congrArg Digest.bytes hhash⟩

/-- **Hashed contents are unambiguous.**  Those of two blocks are the same exactly if both
nonces, the milliseconds and the names of the transactions in their order are; those of two
transactions exactly if the inputs, the outputs and the amounts are.  So a well-formed
transaction of which the input, the output or the amount is altered, and the name is not, is
no longer well-formed, unless its contents before and after collide. -/
theorem contents_unambiguous :
    (∀ a b : Block, a.contents = b.contents ↔
      a.previous = b.previous ∧ a.nonce = b.nonce ∧ a.time.millis = b.time.millis ∧
        a.transactions.map Transaction.name = b.transactions.map Transaction.name) ∧
    (∀ input output amount input' output' amount',
      Transaction.contents input output amount = Transaction.contents input' output' amount' ↔
        input = input' ∧ output = output' ∧ amount = amount') ∧
    (∀ t altered : Transaction, t.WellFormed → altered.name = t.name →
      (altered.input ≠ t.input ∨ altered.output ≠ t.output ∨ altered.amount ≠ t.amount) →
      ¬Collide (Transaction.contents t.input t.output t.amount)
        (Transaction.contents altered.input altered.output altered.amount) →
      ¬altered.WellFormed) := by
  refine ⟨fun a b => Block.contents_eq_iff, ?_, ?_⟩
  · intro input output amount input' output' amount'
    exact Transaction.contents_eq_iff
  · intro t altered ht hname haltered hcollide hwellFormed
    have hsame := Transaction.contents_eq_of_name_eq ht hwellFormed hname hcollide
    obtain ⟨hinput, houtput, hamount⟩ := Transaction.contents_eq_iff.1 hsame
    rcases haltered with h | h | h
    · exact h hinput.symm
    · exact h houtput.symm
    · exact h hamount.symm

/-- Ten for a digest of twos from a digest of ones. -/
def payment : Transaction :=
  .make ⟨List.replicate 32 1, rfl⟩ ⟨List.replicate 32 2, rfl⟩ 10

/-- The payment with another amount is not well-formed, because its contents then have
another hash. -/
theorem payment_altered :
    payment.WellFormed ∧ ({ payment with amount := 1000 } : Transaction).name = payment.name ∧
      ({ payment with amount := 1000 } : Transaction).amount ≠ payment.amount ∧
      ¬Collide (Transaction.contents payment.input payment.output payment.amount)
        (Transaction.contents payment.input payment.output 1000) ∧
      ¬({ payment with amount := 1000 } : Transaction).WellFormed := by
  have hwellFormed : payment.WellFormed := Transaction.wellFormed_make _ _ _
  have hamount : ({ payment with amount := 1000 } : Transaction).amount ≠ payment.amount := by
    decide
  have hcollide : ¬Collide (Transaction.contents payment.input payment.output payment.amount)
      (Transaction.contents payment.input payment.output 1000) := by decide +kernel
  exact ⟨hwellFormed, rfl, hamount, hcollide, contents_unambiguous.2.2 payment
    { payment with amount := 1000 } hwellFormed rfl (Or.inr (Or.inr hamount)) hcollide⟩

end GossipLedger
