import GossipLedger.Proofs.Time.Range
import GossipLedger.Wire.Outbound
import Mathlib.Algebra.Order.BigOperators.Group.List
import Mathlib.Algebra.Order.Ring.Nat

/-!
# How large packets are

The number of bytes of a written packet.  A text between quotes grows by its escapes and
by the characters that UTF-8 does not write in one byte; a digest is always 64 digits, a
number has as many digits as it needs, and a timestamp is at most 33 characters.  So the
size of a packet with a block follows from the amounts that its transactions move, and the
size of one with a rumor from the two texts in it.

## Main definitions

* `Json.utf8Length` — the number of bytes of characters in UTF-8.
* `Json.writtenSize`, `Json.textSize` — the bytes of a character, and of a text, between
  quotes.
* `decimals` — the number of digits of a number.

## Main results

* `Json.length_quoted` — the size of a text.
* `Json.length_list`, `Json.length_record` — the size of a list and of a record.
* `Packet.encode_eq_ok_iff` — when there is a datagram of a packet.
* `length_block`, `length_rumor` — **the sizes of packets with a block and with a rumor.**
* `encode_block_of_length_le`, `not_encode_block_of_le_length` — how many transactions fit.
-/

namespace GossipLedger

/-- The number of decimal digits of a number. -/
def decimals (n : Nat) : Nat := (Nat.toDigits 10 n).length

theorem decimals_pos (n : Nat) : 0 < decimals n := Nat.length_toDigits_pos

theorem decimals_le_iff {n k : Nat} (hk : 0 < k) : decimals n ≤ k ↔ n < 10 ^ k :=
  Nat.length_toDigits_le_iff (by decide) hk

/-- A number of 32 bits has at most ten digits. -/
theorem decimals_word_le (n : UInt32) : decimals n.toNat ≤ 10 := by
  rw [decimals_le_iff (by decide)]
  exact n.toNat_lt.trans (by decide)

namespace Json

/-! ### Characters -/

/-- The number of bytes of characters in UTF-8. -/
def utf8Length (cs : List Char) : Nat := (cs.flatMap String.utf8EncodeChar).length

@[simp] theorem utf8Length_nil : utf8Length [] = 0 := rfl

@[simp] theorem utf8Length_cons (c : Char) (cs : List Char) :
    utf8Length (c :: cs) = c.utf8Size + utf8Length cs := by
  simp [utf8Length]

@[simp] theorem utf8Length_append (as bs : List Char) :
    utf8Length (as ++ bs) = utf8Length as + utf8Length bs := by
  simp [utf8Length]

/-- Whether a character is one byte of UTF-8 that stands for itself between quotes. -/
def isPlain (c : Char) : Bool := 32 ≤ c.toNat && c.toNat < 127 && c != '"' && c != '\\'

theorem utf8Size_of_isPlain {c : Char} (h : isPlain c = true) : c.utf8Size = 1 := by
  have hlt : c.toNat < 127 := by
    simp only [isPlain, Bool.and_eq_true, decide_eq_true_eq] at h
    exact h.1.1.2
  exact Char.utf8Size_eq_one_iff.2 (UInt32.le_iff_toNat_le.2 (Nat.le_of_lt hlt))

theorem utf8Length_of_isPlain {cs : List Char} (h : ∀ c ∈ cs, isPlain c = true) :
    utf8Length cs = cs.length := by
  induction cs with
  | nil => rfl
  | cons c cs ih =>
    rw [List.forall_mem_cons] at h
    rw [utf8Length_cons, utf8Size_of_isPlain h.1, ih h.2, List.length_cons, Nat.add_comm]

/-- A hexadecimal digit is plain. -/
theorem isPlain_hexDigit : ∀ n < 16, isPlain (hexDigit n) = true := by decide

/-- A decimal digit is plain. -/
theorem isPlain_of_isDigit {c : Char} (h : c.isDigit = true) : isPlain c = true := by
  simp only [Char.isDigit, Bool.and_eq_true, decide_eq_true_eq] at h
  have hlow : 48 ≤ c.toNat := UInt32.le_iff_toNat_le.1 h.1
  have hhigh : c.toNat ≤ 57 := UInt32.le_iff_toNat_le.1 h.2
  have hne : ∀ d : Char, (d.toNat < 48 ∨ 57 < d.toNat) → c ≠ d := by
    rintro d hd rfl
    omega
  have hquote : c ≠ '"' := hne _ (by decide)
  have hslash : c ≠ '\\' := hne _ (by decide)
  simp only [isPlain, Bool.and_eq_true, decide_eq_true_eq, bne_iff_ne]
  exact ⟨⟨⟨by omega, by omega⟩, hquote⟩, hslash⟩

theorem isPlain_of_mem_toDigits {n : Nat} {c : Char} (h : c ∈ Nat.toDigits 10 n) :
    isPlain c = true :=
  isPlain_of_isDigit (Nat.isDigit_of_mem_toDigits (by decide) (by decide) h)

/-! ### Texts -/

/-- The number of bytes of a character between quotes: two for the quote, the backslash and
the control characters that have a short escape, six for the others, and as many as UTF-8
needs for all else. -/
def writtenSize (c : Char) : Nat :=
  if c ∈ ['"', '\\', '\x08', '\x0c', '\n', '\r', '\t'] then 2
  else if c.toNat < 32 then 6
  else c.utf8Size

/-- The number of bytes of a text between quotes, not counting these. -/
def textSize (s : String) : Nat := (s.toList.map writtenSize).sum

/-- The bytes of a written character. -/
theorem utf8Length_escaped (c : Char) : utf8Length (escaped c) = writtenSize c := by
  have hdigit : ∀ n < 16, (Nat.digitChar n).utf8Size = 1 := by decide
  unfold escaped writtenSize
  by_cases hshort : c ∈ ['"', '\\', '\x08', '\x0c', '\n', '\r', '\t']
  · rw [if_pos hshort]
    simp only [List.mem_cons, List.not_mem_nil, or_false] at hshort
    rcases hshort with rfl | rfl | rfl | rfl | rfl | rfl | rfl <;> rfl
  · rw [if_neg hshort]
    simp only [List.mem_cons, List.not_mem_nil, or_false, not_or] at hshort
    obtain ⟨h₁, h₂, h₃, h₄, h₅, h₆, h₇⟩ := hshort
    rw [if_neg h₁, if_neg h₂, if_neg h₃, if_neg h₄, if_neg h₅, if_neg h₆, if_neg h₇]
    split
    next hcontrol =>
      have hhigh := hdigit (c.toNat / 16) (by omega)
      have hlow := hdigit (c.toNat % 16) (by omega)
      simp only [List.cons_append, List.nil_append, utf8Length_cons, utf8Length_nil, hhigh, hlow]
      rfl
    next => simp

/-- **The size of a text between quotes.** -/
theorem length_quoted (s : String) : utf8Length (quoted s) = 2 + textSize s := by
  have hchars : ∀ cs : List Char,
      utf8Length (cs.flatMap escaped) = (cs.map writtenSize).sum := by
    intro cs
    induction cs with
    | nil => rfl
    | cons c cs ih =>
      rw [List.flatMap_cons, utf8Length_append, utf8Length_escaped, ih, List.map_cons,
        List.sum_cons]
  have hquote : '"'.utf8Size = 1 := rfl
  simp only [quoted, List.cons_append, utf8Length_cons, utf8Length_append, utf8Length_nil, hchars,
    hquote, textSize]
  omega

/-- A text of plain characters is as long as it is. -/
theorem textSize_of_isPlain {s : String} (h : ∀ c ∈ s.toList, isPlain c = true) :
    textSize s = s.toList.length := by
  have hsize : ∀ c ∈ s.toList, writtenSize c = 1 := by
    intro c hc
    have hplain := h c hc
    have hone := utf8Size_of_isPlain hplain
    unfold writtenSize
    split
    next hshort =>
      simp only [List.mem_cons, List.not_mem_nil, or_false] at hshort
      rcases hshort with rfl | rfl | rfl | rfl | rfl | rfl | rfl <;> exact absurd hplain (by decide)
    next =>
      split
      next hcontrol =>
        simp only [isPlain, Bool.and_eq_true, decide_eq_true_eq] at hplain
        exact absurd hcontrol (Nat.not_lt.2 hplain.1.1.1)
      next => exact hone
  rw [textSize, List.map_congr_left hsize, List.map_const', List.sum_replicate_nat, Nat.mul_one]

/-! ### Documents -/

/-- **The size of a list**: each item with a comma or the closing bracket. -/
theorem length_list {ds : List Document} (h : ds ≠ []) :
    utf8Length (Document.list ds).chars = 1 + (ds.map fun d => utf8Length d.chars + 1).sum := by
  have hitems : ∀ (d : Document) (ds : List Document), utf8Length (listChars (d :: ds)) + 1 =
      ((d :: ds).map fun d => utf8Length d.chars + 1).sum := by
    intro d ds
    induction ds generalizing d with
    | nil => simp [listChars]
    | cons e es ih =>
      have hcomma : ','.utf8Size = 1 := rfl
      rw [listChars, List.map_cons, List.sum_cons, ← ih e, utf8Length_append, utf8Length_cons,
        hcomma]
      · omega
      · exact List.cons_ne_nil e es
  obtain ⟨d, ds, rfl⟩ := List.exists_cons_of_ne_nil h
  have hopen : '['.utf8Size = 1 := rfl
  have hclose : ']'.utf8Size = 1 := rfl
  rw [Document.chars, utf8Length_append, utf8Length_cons, utf8Length_cons, utf8Length_nil, hopen,
    hclose, ← hitems]
  omega

/-- **The size of a record**: each member with its quotes, the colon, and a comma or the
closing brace. -/
theorem length_record {ms : List (String × Document)} (h : ms ≠ []) :
    utf8Length (Document.record ms).chars =
      1 + (ms.map fun m => textSize m.1 + utf8Length m.2.chars + 4).sum := by
  have hcolon : ':'.utf8Size = 1 := rfl
  have hmembers : ∀ (m : String × Document) (ms : List (String × Document)),
      utf8Length (memberChars (m :: ms)) + 1 =
        ((m :: ms).map fun m => textSize m.1 + utf8Length m.2.chars + 4).sum := by
    intro m ms
    induction ms generalizing m with
    | nil =>
      obtain ⟨key, d⟩ := m
      simp only [memberChars, utf8Length_append, utf8Length_cons, length_quoted, hcolon,
        List.map_cons, List.map_nil, List.sum_cons, List.sum_nil]
      omega
    | cons n ns ih =>
      obtain ⟨key, d⟩ := m
      have hcomma : ','.utf8Size = 1 := rfl
      rw [memberChars, List.map_cons, List.sum_cons, ← ih n]
      · simp only [utf8Length_append, utf8Length_cons, length_quoted, hcolon, hcomma]
        omega
      · exact List.cons_ne_nil n ns
  obtain ⟨m, ms, rfl⟩ := List.exists_cons_of_ne_nil h
  have hopen : '\x7b'.utf8Size = 1 := rfl
  have hclose : '\x7d'.utf8Size = 1 := rfl
  rw [Document.chars, utf8Length_append, utf8Length_cons, utf8Length_cons, utf8Length_nil, hopen,
    hclose, ← hmembers]
  omega

theorem length_text (s : String) : utf8Length (Document.text s).chars = 2 + textSize s :=
  length_quoted s

end Json

open Json

/-! ### Numbers, digests and timestamps -/

theorem length_wordDocument (n : UInt32) :
    utf8Length (wordDocument n).chars = decimals n.toNat := by
  have hdigits : (wordDocument n).chars = Nat.toDigits 10 n.toNat := Nat.toList_repr
  rw [hdigits, utf8Length_of_isPlain fun c hc => isPlain_of_mem_toDigits hc]
  rfl

theorem textSize_digest (d : Digest) : textSize d.text = 64 := by
  have hchars : d.text.toList = hexDigits d.bytes := String.toList_ofList
  rw [textSize_of_isPlain, hchars]
  · have hlength := length_utf8_hexDigits d.bytes
    rw [hexDigits, List.length_flatMap]
    simp [d.length_bytes]
  · intro c hc
    rw [hchars] at hc
    obtain ⟨x, -, hx⟩ := List.mem_flatMap.1 hc
    have hlt : x.toNat < 256 := x.toNat_lt
    simp only [List.mem_cons, List.not_mem_nil, or_false] at hx
    rcases hx with rfl | rfl
    · exact isPlain_hexDigit _ (by omega)
    · exact isPlain_hexDigit _ (by omega)

theorem length_paddedDigits (width n : Nat) :
    (paddedDigits width n).length = max width (decimals n) := by
  simp only [paddedDigits, List.length_append, List.length_replicate, decimals]
  omega

theorem isPlain_of_mem_paddedDigits {width n : Nat} {c : Char} (h : c ∈ paddedDigits width n) :
    isPlain c = true := by
  rcases List.mem_append.1 h with h | h
  · rw [List.eq_of_mem_replicate h]
    rfl
  · exact isPlain_of_mem_toDigits h

/-- A number with few digits is padded to the width. -/
theorem length_paddedDigits_of_lt {width n : Nat} (hwidth : 0 < width) (h : n < 10 ^ width) :
    (paddedDigits width n).length = width := by
  rw [length_paddedDigits, max_eq_left ((decimals_le_iff hwidth).2 h)]

theorem length_yearChars_le (d : Date) : (yearChars d.year).length ≤ 7 := by
  obtain ⟨hlow, hhigh⟩ := d.year_mem
  unfold minYear at hlow
  unfold maxYear at hhigh
  unfold yearChars
  split
  next h =>
    rw [length_paddedDigits_of_lt (by decide) (by omega)]
    decide
  next =>
    have hdigits : decimals d.year.natAbs ≤ 6 := (decimals_le_iff (by decide)).2 (by omega)
    rw [List.length_cons, length_paddedDigits]
    omega

theorem length_fractionChars_le {nano : Nat} (h : nano < 1_000_000_000) :
    (fractionChars nano).length ≤ 10 := by
  unfold fractionChars
  split
  next => exact Nat.zero_le _
  next =>
    split
    next => rw [List.length_cons, length_paddedDigits_of_lt (by decide) (by omega)]; decide
    next =>
      split
      next => rw [List.length_cons, length_paddedDigits_of_lt (by decide) (by omega)]; decide
      next => rw [List.length_cons, length_paddedDigits_of_lt (by decide) (by omega)]

theorem isPlain_of_mem_chars {t : Timestamp} {c : Char} (h : c ∈ t.chars) : isPlain c = true := by
  have hyear : ∀ c ∈ yearChars t.date.year, isPlain c = true := by
    intro c hc
    unfold yearChars at hc
    split at hc
    next => exact isPlain_of_mem_paddedDigits hc
    next =>
      rcases List.mem_cons.1 hc with rfl | hc
      · split <;> rfl
      · exact isPlain_of_mem_paddedDigits hc
  have hfraction : ∀ n, ∀ c ∈ fractionChars n, isPlain c = true := by
    intro n c hc
    have hpoint : ∀ {width m}, c ∈ '.' :: paddedDigits width m → isPlain c = true := by
      intro width m hc
      rcases List.mem_cons.1 hc with rfl | hc
      · rfl
      · exact isPlain_of_mem_paddedDigits hc
    unfold fractionChars at hc
    split at hc
    next => exact absurd hc List.not_mem_nil
    next =>
      split at hc
      next => exact hpoint hc
      next =>
        split at hc
        next => exact hpoint hc
        next => exact hpoint hc
  simp only [Timestamp.chars, List.mem_append, List.mem_cons, List.not_mem_nil, or_false] at h
  rcases h with (((((((h | rfl | h) | rfl | h) | rfl | h) | rfl | h) | rfl | h) | h) | rfl)
  · exact hyear c h
  · rfl
  · exact isPlain_of_mem_paddedDigits h
  · rfl
  · exact isPlain_of_mem_paddedDigits h
  · rfl
  · exact isPlain_of_mem_paddedDigits h
  · rfl
  · exact isPlain_of_mem_paddedDigits h
  · rfl
  · exact isPlain_of_mem_paddedDigits h
  · exact hfraction _ c h
  · rfl

/-- **A timestamp is at most 33 characters**, none of which is escaped. -/
theorem textSize_timestamp_le (t : Timestamp) : textSize t.text ≤ 33 := by
  have hchars : t.text.toList = t.chars := String.toList_ofList
  rw [textSize_of_isPlain fun c hc => isPlain_of_mem_chars (hchars ▸ hc), hchars]
  obtain ⟨-, hmonth⟩ := month_mem t.date
  have hday := day_le t.date
  have hsecond := t.second_lt
  have hyear := length_yearChars_le t.date
  have hfraction := length_fractionChars_le (Nat.mod_lt t.nano (by decide : 0 < 1_000_000_000))
  have htwo : ∀ {n}, n < 100 → (paddedDigits 2 n).length = 2 := fun h =>
    length_paddedDigits_of_lt (by decide) h
  have hleap : (if 1_000_000_000 ≤ t.nano then 1 else 0) ≤ 1 := by split <;> decide
  simp only [Timestamp.chars, List.length_append, List.length_cons, List.length_nil,
    htwo (show t.date.month < 100 by omega), htwo (show t.date.day < 100 by omega),
    htwo (show t.second / 3600 < 100 by omega),
    htwo (show t.second / 60 % 60 < 100 by omega),
    htwo (show t.second % 60 + (if 1_000_000_000 ≤ t.nano then 1 else 0) < 100 by omega)]
  omega

/-! ### Packets -/

theorem length_transaction (t : Transaction) :
    utf8Length t.document.chars = 236 + decimals t.amount.toNat := by
  have hinput : textSize "input" = 5 := by decide
  have houtput : textSize "output" = 6 := by decide
  have hamount : textSize "amount" = 6 := by decide
  have hname : textSize "name" = 4 := by decide
  rw [Transaction.document, length_record (List.cons_ne_nil _ _)]
  simp only [List.map_cons, List.map_nil, List.sum_cons, List.sum_nil, length_text,
    length_wordDocument, textSize_digest, hinput, houtput, hamount, hname]
  omega

/-- **The size of a packet with a block** that has transactions: 237 bytes and the digits of
the amount for each, and 227 bytes with the timestamp and the hop limit for the rest. -/
theorem length_block (m : BlockPublish) (h : m.block.transactions ≠ []) :
    (Packet.block m).document.bytes.length =
      227 + textSize m.block.time.text + decimals m.hopLimit.toNat +
        (m.block.transactions.map fun t => 237 + decimals t.amount.toNat).sum := by
  have hprevious : textSize "prev_hash" = 9 := by decide
  have hnonce : textSize "nonce" = 5 := by decide
  have htime : textSize "timestamp" = 9 := by decide
  have htransactions : textSize "transactions" = 12 := by decide
  have hblock : textSize "block" = 5 := by decide
  have hhops : textSize "hop_limit" = 9 := by decide
  have htag : textSize PacketKind.block.tag = 12 := by decide
  have hlist : utf8Length (Document.list (m.block.transactions.map Transaction.document)).chars =
      1 + (m.block.transactions.map fun t => 237 + decimals t.amount.toNat).sum := by
    rw [length_list (by simpa using h), List.map_map]
    refine congrArg (fun ns => 1 + List.sum ns) (List.map_congr_left fun t _ => ?_)
    show utf8Length t.document.chars + 1 = _
    rw [length_transaction]
    omega
  show utf8Length (Packet.block m).document.chars = _
  simp only [Packet.document, Packet.body, Packet.kind, BlockPublish.document, Block.document,
    length_record (List.cons_ne_nil _ _), List.map_cons, List.map_nil, List.sum_cons, List.sum_nil,
    length_text, length_wordDocument, textSize_digest, hlist, hprevious, hnonce, htime,
    htransactions, hblock, hhops, htag]
  omega

/-- **The size of a packet with a rumor**: 45 bytes with the texts as they are written and the
digits of the number. -/
theorem length_rumor (r : Rumor) :
    (Packet.rumor r).document.bytes.length =
      45 + textSize r.origin + decimals r.sequence.toNat + textSize r.text := by
  have horigin : textSize "origin" = 6 := by decide
  have hsequence : textSize "sequence" = 8 := by decide
  have htext : textSize "text" = 4 := by decide
  have htag : textSize PacketKind.rumor.tag = 5 := by decide
  show utf8Length (Packet.rumor r).document.chars = _
  simp only [Packet.document, Packet.body, Packet.kind, Rumor.document,
    length_record (List.cons_ne_nil _ _), List.map_cons, List.map_nil, List.sum_cons, List.sum_nil,
    length_text, length_wordDocument, horigin, hsequence, htext, htag]
  omega

/-! ### Datagrams -/

/-- There is a datagram of a packet exactly if it is not too large. -/
theorem Packet.encode_eq_ok_iff (p : Packet) :
    (∃ bytes, p.encode = .ok bytes) ↔ p.document.bytes.length ≤ maxPacketSize := by
  unfold Packet.encode
  simp only
  split
  next h => exact iff_of_true ⟨_, rfl⟩ h
  next h => exact iff_of_false (by rintro ⟨bytes, hbytes⟩; exact absurd hbytes (by simp)) h

/-- **Nothing is sent of a packet that is too large**, whoever it is for. -/
theorem Outbound.datagrams_eq_nil {o : Outbound} (h : ¬∃ bytes, o.packet.encode = .ok bytes)
    (self : PeerAddress) (peers : PeerSet) : o.datagrams self peers = [] := by
  unfold Outbound.datagrams
  split
  next bytes hbytes => exact absurd ⟨bytes, hbytes⟩ h
  next => rfl

/-- A packet with a block of at most 264 transactions is never too large. -/
theorem encode_block_of_length_le {m : BlockPublish} (h : m.block.transactions ≠ [])
    (hlength : m.block.transactions.length ≤ 264) :
    ∃ bytes, (Packet.block m).encode = .ok bytes := by
  rw [Packet.encode_eq_ok_iff, length_block m h]
  have htime := textSize_timestamp_le m.block.time
  have hhops := decimals_word_le m.hopLimit
  have hsum : (m.block.transactions.map fun t => 237 + decimals t.amount.toNat).sum ≤
      m.block.transactions.length * 247 := by
    have hle := List.sum_le_card_nsmul
      (m.block.transactions.map fun t => 237 + decimals t.amount.toNat) 247 ?_
    · simpa using hle
    · intro n hn
      obtain ⟨t, -, rfl⟩ := List.mem_map.1 hn
      have hdigits := decimals_word_le t.amount
      omega
  unfold maxPacketSize
  omega

/-- A packet with a block of 275 transactions or more is always too large. -/
theorem not_encode_block_of_le_length {m : BlockPublish}
    (hlength : 275 ≤ m.block.transactions.length) :
    ¬∃ bytes, (Packet.block m).encode = .ok bytes := by
  have hne : m.block.transactions ≠ [] := by
    intro hnil
    rw [hnil] at hlength
    exact absurd hlength (by decide)
  rw [Packet.encode_eq_ok_iff, length_block m hne]
  have hsum : m.block.transactions.length * 238 ≤
      (m.block.transactions.map fun t => 237 + decimals t.amount.toNat).sum := by
    have hle := List.card_nsmul_le_sum
      (m.block.transactions.map fun t => 237 + decimals t.amount.toNat) 238 ?_
    · simpa using hle
    · intro n hn
      obtain ⟨t, -, rfl⟩ := List.mem_map.1 hn
      have hdigits := decimals_pos t.amount.toNat
      omega
  unfold maxPacketSize
  omega

end GossipLedger
