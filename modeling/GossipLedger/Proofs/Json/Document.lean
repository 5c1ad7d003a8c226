import GossipLedger.Proofs.Json.Text
import GossipLedger.Proofs.Json.Trees

/-!
# Documents that are written and scanned

What is written of a document spells a tree that holds the document and no flaw.  The bytes of a
document follow the grammar without any blanks, and one induction on the document shows it: a
list and a record hand the grammar their items and members one by one.

## Main definitions

* `wholeText` — the parts of a written number.
* `Document.value` — the tree of a document.

## Main results

* `value_wholeText` — a written number denotes that number.
* `Document.spells` — **a document that is written spells its tree.**
* `scan_bytes` — a document that is written is scanned into its tree.
-/

namespace GossipLedger.Json

/-! ### Numbers -/

/-- The decimal digits of a number. -/
def digitsOf (n : Nat) : List Nat := (Nat.toDigits 10 n).map fun c => c.toNat - 48

/-- The parts of a written number. -/
def wholeText (n : Int) : NumberText := ⟨decide (n < 0), digitsOf n.natAbs, none, none⟩

theorem toNat_of_isDigit {c : Char} (h : c.isDigit = true) : 48 ≤ c.toNat ∧ c.toNat ≤ 57 := by
  simp only [Char.isDigit, Bool.and_eq_true, decide_eq_true_eq] at h
  exact ⟨UInt32.le_iff_toNat_le.1 h.1, UInt32.le_iff_toNat_le.1 h.2⟩

/-- The bytes of the digits of a number. -/
def digitBytes (n : Nat) : Bytes := (Nat.toDigits 10 n).flatMap String.utf8EncodeChar

theorem digitBytes_eq (n : Nat) :
    digitBytes n = (Nat.toDigits 10 n).map fun c => UInt8.ofNat c.toNat := by
  have hchars : ∀ cs : List Char, (∀ c ∈ cs, c.isDigit = true) →
      cs.flatMap String.utf8EncodeChar = cs.map fun c => UInt8.ofNat c.toNat := by
    intro cs h
    induction cs with
    | nil => rfl
    | cons c cs ih =>
      rw [List.forall_mem_cons] at h
      have hdigit := toNat_of_isDigit h.1
      rw [List.flatMap_cons, ih h.2, utf8EncodeChar_of_lt (by omega)]
      rfl
  exact hchars _ fun c hc => Nat.isDigit_of_mem_toDigits (by decide) (by decide) hc

theorem isDigit_of_mem_digitBytes {n : Nat} {b : UInt8} (hb : b ∈ digitBytes n) :
    isDigit b = true := by
  rw [digitBytes_eq] at hb
  obtain ⟨c, hc, rfl⟩ := List.mem_map.1 hb
  obtain ⟨hlow, hhigh⟩ := toNat_of_isDigit (Nat.isDigit_of_mem_toDigits (by decide) (by decide) hc)
  have hbyte : (UInt8.ofNat c.toNat).toNat = c.toNat := by
    rw [UInt8.toNat_ofNat', Nat.mod_eq_of_lt (by omega)]
  simp only [isDigit, Bool.and_eq_true, decide_eq_true_eq, UInt8.le_iff_toNat_le, hbyte]
  exact ⟨hlow, hhigh⟩

theorem map_digitValue_digitBytes (n : Nat) : (digitBytes n).map digitValue = digitsOf n := by
  rw [digitBytes_eq, List.map_map]
  refine List.map_congr_left fun c hc => ?_
  have hdigit := toNat_of_isDigit (Nat.isDigit_of_mem_toDigits (by decide) (by decide) hc)
  show (UInt8.ofNat c.toNat).toNat - 48 = _
  rw [UInt8.toNat_ofNat', Nat.mod_eq_of_lt (by omega)]

/-- A number of several digits does not begin with a zero. -/
theorem digitsOf_eq_zero_cons {n : Nat} {ds : List Nat} (h : digitsOf n = 0 :: ds) : ds = [] := by
  have hpos : ∀ n, 0 < n → ∀ ds, digitsOf n ≠ 0 :: ds := by
    intro n
    induction n using Nat.strongRecOn with
    | _ n ih =>
      intro hn ds
      by_cases hlt : n < 10
      · rw [digitsOf, Nat.toDigits_of_lt_base hlt, List.map_singleton,
          Nat.toNat_digitChar_sub_48_of_lt_ten hlt]
        intro heq
        cases heq
        omega
      · have hstep : digitsOf n = digitsOf (n / 10) ++ [(Nat.digitChar (n % 10)).toNat - 48] := by
          rw [digitsOf, Nat.toDigits_of_base_le (by decide) (Nat.not_lt.1 hlt), List.map_append]
          rfl
        have hrest := ih (n / 10) (by omega) (by omega)
        intro heq
        rw [hstep] at heq
        cases hds : digitsOf (n / 10) with
        | nil =>
          have hne : digitsOf (n / 10) ≠ [] := by simp [digitsOf]
          exact hne hds
        | cons d ds' =>
          rw [hds, List.cons_append] at heq
          obtain ⟨rfl, -⟩ := List.cons.inj heq
          exact hrest ds' hds
  by_cases hn : n = 0
  · subst hn
    exact (List.cons.inj h).2.symm
  · exact absurd h (hpos n (by omega) ds)

/-- The bytes of a whole number. -/
def wholeBytes (n : Int) : Bytes := (if n < 0 then [Mark.minus] else []) ++ digitBytes n.natAbs

/-- **A written number spells its parts.** -/
theorem spelledBy_wholeBytes (n : Int) : (wholeText n).SpelledBy (wholeBytes n) := by
  have hdigits : Digits (digitBytes n.natAbs) := by
    refine ⟨fun b hb => isDigit_of_mem_digitBytes hb, ?_⟩
    simp [digitBytes_eq]
  have hzero : ∀ ds, (digitBytes n.natAbs).map digitValue = 0 :: ds → ds = [] := by
    intro ds h
    rw [map_digitValue_digitBytes] at h
    exact digitsOf_eq_zero_cons h
  have hspelled : NumberText.SpelledBy ⟨decide (n < 0), _, none, none⟩ _ :=
    .parts hdigits hzero .without .without
  simpa [wholeText, wholeBytes, signBytes, map_digitValue_digitBytes] using hspelled

/-- Digits are gathered as long as the number is small enough. -/
theorem gather_eq {ds : List Nat} {n : Nat}
    (h : ds.foldl (fun n d => 10 * n + d) n < UInt64.size) :
    NumberText.gather n ds = (ds.foldl (fun n d => 10 * n + d) n, []) := by
  have hgrows : ∀ (ds : List Nat) (n : Nat), n ≤ ds.foldl (fun n d => 10 * n + d) n := by
    intro ds
    induction ds with
    | nil => exact fun n => Nat.le_refl n
    | cons d ds ih => exact fun n => Nat.le_trans (by omega) (ih (10 * n + d))
  induction ds generalizing n with
  | nil => rfl
  | cons d ds ih =>
    rw [List.foldl_cons] at h
    rw [NumberText.gather, if_pos (Nat.lt_of_le_of_lt (hgrows ds _) h), ih h, List.foldl_cons]

theorem foldl_digitsOf (n : Nat) : (digitsOf n).foldl (fun n d => 10 * n + d) 0 = n := by
  rw [digitsOf, List.foldl_map]
  exact Nat.ofDigitChars_ten_toDigits

/-- **Digits denote the number that they make up**, if it fits in 64 bits. -/
theorem value_of_foldl {ds : List Nat} {n : Nat} (h : ds.foldl (fun n d => 10 * n + d) 0 = n)
    (hfits : n < UInt64.size) : NumberText.value ⟨false, ds, none, none⟩ = .ok (.whole n) := by
  have hgather : NumberText.gather 0 ds = (n, []) := by rw [gather_eq (by rwa [h]), h]
  simp only [NumberText.value, hgather, Bool.not_false, if_true]

/-- A written number denotes that number. -/
theorem value_wholeText {n : Nat} (h : n < UInt64.size) :
    (wholeText n).value = .ok (.whole n) := by
  have hsign : decide ((n : Int) < 0) = false := by simp
  rw [wholeText, hsign, Int.natAbs_natCast]
  exact value_of_foldl (foldl_digitsOf n) h

/-! ### The bytes and the tree of a document -/

mutual

/-- The tree of a document. -/
def Document.value : Document → Value
  | .null => .null
  | .boolean b => .boolean b
  | .whole n => .number (wholeText n)
  | .text s => .text (rawText s)
  | .list items => .list (listItems items)
  | .record members => .record (recordMembers members)

/-- The tree of the items of a list. -/
def listItems : List Document → Items
  | [] => .closed
  | d :: ds => .more d.value (listItems ds)

/-- The tree of the members of a record. -/
def recordMembers : List (String × Document) → Members
  | [] => .closed
  | (k, d) :: ms => .more (rawText k) d.value (recordMembers ms)

end

/-- The bytes behind the first item of a list. -/
def itemBytes : List Document → Bytes
  | [] => [Mark.closeList]
  | d :: ds => Mark.comma :: (d.bytes ++ itemBytes ds)

/-- The bytes of a member of a record. -/
def memberBytes (m : String × Document) : Bytes :=
  (Document.text m.1).bytes ++ Mark.colon :: m.2.bytes

/-- The bytes behind the first member of a record. -/
def membersBytes : List (String × Document) → Bytes
  | [] => [Mark.closeRecord]
  | m :: ms => Mark.comma :: (memberBytes m ++ membersBytes ms)

theorem bytes_whole (n : Int) : (Document.whole n).bytes = wholeBytes n := by
  have hchars : (toString n).toList =
      (if n < 0 then ['-'] else []) ++ Nat.toDigits 10 n.natAbs := by
    cases n with
    | ofNat n => exact Nat.toList_repr
    | negSucc n =>
      rw [if_pos (Int.negSucc_lt_zero n)]
      show ("-" ++ (n + 1).repr).toList = _
      rw [String.toList_append, Nat.toList_repr]
      rfl
  rw [Document.bytes, Document.chars, hchars, List.flatMap_append, wholeBytes, digitBytes]
  split <;> rfl

theorem bytes_list_cons (d : Document) (ds : List Document) :
    (Document.list (d :: ds)).bytes = Mark.openList :: (d.bytes ++ itemBytes ds) := by
  have hitems : ∀ (d : Document) (ds : List Document),
      (listChars (d :: ds) ++ [']']).flatMap String.utf8EncodeChar = d.bytes ++ itemBytes ds := by
    intro d ds
    induction ds generalizing d with
    | nil =>
      rw [listChars, List.flatMap_append]
      rfl
    | cons e es ih =>
      rw [listChars, List.append_assoc, List.cons_append, List.flatMap_append, List.flatMap_cons,
        ih e]
      · rfl
      · exact List.cons_ne_nil e es
  rw [Document.bytes, Document.chars, List.cons_append, List.flatMap_cons, hitems]
  rfl

theorem bytes_record_cons (m : String × Document) (ms : List (String × Document)) :
    (Document.record (m :: ms)).bytes = Mark.openRecord :: (memberBytes m ++ membersBytes ms) := by
  have hmembers : ∀ (m : String × Document) (ms : List (String × Document)),
      (memberChars (m :: ms) ++ ['\x7d']).flatMap String.utf8EncodeChar =
        memberBytes m ++ membersBytes ms := by
    intro m ms
    induction ms generalizing m with
    | nil =>
      rw [memberChars, List.flatMap_append, List.flatMap_append, List.flatMap_cons]
      rfl
    | cons n ns ih =>
      rw [memberChars, List.append_assoc, List.cons_append, List.flatMap_append,
        List.flatMap_append, List.flatMap_cons, List.flatMap_cons, ih n]
      · rfl
      · exact List.cons_ne_nil n ns
  rw [Document.bytes, Document.chars, List.cons_append, List.flatMap_cons, hmembers]
  rfl

/-! ### What a document spells -/

/-- A member spells its key and its value. -/
theorem SpellsMember.bytes {m : String × Document} {members : Members} {text : Bytes}
    (hm : Spells m.2.value m.2.bytes) (hrest : SpellsMoreMembers members text) :
    SpellsMember (.more (rawText m.1) m.2.value members) (memberBytes m ++ text) := by
  rw [memberBytes, List.append_assoc]
  exact .member (spelledBy_quoted m.1) .nil .nil hm hrest

mutual

/-- **A document that is written spells its tree.** -/
theorem Document.spells : ∀ d : Document, Spells d.value d.bytes
  | .null => .null
  | .boolean true => .yes
  | .boolean false => .no
  | .whole n => bytes_whole n ▸ .number (spelledBy_wholeBytes n)
  | .text s => .text (spelledBy_quoted s)
  | .list [] => .list (.closed .nil)
  | .list (d :: ds) => bytes_list_cons d ds ▸ .list (.first .nil d.spells (spells_listItems ds))
  | .record [] => .record (.closed .nil)
  | .record (m :: ms) =>
      bytes_record_cons m ms ▸
        .record (@SpellsMembers.first _ [] _ .nil (.bytes m.2.spells (spells_recordMembers ms)))

theorem spells_listItems : ∀ ds : List Document, SpellsMoreItems (listItems ds) (itemBytes ds)
  | [] => .closed .nil
  | d :: ds => .next .nil .nil d.spells (spells_listItems ds)

theorem spells_recordMembers : ∀ ms : List (String × Document),
    SpellsMoreMembers (recordMembers ms) (membersBytes ms)
  | [] => .closed .nil
  | m :: ms =>
      @SpellsMoreMembers.next _ [] [] _ .nil .nil (.bytes m.2.spells (spells_recordMembers ms))

end

/-- **A document that is written is scanned into its tree**, and nothing is left over. -/
theorem scan_bytes (d : Document) : Value.scan d.bytes = (d.value, []) := by
  have hscan : Value.scan ([] ++ (d.bytes ++ [])) = (d.value, []) :=
    scan_of_spells d.spells .nil fun _ _ _ hb => nomatch hb
  rwa [List.append_nil] at hscan

end GossipLedger.Json
