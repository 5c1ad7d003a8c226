import GossipLedger.Json.Reader
import GossipLedger.Proofs.Json.Document

/-!
# Documents that are read

Each reader finds in the tree of a document what was put there.  A record is read by the names
of its fields, so it is enough that the members stand in the order of the fields and that each
field takes the value of its member.

## Main definitions

* `Form.Fills` — members that fill the fields of a record one after the other.

## Main results

* `Form.read_record` — **a record whose members fill its fields is read.**
* `readVariant_record`, `readList_list`, `readWord_whole`, `readText_text` — the same for
  alternatives, lists, numbers and texts.
* `readDocument_bytes` — a whole text is read as the document in it.
-/

namespace GossipLedger.Json

variable {α β : Type}

/-! ### Plain values -/

@[simp] theorem readText_text (s : String) : readText (Document.text s).value = .ok s := by
  simp [readText, readTextAs, Document.value]

@[simp] theorem readTextAs_text (expected s : String) :
    readTextAs expected (Document.text s).value = .ok s := by
  simp [readTextAs, Document.value]

theorem readNatural_whole {bound n : Nat} (expected : String) (hn : n < bound)
    (hfits : n < UInt64.size) :
    readNatural bound expected (Document.whole n).value = .ok n := by
  have hrange : (0 : Int) ≤ n ∧ (n : Int) < bound := by omega
  simp [readNatural, Document.value, value_wholeText hfits, hrange]

@[simp] theorem readWord_whole (n : UInt32) :
    readWord (Document.whole (n.toNat : Int)).value = .ok n := by
  have hn : n.toNat < UInt32.size := n.toNat_lt
  have hfits : n.toNat < UInt64.size := Nat.lt_trans hn (by decide)
  rw [readWord, readNatural_whole "u32" hn hfits]
  exact congrArg Except.ok (UInt32.ofNat_toNat)

theorem readList_list {read : Value → Reading α} {document : α → Document}
    (h : ∀ a, read (document a).value = .ok a) (as : List α) :
    readList read (Document.list (as.map document)).value = .ok as := by
  have hitems : readItems read (listItems (as.map document)) = .ok as := by
    induction as with
    | nil => rfl
    | cons a as ih =>
      rw [List.map_cons, listItems, readItems, h, ih]
      rfl
  rw [Document.value]
  exact hitems

/-! ### Records -/

namespace Form

/-- Members that fill the fields of a record one after the other: the record before, and the
record afterwards. -/
inductive Fills : List (Field α) → List (String × Document) → α → α → Prop
  | nil (a : α) : Fills [] [] a a
  | cons {field : Field α} {d : Document} {fields : List (Field α)}
      {members : List (String × Document)} {a b c : α} :
      field.put d.value a = .ok b → Fills fields members b c →
      Fills (field :: fields) ((field.name, d) :: members) a c

/-- A field that is read with the reader of its value. -/
theorem Fills.of {name : String} {read : Value → Reading β} {set : β → α → α} {d : Document}
    {b : β} {fields : List (Field α)} {members : List (String × Document)} {a c : α}
    (hread : read d.value = .ok b) (hrest : Fills fields members (set b a) c) :
    Fills (.of name read set :: fields) ((name, d) :: members) a c := by
  have hput : (Field.of name read set).put d.value a = .ok (set b a) := by
    simp [Field.of, hread, Except.map]
  exact .cons hput hrest

variable {form : Form α}

/-- The members from some place on fill the fields from that place on. -/
theorem readMembers_of_fills (before : List (Field α)) {fields : List (Field α)}
    {members : List (String × Document)} {a b : α} (hnames : (form.fields.map Field.name).Nodup)
    (hfields : form.fields = before ++ fields) (hfills : Fills fields members a b) :
    form.readMembers (before.map Field.name).reverse (recordMembers members) a = .ok b := by
  induction hfills generalizing before with
  | nil a =>
    rw [List.append_nil] at hfields
    have hnone : form.fields.find? (fun f => f.presence = .required ∧
        f.name ∉ (before.map Field.name).reverse) = none := by
      rw [List.find?_eq_none]
      intro f hf
      have hgiven : f.name ∈ (before.map Field.name).reverse := by
        rw [List.mem_reverse, ← hfields]
        exact List.mem_map_of_mem hf
      simp [hgiven]
    simp only [recordMembers, readMembers, hnone]
  | @cons field d fields members a b c hput hrest ih =>
    have hnames' := hnames
    rw [hfields, List.map_append, List.map_cons] at hnames'
    obtain ⟨-, -, hapart⟩ := List.nodup_append.1 hnames'
    have hnew : ∀ f ∈ before, f.name ≠ field.name := fun f hf =>
      hapart f.name (List.mem_map_of_mem hf) field.name List.mem_cons_self
    have hfind : form.fields.find? (fun f => f.name = field.name) = some field := by
      rw [hfields, List.find?_append, List.find?_eq_none.2 (by simpa using hnew)]
      simp
    have hgiven : field.name ∉ (before.map Field.name).reverse := by
      simpa using hnew
    have hlater := ih (before ++ [field]) (by rw [hfields, List.append_assoc]; rfl)
    rw [List.map_append, List.reverse_append] at hlater
    simp only [recordMembers, readMembers, content_rawText, hfind, if_neg hgiven, hput]
    exact hlater

/-- **A record whose members fill its fields is read.** -/
theorem read_record {members : List (String × Document)} {a : α}
    (hnames : (form.fields.map Field.name).Nodup)
    (hfills : Fills form.fields members form.blank a) :
    form.read (Document.record members).value = .ok a := by
  rw [Document.value]
  exact readMembers_of_fills [] hnames rfl hfills

end Form

/-! ### Alternatives -/

/-- A value with alternatives is read as the alternative that it names. -/
theorem readVariant_record {variants : List (Variant α)} {variant : Variant α} {name : String}
    {d : Document} {a : α} (hfind : variants.find? (fun v => v.name = name) = some variant)
    (hread : variant.read d.value = .ok a) :
    readVariant variants (Document.record [(name, d)]).value = .ok a := by
  simp only [Document.value, recordMembers, readVariant, content_rawText, findVariant, hfind]
  show (variant.read d.value).bind _ = _
  rw [hread]
  rfl

/-! ### Whole texts -/

/-- **A whole text is read as the document in it.** -/
theorem readDocument_bytes {read : Value → Reading α} {d : Document} {a : α}
    (h : read d.value = .ok a) : readDocument read d.bytes = .ok a := by
  unfold readDocument
  rw [scan_bytes]
  show (read d.value).bind _ = _
  rw [h]
  rfl

end GossipLedger.Json
