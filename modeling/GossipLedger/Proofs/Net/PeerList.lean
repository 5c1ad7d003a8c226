import GossipLedger.Net.PeerSet
import GossipLedger.Proofs.Net.Address
import GossipLedger.Proofs.Text.Blank
import Mathlib.Data.List.Forall2

/-!
# Lists of addresses as text

A list of addresses is written with a comma between any two.  No address holds a comma or a blank,
so each item of the written list is the text of one address, and a list is read as the addresses
it was written of, in their order.  In a list written by hand, items may have blanks around them
or be blank altogether: the list is read exactly if each of the other items is an address by
itself, and then as these addresses, also those that come twice.

## Main definitions

* `listItems` — the items between the commas of a text that are not blank.

## Main results

* `PeerAddress.parse_text` — a written address is read as that address.
* `fields_intercalate` — what is written with separators between is split there.
* `PeerAddress.parseList_eq_ok_iff` — what a text with commas is read as.
* `PeerAddress.parseList_text_and_iff` — **written sets of peers are read back**, and every text is
  read item by item.
-/

namespace GossipLedger

/-! ### The characters of an address -/

/-- The characters that addresses are written with. -/
def addressChars : List Char :=
  ['0', '1', '2', '3', '4', '5', '6', '7', '8', '9', 'a', 'b', 'c', 'd', 'e', 'f',
    '.', ':', '[', ']', '%']

theorem not_isBlank_of_mem_addressChars : ∀ c ∈ addressChars, isBlank c = false :=
  forall_mem_of_all (by decide)

theorem mem_addressChars_of_mem_toDigits {base n : Nat} (hbase : 1 < base) (hle : base ≤ 16) :
    ∀ c ∈ Nat.toDigits base n, c ∈ addressChars := by
  obtain ⟨ds, hds⟩ := exists_numeral hbase n
  rw [hds.chars, List.forall_mem_map]
  have hchars : ∀ d < 16, Nat.digitChar d ∈ addressChars := by decide
  exact fun d hd => hchars d (Nat.lt_of_lt_of_le (hds.lt d hd) hle)

theorem mem_addressChars_of_mem_hostV4 (h : HostV4) : ∀ c ∈ h.chars, c ∈ addressChars := by
  have hpoint : '.' ∈ addressChars := by decide
  have hdigits : ∀ n, ∀ c ∈ Nat.toDigits 10 n, c ∈ addressChars :=
    fun _ => mem_addressChars_of_mem_toDigits (by decide) (by decide)
  simp only [HostV4.chars, List.forall_mem_append, List.forall_mem_cons, hpoint, true_and]
  exact ⟨⟨⟨hdigits _, hdigits _⟩, hdigits _⟩, hdigits _⟩

theorem mem_addressChars_of_mem_groups (gs : List UInt16) :
    ∀ c ∈ groupChars gs, c ∈ addressChars := by
  have hcolon : ':' ∈ addressChars := by decide
  have hchain : ∀ first, ∀ c ∈ chainChars first gs, c ∈ addressChars := by
    induction gs with
    | nil => exact fun first c hc => nomatch hc
    | cons g gs ih =>
      intro first
      have hdigits : ∀ c ∈ Nat.toDigits 16 g.toNat, c ∈ addressChars :=
        mem_addressChars_of_mem_toDigits (by decide) (by decide)
      rw [chainChars, List.forall_mem_append, List.forall_mem_append]
      refine ⟨?_, hdigits, ih false⟩
      cases first
      · simpa using hcolon
      · simp
  rw [groupChars_eq]
  exact hchain true

theorem mem_addressChars_of_mem_hostV6 (h : HostV6) : ∀ c ∈ h.chars, c ∈ addressChars := by
  have hcolon : ':' ∈ addressChars := by decide
  unfold HostV6.chars
  split
  next short _ =>
    rw [List.forall_mem_append]
    exact ⟨forall_mem_of_all (by decide), mem_addressChars_of_mem_hostV4 short⟩
  next =>
    dsimp only
    split
    · simp only [List.forall_mem_append, List.forall_mem_cons, hcolon, true_and]
      exact ⟨mem_addressChars_of_mem_groups _, mem_addressChars_of_mem_groups _⟩
    · exact mem_addressChars_of_mem_groups _

/-- An address is written with the characters of addresses only. -/
theorem PeerAddress.mem_addressChars_of_mem_chars (p : PeerAddress) :
    ∀ c ∈ p.chars, c ∈ addressChars := by
  have hmarks : ':' ∈ addressChars ∧ '[' ∈ addressChars ∧ ']' ∈ addressChars ∧
      '%' ∈ addressChars := by decide
  obtain ⟨hcolon, hopen, hclose, hscope⟩ := hmarks
  have hdigits : ∀ n, ∀ c ∈ Nat.toDigits 10 n, c ∈ addressChars :=
    fun _ => mem_addressChars_of_mem_toDigits (by decide) (by decide)
  cases p with
  | v4 host port =>
    simp only [chars, List.forall_mem_append, List.forall_mem_cons, hcolon, true_and]
    exact ⟨mem_addressChars_of_mem_hostV4 host, hdigits _⟩
  | v6 host scope port =>
    simp only [chars, List.forall_mem_append, List.forall_mem_cons, hcolon, hopen, hclose, true_and]
    refine ⟨⟨mem_addressChars_of_mem_hostV6 host, ?_⟩, hdigits _⟩
    split
    · simp
    · rw [List.forall_mem_cons]
      exact ⟨hscope, hdigits _⟩

theorem PeerAddress.chars_ne_nil (p : PeerAddress) : p.chars ≠ [] := by
  cases p <;> simp [chars]

/-- There are no blanks in a written address, so trimming leaves it alone. -/
theorem PeerAddress.trimBlank_chars (p : PeerAddress) : trimBlank p.chars = p.chars := by
  have hnone : ∀ c ∈ p.chars, isBlank c = false :=
    fun c hc => not_isBlank_of_mem_addressChars c (p.mem_addressChars_of_mem_chars c hc)
  refine Trims.eq ⟨⟨[], [], by simp, by simp, by simp⟩, ?_, ?_⟩
  · exact fun c hc => hnone c (List.mem_of_mem_head? hc)
  · exact fun c hc => hnone c (List.mem_of_mem_getLast? hc)

/-- **A written address is read as that address.** -/
theorem PeerAddress.parse_text (p : PeerAddress) : parse p.text = .ok p := by
  rw [parse, text, String.toList_ofList, trimBlank_chars, ofChars?_chars]

/-- The blanks around an address make no difference, except to a complaint about it. -/
theorem PeerAddress.parse_trimBlank {cs : List Char} {p : PeerAddress} :
    parse (String.ofList (trimBlank cs)) = .ok p ↔ parse (String.ofList cs) = .ok p := by
  simp only [parse, String.toList_ofList, trimBlank_trimBlank]
  cases ofChars? (trimBlank cs) <;> simp

/-! ### Items between commas -/

/-- The fields of a text are what the library splits it into. -/
theorem fields_eq_splitOn (separator : Char) (cs : List Char) :
    fields separator cs = cs.splitOn separator := by
  induction cs with
  | nil => rfl
  | cons c cs ih =>
    rw [fields, List.splitOn_cons_eq_if_modifyHead, ih]
    simp only [beq_iff_eq]
    split
    · rfl
    · cases hsplit : cs.splitOn separator with
      | nil => exact absurd hsplit (List.splitOn_ne_nil separator cs)
      | cons part parts => rfl

/-- What is written with separators between is split there. -/
theorem fields_intercalate {separator : Char} {parts : List (List Char)} (hne : parts ≠ [])
    (hparts : ∀ part ∈ parts, separator ∉ part) :
    fields separator ([separator].intercalate parts) = parts := by
  rw [fields_eq_splitOn, List.splitOn_intercalate separator hparts hne]

/-- The items between the commas of a text that are not blank, as they stand there. -/
def listItems (text : String) : List (List Char) :=
  (fields ',' text.toList).filter fun item => item.any fun c => !isBlank c

/-- Several things are all related to something exactly if each of them is. -/
theorem exists_forall₂_iff {α β : Type} {r : α → β → Prop} {as : List α} :
    (∃ bs, List.Forall₂ r as bs) ↔ ∀ a ∈ as, ∃ b, r a b := by
  induction as with
  | nil => simp
  | cons a as ih =>
    rw [List.forall_mem_cons, ← ih]
    simp only [List.forall₂_cons_left_iff]
    constructor
    · rintro ⟨_, b, bs, hb, hbs, -⟩
      exact ⟨⟨b, hb⟩, bs, hbs⟩
    · rintro ⟨⟨b, hb⟩, bs, hbs⟩
      exact ⟨_, b, bs, hb, hbs, rfl⟩

/-- All of several things succeed exactly if each of them does, with results in the same order. -/
theorem mapM_eq_ok_iff {ε α β : Type} {f : α → Except ε β} {as : List α} {bs : List β} :
    as.mapM f = .ok bs ↔ List.Forall₂ (fun a b => f a = .ok b) as bs := by
  induction as generalizing bs with
  | nil =>
    rw [List.forall₂_nil_left_iff]
    exact ⟨fun h => (Except.ok.inj h).symm, fun h => congrArg Except.ok h.symm⟩
  | cons a as ih =>
    rw [List.forall₂_cons_left_iff, List.mapM_cons]
    cases hfa : f a with
    | error e => simp [bind, Except.bind]
    | ok b =>
      cases hrest : as.mapM f with
      | error e => simp [bind, Except.bind, ← ih, hrest]
      | ok bs' =>
        simp only [bind, Except.bind, pure, Except.pure, Except.ok.injEq, ← ih, hrest]
        constructor
        · rintro rfl
          exact ⟨b, bs', rfl, rfl, rfl⟩
        · rintro ⟨_, _, rfl, rfl, rfl⟩
          rfl

namespace PeerAddress

/-- The items that are read are those that are not blank, without the blanks around them. -/
theorem filter_map_trimBlank (cs : List (List Char)) :
    (cs.map trimBlank).filter (· ≠ []) =
      (cs.filter fun item => item.any fun c => !isBlank c).map trimBlank := by
  rw [List.filter_map]
  refine congrArg (List.map trimBlank) (List.filter_congr fun item _ => ?_)
  rw [Bool.eq_iff_iff]
  simp [trimBlank_eq_nil_iff]

/-- **A text with commas is read as the addresses that its items are**, in their order. -/
theorem parseList_eq_ok_iff {text : String} {ps : List PeerAddress} :
    parseList text = .ok ps ↔
      List.Forall₂ (fun item p => parse (String.ofList item) = .ok p) (listItems text) ps := by
  rw [parseList, filter_map_trimBlank, mapM_eq_ok_iff, List.forall₂_map_left_iff]
  simp only [parse_trimBlank]
  rfl

/-- A written list of addresses is read as that list. -/
theorem parseList_intercalate (ps : List PeerAddress) :
    parseList (",".intercalate (ps.map text)) = .ok ps := by
  rw [parseList_eq_ok_iff]
  have hchars : (",".intercalate (ps.map text)).toList = [','].intercalate (ps.map chars) := by
    rw [String.toList_intercalate, List.map_map]
    refine congrArg (List.intercalate [',']) (List.map_congr_left fun p _ => ?_)
    exact String.toList_ofList
  have hitems : listItems (",".intercalate (ps.map text)) = ps.map chars := by
    rw [listItems, hchars]
    cases ps with
    | nil => rfl
    | cons p ps =>
      have hcomma : ',' ∉ addressChars := by decide
      rw [fields_intercalate (by simp), List.filter_eq_self]
      · rw [List.forall_mem_map]
        intro q _
        obtain ⟨c, cs, hq⟩ := List.exists_cons_of_ne_nil q.chars_ne_nil
        have hc : c ∈ q.chars := hq ▸ List.mem_cons_self
        rw [List.any_eq_true]
        have hblank := not_isBlank_of_mem_addressChars c (q.mem_addressChars_of_mem_chars c hc)
        exact ⟨c, hc, by rw [hblank]; rfl⟩
      · rw [List.forall_mem_map]
        exact fun q _ hq => hcomma (q.mem_addressChars_of_mem_chars _ hq)
  rw [hitems, List.forall₂_map_left_iff, List.forall₂_same]
  exact fun p _ => p.parse_text

end PeerAddress

/-! ### Sets of peers -/

/-- Peers that are all different are added as they come. -/
theorem PeerSet.toList_addAll {s : PeerSet} {ps : List PeerAddress}
    (hnodup : (s.toList ++ ps).Nodup) : (s.addAll ps).toList = s.toList ++ ps := by
  induction ps generalizing s with
  | nil => exact (List.append_nil _).symm
  | cons p ps ih =>
    have hnew : p ∉ s := fun hp =>
      (List.nodup_append.1 hnodup).2.2 p hp p List.mem_cons_self rfl
    have hadd : (s.add p).toList = s.toList ++ [p] := by
      rw [PeerSet.add, dif_neg hnew]
    have hlater := ih (s := s.add p) (by rwa [hadd, List.append_assoc])
    rw [PeerSet.addAll, List.foldl_cons, ← PeerSet.addAll, hlater, hadd, List.append_assoc]
    rfl

/-- A set is the set of its peers. -/
theorem PeerSet.ofList_toList (s : PeerSet) : PeerSet.ofList s.toList = s := by
  refine PeerSet.ext ?_
  exact PeerSet.toList_addAll (s := PeerSet.empty) s.nodup

/-- **A written set of peers is read as its addresses in their order**, and these make up the same
set.  Any text at all is read exactly if each of its items is an address by itself, blank items
aside, and then as the addresses of its items, one for each and in their order. -/
theorem PeerAddress.parseList_text_and_iff :
    (∀ s : PeerSet, parseList s.text = .ok s.toList ∧ PeerSet.ofList s.toList = s) ∧
    (∀ text ps, parseList text = .ok ps ↔
      List.Forall₂ (fun item p => parse (String.ofList item) = .ok p) (listItems text) ps) ∧
    (∀ text, (∃ ps, parseList text = .ok ps) ↔
      ∀ item ∈ listItems text, ∃ p, parse (String.ofList item) = .ok p) := by
  refine ⟨fun s => ⟨parseList_intercalate s.toList, s.ofList_toList⟩,
    fun text ps => parseList_eq_ok_iff, fun text => ?_⟩
  simp only [parseList_eq_ok_iff]
  exact exists_forall₂_iff

end GossipLedger
