import GossipLedger.Net.AddressText
import Mathlib.Algebra.Order.Ring.Nat
import Mathlib.Data.List.TakeWhile

/-!
# Addresses as text

A written address is read as that address.  The reader takes one part after the other off the
front of the text, so each part is read back whatever follows, as long as that cannot belong to
the part: no digit behind a number, no point behind a group, and no further group behind groups.

A long address is tried as a short one at every group.  Groups have no points, so that attempt
fails for each of them and succeeds only where a short address is embedded.  The groups that are
left out at `::` are zeros, and there are always at least two, so the groups on both sides of it
never fill the address by themselves.

## Main definitions

* `Numeral` — the digits of a number in a base.
* `EndsDigits`, `EndsGroups` — what may stand behind a number, and behind groups.
* `chainChars` — groups with a colon before each, the first perhaps excepted.

## Main results

* `takeByte_toDigits`, `takeGroup_toDigits`, `takeNumber_toDigits` — numbers are read back.
* `takeHostV4_chars`, `takeHostV6_chars` — so are addresses of either kind.
* `PeerAddress.ofChars?_chars` — **a written address is read as that address.**
-/

namespace GossipLedger

/-! ### Numbers -/

/-- The digits of a number in a base. -/
structure Numeral (base n : Nat) (ds : List Nat) : Prop where
  chars : Nat.toDigits base n = ds.map Nat.digitChar
  lt : ∀ d ∈ ds, d < base
  value : numberOf base ds = n
  head : 0 < n → ds.head? ≠ some 0

theorem numberOf_append_singleton (base : Nat) (ds : List Nat) (d : Nat) :
    numberOf base (ds ++ [d]) = base * numberOf base ds + d := by
  simp [numberOf]

/-- Every number has digits. -/
theorem exists_numeral {base : Nat} (hbase : 1 < base) (n : Nat) : ∃ ds, Numeral base n ds := by
  induction n using Nat.strongRecOn with
  | _ n ih =>
    by_cases hlt : n < base
    · refine ⟨[n], ?_, by simpa using hlt, by simp [numberOf], fun hpos => ?_⟩
      · rw [Nat.toDigits_of_lt_base hlt, List.map_singleton]
      · rw [List.head?_cons, Ne, Option.some.injEq]
        omega
    · have hquotient : 0 < n / base := Nat.div_pos (by omega) (by omega)
      obtain ⟨ds, hds⟩ := ih (n / base) (Nat.div_lt_self (by omega) hbase)
      refine ⟨ds ++ [n % base], ?_, fun d hd => ?_, ?_, fun _ => ?_⟩
      · rw [Nat.toDigits_of_base_le hbase (by omega), hds.chars, List.map_append,
          List.map_singleton]
      · rcases List.mem_append.1 hd with hd | hd
        · exact hds.lt d hd
        · rw [List.mem_singleton.1 hd]
          exact Nat.mod_lt n (by omega)
      · rw [numberOf_append_singleton, hds.value, Nat.div_add_mod]
      · have hhead := hds.head hquotient
        cases ds with
        | nil => exact absurd (hds.chars.trans List.map_nil) Nat.toDigits_ne_nil
        | cons d ds => exact hhead

namespace Numeral

variable {base n : Nat} {ds : List Nat}

theorem ne_nil (h : Numeral base n ds) : ds ≠ [] := by
  rintro rfl
  exact Nat.toDigits_ne_nil h.chars

/-- No zeros stand in front. -/
theorem ne_zero_cons (h : Numeral base n ds) (d : Nat) (rest : List Nat) :
    ds ≠ 0 :: d :: rest := by
  rintro rfl
  rcases Nat.eq_zero_or_pos n with rfl | hpos
  · have hlength := congrArg List.length h.chars
    rw [Nat.toDigits_zero] at hlength
    simp at hlength
  · exact h.head hpos rfl

theorem length_le (h : Numeral base n ds) (hbase : 1 < base) {k : Nat} (hk : 0 < k)
    (hn : n < base ^ k) : ds.length ≤ k := by
  have hlength := (Nat.length_toDigits_le_iff hbase hk).2 hn
  rwa [h.chars, List.length_map] at hlength

end Numeral

theorem digitIn?_digitChar {base d : Nat} (hd : d < base) (hbase : base ≤ 16) :
    digitIn? base (Nat.digitChar d) = some d := by
  have hvalues : ∀ d < 16, digitIn? 16 (Nat.digitChar d) = some d := by decide
  have hvalue := hvalues d (by omega)
  simp only [digitIn?] at hvalue ⊢
  rw [Option.ite_none_right_eq_some] at hvalue
  rw [Option.some.inj hvalue.2, if_pos hd]

/-- What may stand behind a number: nothing, or no digit in any base. -/
def EndsDigits (rest : List Char) : Prop := ∀ c ∈ rest.head?, digitIn? 16 c = none

theorem EndsDigits.nil : EndsDigits [] := by
  intro c hc
  cases hc

theorem EndsDigits.cons {c : Char} (h : digitIn? 16 c = none) (rest : List Char) :
    EndsDigits (c :: rest) := by
  intro d hd
  cases hd
  exact h

/-- What is no digit in base sixteen is none in a smaller base. -/
theorem digitIn?_eq_none {base : Nat} (hbase : base ≤ 16) {c : Char} (h : digitIn? 16 c = none) :
    digitIn? base c = none := by
  simp only [digitIn?, ite_eq_right_iff, reduceCtorEq, imp_false, Nat.not_lt] at h ⊢
  exact Nat.le_trans hbase h

theorem takeDigits_of_endsDigits {base : Nat} (hbase : base ≤ 16) {rest : List Char}
    (h : EndsDigits rest) : takeDigits base rest = ([], rest) := by
  cases rest with
  | nil => rfl
  | cons c rest => rw [takeDigits, digitIn?_eq_none hbase (h c rfl)]

/-- The digits of a number are taken, and no more. -/
theorem Numeral.takeDigits {base n : Nat} {ds : List Nat} (h : Numeral base n ds)
    (hbase : base ≤ 16) {rest : List Char} (hrest : EndsDigits rest) :
    takeDigits base (Nat.toDigits base n ++ rest) = (ds, rest) := by
  have htake : ∀ ds : List Nat, (∀ d ∈ ds, d < base) →
      GossipLedger.takeDigits base (ds.map Nat.digitChar ++ rest) = (ds, rest) := by
    intro ds hlt
    induction ds with
    | nil => exact takeDigits_of_endsDigits hbase hrest
    | cons d ds ih =>
      rw [List.forall_mem_cons] at hlt
      rw [List.map_cons, List.cons_append, GossipLedger.takeDigits, digitIn?_digitChar hlt.1 hbase]
      simp only [ih hlt.2]
  rw [h.chars, htake ds h.lt]

/-- **A written number is read back**, if it is small enough. -/
theorem takeNumber_toDigits {bound n : Nat} (hn : n < bound) {rest : List Char}
    (hrest : EndsDigits rest) : takeNumber bound (Nat.toDigits 10 n ++ rest) = some (n, rest) := by
  obtain ⟨ds, hds⟩ := exists_numeral (by decide : 1 < 10) n
  simp only [takeNumber, hds.takeDigits (by decide) hrest, hds.value]
  rw [if_pos ⟨hds.ne_nil, hn⟩]

/-- A byte is read back. -/
theorem takeByte_toDigits (b : UInt8) {rest : List Char} (hrest : EndsDigits rest) :
    takeByte (Nat.toDigits 10 b.toNat ++ rest) = some (b, rest) := by
  obtain ⟨ds, hds⟩ := exists_numeral (by decide : 1 < 10) b.toNat
  have hlt : b.toNat < 256 := b.toNat_lt
  have hlength : ds.length ≤ 3 := hds.length_le (by decide) (by decide) (by omega)
  simp only [takeByte, hds.takeDigits (by decide) hrest]
  split
  next => exact absurd rfl hds.ne_nil
  next => exact absurd rfl (hds.ne_zero_cons _ _)
  next => rw [hds.value, if_pos ⟨hlength, hlt⟩, UInt8.ofNat_toNat]

/-- A group is read back. -/
theorem takeGroup_toDigits (g : UInt16) {rest : List Char} (hrest : EndsDigits rest) :
    takeGroup (Nat.toDigits 16 g.toNat ++ rest) = some (g, rest) := by
  obtain ⟨ds, hds⟩ := exists_numeral (by decide : 1 < 16) g.toNat
  have hlt : g.toNat < 65536 := g.toNat_lt
  have hlength : ds.length ≤ 4 := hds.length_le (by decide) (by decide) (by omega)
  simp only [takeGroup, hds.takeDigits (by decide) hrest, hds.value]
  rw [if_pos ⟨hds.ne_nil, hlength⟩, UInt16.ofNat_toNat]

theorem takeGroup_eq_none {rest : List Char} (h : EndsDigits rest) : takeGroup rest = none := by
  rw [takeGroup, takeDigits_of_endsDigits (by decide) h]
  rfl

theorem takeChar_self (c : Char) (cs : List Char) : takeChar c (c :: cs) = some cs := if_pos rfl

/-! ### Short addresses -/

/-- **A short address is read back.** -/
theorem takeHostV4_chars (h : HostV4) {rest : List Char} (hrest : EndsDigits rest) :
    takeHostV4 (h.chars ++ rest) = some (h, rest) := by
  have hpoint : ∀ cs, EndsDigits ('.' :: cs) := EndsDigits.cons (by decide)
  simp only [takeHostV4, HostV4.chars, List.append_assoc, List.cons_append,
    takeByte_toDigits _ (hpoint _), takeByte_toDigits _ hrest, takeChar_self, Option.bind_eq_bind,
    Option.bind_some, Option.pure_def]

/-- What has no point behind its decimal digits is no short address. -/
theorem takeHostV4_eq_none {cs : List Char} (h : (takeDigits 10 cs).2.head? ≠ some '.') :
    takeHostV4 cs = none := by
  have hrest : ∀ b rest, takeByte cs = some (b, rest) → rest = (takeDigits 10 cs).2 := by
    intro b rest hbyte
    simp only [takeByte] at hbyte
    split at hbyte
    next => exact nomatch hbyte
    next => exact nomatch hbyte
    next =>
      rw [Option.ite_none_right_eq_some] at hbyte
      exact (Prod.mk.inj (Option.some.inj hbyte.2)).2.symm
  unfold takeHostV4
  cases hbyte : takeByte cs with
  | none => rfl
  | some taken =>
    obtain ⟨b, rest⟩ := taken
    have hchar : takeChar '.' rest = none := by
      rw [← hrest b rest hbyte] at h
      cases rest with
      | nil => rfl
      | cons c rest => exact if_neg fun heq => h (congrArg some heq)
    simp only [Option.bind_eq_bind, Option.bind_some, hchar, Option.bind_none]

/-- What may stand behind a group: neither a digit nor a point. -/
def EndsGroup (rest : List Char) : Prop := EndsDigits rest ∧ rest.head? ≠ some '.'

/-- **A group is no short address.** -/
theorem takeHostV4_toDigits (g : UInt16) {rest : List Char} (hrest : EndsGroup rest) :
    takeHostV4 (Nat.toDigits 16 g.toNat ++ rest) = none := by
  have hpoint : ∀ ds : List Nat, (∀ d ∈ ds, d < 16) →
      (takeDigits 10 (ds.map Nat.digitChar ++ rest)).2.head? ≠ some '.' := by
    intro ds hlt
    induction ds with
    | nil =>
      rw [List.map_nil, List.nil_append, takeDigits_of_endsDigits (by decide) hrest.1]
      exact hrest.2
    | cons d ds ih =>
      rw [List.forall_mem_cons] at hlt
      rw [List.map_cons, List.cons_append, takeDigits]
      cases hdigit : digitIn? 10 (Nat.digitChar d) with
      | some e => exact ih hlt.2
      | none =>
        have hchars : ∀ d < 16, Nat.digitChar d ≠ '.' := by decide
        exact fun heq => hchars d hlt.1 (Option.some.inj heq)
  obtain ⟨ds, hds⟩ := exists_numeral (by decide : 1 < 16) g.toNat
  rw [hds.chars]
  exact takeHostV4_eq_none (hpoint ds hds.lt)

theorem takeHostV4_of_endsGroup {rest : List Char} (h : EndsGroup rest) :
    takeHostV4 rest = none := by
  refine takeHostV4_eq_none ?_
  rw [takeDigits_of_endsDigits (by decide) h.1]
  exact h.2

/-! ### Groups -/

/-- What may stand behind groups: neither a digit nor a point, nor a colon with a digit after
it. -/
structure EndsGroups (rest : List Char) : Prop where
  group : EndsGroup rest
  separator : ∀ cs, rest = ':' :: cs → EndsGroup cs

theorem EndsGroup.cons {c : Char} (h : digitIn? 16 c = none) (hpoint : c ≠ '.')
    (rest : List Char) : EndsGroup (c :: rest) :=
  ⟨.cons h rest, fun heq => hpoint (Option.some.inj heq)⟩

theorem EndsGroups.cons {c : Char} (h : digitIn? 16 c = none) (hpoint : c ≠ '.')
    (hcolon : c ≠ ':') (rest : List Char) : EndsGroups (c :: rest) :=
  ⟨.cons h hpoint rest, fun _ heq => absurd (List.cons.inj heq).1 hcolon⟩

theorem EndsGroups.colons (rest : List Char) : EndsGroups (':' :: ':' :: rest) := by
  refine ⟨.cons (by decide) (by decide) _, fun cs heq => ?_⟩
  rw [← (List.cons.inj heq).2]
  exact .cons (by decide) (by decide) rest

/-- Groups in hexadecimal with a colon before each, except before the first of all. -/
def chainChars : Bool → List UInt16 → List Char
  | _, [] => []
  | first, g :: gs =>
      (if first then [] else [':']) ++ (Nat.toDigits 16 g.toNat ++ chainChars false gs)

theorem groupChars_eq (gs : List UInt16) : groupChars gs = chainChars true gs := by
  have hcons : ∀ (g : UInt16) (gs : List UInt16),
      groupChars (g :: gs) = Nat.toDigits 16 g.toNat ++ chainChars false gs := by
    intro g gs
    induction gs generalizing g with
    | nil => simp [groupChars, chainChars]
    | cons g' gs ih =>
      have hrest := ih g'
      simp only [groupChars, List.map_cons] at hrest ⊢
      rw [List.intercalate_cons_cons, hrest]
      simp [chainChars]
  cases gs with
  | nil => rfl
  | cons g gs => rw [hcons, chainChars, if_pos rfl, List.nil_append]

theorem takeSeparator_append (first : Bool) (cs : List Char) :
    takeSeparator first ((if first then [] else [':']) ++ cs) = some cs := by
  cases first
  · exact takeChar_self ':' cs
  · rfl

/-- Where no more groups stand, none are taken. -/
theorem takeGroups_of_endsGroups (first : Bool) (room : Nat) {rest : List Char}
    (h : EndsGroups rest) : takeGroups first room rest = ([], false, rest) := by
  have hend : ∀ cs, takeSeparator first rest = some cs → EndsGroup cs := by
    intro cs hcs
    cases first with
    | true =>
      obtain rfl := Option.some.inj hcs
      exact h.group
    | false =>
      cases rest with
      | nil => exact nomatch hcs
      | cons c rest =>
        simp only [takeSeparator, takeChar, Bool.false_eq_true, if_false,
          Option.ite_none_right_eq_some, Option.some.injEq] at hcs
        exact h.separator cs (by rw [hcs.1, hcs.2])
  cases room with
  | zero => rfl
  | succ room =>
    have hshort : (takeSeparator first rest).bind takeHostV4 = none := by
      rw [Option.bind_eq_none_iff]
      exact fun cs hcs => takeHostV4_of_endsGroup (hend cs hcs)
    have hgroup : (takeSeparator first rest).bind takeGroup = none := by
      rw [Option.bind_eq_none_iff]
      exact fun cs hcs => takeGroup_eq_none (hend cs hcs).1
    simp only [takeGroups, hshort, hgroup, ite_self]

theorem endsGroup_chainChars (gs : List UInt16) {rest : List Char} (h : EndsGroup rest) :
    EndsGroup (chainChars false gs ++ rest) := by
  cases gs with
  | nil => exact h
  | cons g gs => exact .cons (by decide) (by decide) _

/-- A group is taken, and what follows is left to the next. -/
theorem takeGroups_cons (first : Bool) (room : Nat) (g : UInt16) {rest : List Char}
    (h : EndsGroup rest) :
    takeGroups first (room + 1) ((if first then [] else [':']) ++ (Nat.toDigits 16 g.toNat ++ rest))
      = (g :: (takeGroups false room rest).1, (takeGroups false room rest).2) := by
  simp only [takeGroups, takeSeparator_append, Option.bind_some, takeHostV4_toDigits g h,
    takeGroup_toDigits g h.1, ite_self]

/-- **Groups are read back**, as long as there is room for them. -/
theorem takeGroups_chainChars (first : Bool) {room : Nat} {gs : List UInt16}
    (hroom : gs.length ≤ room) {rest : List Char} (hrest : EndsGroups rest) :
    takeGroups first room (chainChars first gs ++ rest) = (gs, false, rest) := by
  induction gs generalizing first room with
  | nil => exact takeGroups_of_endsGroups first room hrest
  | cons g gs ih =>
    obtain ⟨room, rfl⟩ := Nat.exists_eq_add_of_le' (Nat.le_trans (Nat.succ_pos _) hroom)
    rw [chainChars, List.append_assoc, List.append_assoc,
      takeGroups_cons first room g (endsGroup_chainChars gs hrest.group),
      ih false (by simpa using hroom)]

/-! ### Long addresses -/

theorem HostV6.ext {h k : HostV6} (heq : h.groups = k.groups) : h = k := by
  obtain ⟨gs, hgs⟩ := h
  obtain ⟨ks, hks⟩ := k
  obtain rfl : gs = ks := heq
  rfl

/-- What is left out of a long address at `::` are zeros. -/
theorem HostV6.ofParts?_eq {h : HostV6} {front back : List UInt16} {k : Nat}
    (hgroups : h.groups = front ++ List.replicate k 0 ++ back) :
    HostV6.ofParts? front back = some h := by
  have hlength : front.length + k + back.length = 8 := by
    have hall := h.length_groups
    rwa [hgroups, List.length_append, List.length_append, List.length_replicate] at hall
  have hk : 8 - front.length - back.length = k := by omega
  rw [HostV6.ofParts?, dif_pos (by omega)]
  refine congrArg some (HostV6.ext ?_)
  show front ++ List.replicate (8 - front.length - back.length) 0 ++ back = h.groups
  rw [hgroups, hk]

/-- The longest run of zeros is a run of zeros. -/
theorem exists_longestZeroRun (index : Nat) (gs : List UInt16) :
    ∃ start length, longestZeroRun index gs = (index + start, length) ∧
      gs = gs.take start ++ List.replicate length 0 ++ gs.drop (start + length) := by
  induction gs generalizing index with
  | nil => exact ⟨0, 0, rfl, rfl⟩
  | cons g gs ih =>
    obtain ⟨start, length, hrun, hgs⟩ := ih (index + 1)
    by_cases hlater : zeroRun (g :: gs) < length
    · refine ⟨start + 1, length, ?_, ?_⟩
      · simp only [longestZeroRun, hrun, if_pos hlater]
        rw [Nat.add_assoc, Nat.add_comm 1 start]
      · rw [List.take_succ_cons, Nat.add_right_comm, List.drop_succ_cons, List.cons_append,
          List.cons_append, ← hgs]
    · refine ⟨0, zeroRun (g :: gs), ?_, ?_⟩
      · simp only [longestZeroRun, hrun, if_neg hlater, Nat.add_zero]
      · have hzeros : (g :: gs).takeWhile (· == 0) = List.replicate (zeroRun (g :: gs)) 0 :=
          List.eq_replicate_iff.2 ⟨rfl, fun x hx => by simpa using List.mem_takeWhile_imp hx⟩
        have hall := List.prefix_iff_eq_append.1 (List.takeWhile_prefix (l := g :: gs) (· == 0))
        rw [List.take_zero, List.nil_append, Nat.zero_add, ← hzeros]
        exact hall.symm

/-- A group consists of its two bytes. -/
theorem word_of_bytes (x : UInt16) :
    (x >>> 8).toUInt8.toUInt16 <<< 8 ||| x.toUInt8.toUInt16 = x := by
  have hx : x.toNat < 65536 := x.toNat_lt
  refine UInt16.toNat_inj.1 ?_
  have hlow : x.toNat % 256 < 2 ^ 8 := Nat.mod_lt _ (by decide)
  simp only [UInt16.toNat_or, UInt16.toNat_shiftLeft, UInt8.toNat_toUInt16, UInt16.toNat_toUInt8,
    UInt16.toNat_shiftRight]
  show (x.toNat >>> 8 % 256) <<< 8 % 65536 ||| x.toNat % 256 = x.toNat
  rw [Nat.shiftRight_eq_div_pow, Nat.shiftLeft_eq, Nat.mod_eq_of_lt (by omega : _ < 65536),
    ← Nat.shiftLeft_eq, ← Nat.shiftLeft_add_eq_or_of_lt hlow, Nat.shiftLeft_eq]
  omega

/-- The embedded short address stands for the last two groups. -/
theorem HostV6.groups_of_embedded? {h : HostV6} {short : HostV4} (he : h.embedded? = some short) :
    h.groups = [0, 0, 0, 0, 0, 0xffff] ++ short.groups := by
  unfold HostV6.embedded? at he
  split at he
  next x y hgroups =>
    obtain rfl := Option.some.inj he
    rw [hgroups]
    simp only [HostV4.groups, word_of_bytes]
    rfl
  next => exact nomatch he

/-- An embedded short address is read as the last groups. -/
theorem takeGroups_embedded (short : HostV4) {rest : List Char} (h : EndsGroups rest) :
    takeGroups true 7 ("ffff:".toList ++ (short.chars ++ rest)) =
      (0xffff :: short.groups, true, rest) := by
  have hshort : (takeSeparator false (':' :: (short.chars ++ rest))).bind takeHostV4 =
      some (short, rest) := takeHostV4_chars short h.group.1
  have hmore : takeGroups false 6 (':' :: (short.chars ++ rest)) = (short.groups, true, rest) := by
    simp only [takeGroups, hshort, Nat.reduceLeDiff, if_true]
  have hgroup := takeGroups_cons true 6 0xffff
    (EndsGroup.cons (c := ':') (by decide) (by decide) (short.chars ++ rest))
  rw [hmore] at hgroup
  exact hgroup

/-- The two colons and the groups after them are read back after the groups before them. -/
theorem takeHostV6_colons {h : HostV6} {front back : List UInt16} {cs rest : List Char}
    {embedded : Bool} (hgroups : ∃ k, h.groups = front ++ List.replicate k 0 ++ back ∧ 0 < k)
    (hback : takeGroups true (7 - front.length) cs = (back, embedded, rest)) :
    takeHostV6 (groupChars front ++ ':' :: ':' :: cs) = some (h, rest) := by
  obtain ⟨k, heq, hk⟩ := hgroups
  have hlength : front.length + k + back.length = 8 := by
    have hall := h.length_groups
    rwa [heq, List.length_append, List.length_append, List.length_replicate] at hall
  have hfront : takeGroups true 8 (groupChars front ++ ':' :: ':' :: cs) =
      (front, false, ':' :: ':' :: cs) := by
    rw [groupChars_eq]
    exact takeGroups_chainChars true (by omega) (.colons cs)
  have hshort : front.length ≠ 8 := by omega
  simp only [takeHostV6, hfront, if_neg hshort, Bool.false_eq_true, if_false, takeChar_self,
    Option.bind_eq_bind, Option.bind_some, hback, HostV6.ofParts?_eq heq, Option.pure_def]

/-- **A long address is read back.** -/
theorem takeHostV6_chars (h : HostV6) {rest : List Char} (hrest : EndsGroups rest) :
    takeHostV6 (h.chars ++ rest) = some (h, rest) := by
  unfold HostV6.chars
  split
  next short hshort =>
    have hgroups : h.groups = [] ++ List.replicate 5 0 ++ (0xffff :: short.groups) :=
      HostV6.groups_of_embedded? hshort
    have htaken := takeGroups_embedded short hrest
    rw [List.append_assoc]
    exact @takeHostV6_colons h [] _ _ _ _ ⟨5, hgroups, by decide⟩ htaken
  next =>
    obtain ⟨start, length, hrun, hgs⟩ := exists_longestZeroRun 0 h.groups
    rw [hrun]
    by_cases hlong : 1 < length
    · have hlength := h.length_groups
      rw [hgs, List.length_append, List.length_append, List.length_replicate] at hlength
      have hroom : (h.groups.drop (start + length)).length ≤ 7 - (h.groups.take start).length := by
        omega
      have hback := takeGroups_chainChars true hroom hrest
      simp only [if_pos hlong, Nat.zero_add, List.append_assoc, List.cons_append, groupChars_eq
        (h.groups.drop (start + length))]
      exact takeHostV6_colons ⟨length, hgs, by omega⟩ hback
    · have htaken := takeGroups_chainChars true (Nat.le_of_eq h.length_groups) hrest
      have hparts : HostV6.ofParts? h.groups [] = some h :=
        HostV6.ofParts?_eq (k := 0) (by simp)
      simp only [if_neg hlong, groupChars_eq, takeHostV6, htaken, h.length_groups, if_true, hparts,
        Option.bind_eq_bind, Option.bind_some, Option.pure_def]

/-! ### Peer addresses -/

/-- A port is read back, whatever follows that is no digit. -/
theorem takePort_toDigits (port : UInt16) {rest : List Char} (hrest : EndsDigits rest) :
    takePort (':' :: (Nat.toDigits 10 port.toNat ++ rest)) = some (port, rest) := by
  have hport : port.toNat < UInt16.size := port.toNat_lt
  have hnumber := takeNumber_toDigits hport hrest
  simp only [takePort, takeChar_self, Option.bind_eq_bind, Option.bind_some, hnumber,
    UInt16.ofNat_toNat, Option.pure_def]

/-- The scope of a long address is read back, also if it is left out. -/
theorem takeScope_chars (scope : UInt32) (rest : List Char) :
    takeScope ((if scope = 0 then [] else '%' :: Nat.toDigits 10 scope.toNat) ++ ']' :: rest) =
      (scope, ']' :: rest) := by
  by_cases hzero : scope = 0
  · subst hzero
    rfl
  · have hscope : scope.toNat < UInt32.size := scope.toNat_lt
    have hnumber := takeNumber_toDigits hscope
      (EndsDigits.cons (by decide : digitIn? 16 ']' = none) rest)
    simp only [if_neg hzero, List.cons_append, takeScope, takeChar_self, Option.bind_some, hnumber,
      UInt32.ofNat_toNat]

namespace PeerAddress

/-- What follows a host in brackets. -/
theorem endsGroups_scope (scope : UInt32) (rest : List Char) :
    EndsGroups ((if scope = 0 then [] else '%' :: Nat.toDigits 10 scope.toNat) ++ ']' :: rest) := by
  split
  · exact .cons (by decide) (by decide) (by decide) rest
  · exact .cons (by decide) (by decide) (by decide) _

/-- **A written address is read as that address**, and as no other. -/
theorem ofChars?_chars (p : PeerAddress) : ofChars? p.chars = some p := by
  cases p with
  | v4 host port =>
    have hhost := takeHostV4_chars host
      (EndsDigits.cons (by decide : digitIn? 16 ':' = none) (Nat.toDigits 10 port.toNat))
    have hport := takePort_toDigits port EndsDigits.nil
    rw [List.append_nil] at hport
    simp only [ofChars?, chars, takePeerV4, hhost, hport, Option.bind_eq_bind, Option.bind_some,
      Option.pure_def, Option.orElse_some]
  | v6 host scope port =>
    have hrest := endsGroups_scope scope (':' :: Nat.toDigits 10 port.toNat)
    have hhost := takeHostV6_chars host hrest
    have hscope := takeScope_chars scope (':' :: Nat.toDigits 10 port.toNat)
    have hport := takePort_toDigits port EndsDigits.nil
    rw [List.append_nil] at hport
    have hshort : ∀ cs, takePeerV4 ('[' :: cs) = none := by
      intro cs
      have hnone : takeHostV4 ('[' :: cs) = none :=
        takeHostV4_of_endsGroup (.cons (by decide) (by decide) cs)
      simp only [takePeerV4, hnone, Option.bind_eq_bind, Option.bind_none]
    simp only [ofChars?, chars, List.cons_append, List.append_assoc, hshort, Option.orElse_none,
      takePeerV6, takeChar_self, hhost, hscope, hport, Option.bind_eq_bind, Option.bind_some,
      Option.pure_def]

end PeerAddress
end GossipLedger
