import GossipLedger.Proofs.Json.Shape

/-!
# Records that are read

A record is read from members in any order or from a list of its fields in theirs.  If all its
fields must be given, then reading it succeeds exactly if each of them is given once: no member
is missing, none is repeated, and a list has neither less nor more items than there are fields.
Members that nobody asks for may stand anywhere.

The reader sets one field after the other as the members come.  Fields that are set without
regard to each other may as well be set in their own order, so the members have no order to the
record that is read.

## Main definitions

* `Value.Gives` — a value that gives each of certain fields once.
* `Value.Holds` — the same, with what is asked of the value of each field.
* `Form.Regular` — a record all of whose fields must be given and are set independently.

## Main results

* `Form.Regular.read_eq_ok_iff` — **a record is read exactly if each field is given once**, and each with
  a value that is read.
-/

namespace GossipLedger.Json

variable {α β γ : Type}

/-! ### What a record gives -/

/-- The values of the members of a name. -/
def Members.given (name : String) : Members → List Value
  | .more key v rest =>
      if key.content.toOption = some name then v :: rest.given name else rest.given name
  | _ => []

/-- Every member has a name. -/
def Members.Named : Members → Prop
  | .more key _ rest => (∃ name, key.content = .ok name) ∧ rest.Named
  | _ => True

/-- A value that gives each of these fields once, in a record by their names and in a list by
their places. -/
inductive Value.Gives (names : List String) : Value → List Value → Prop
  | byName {members : Members} {vs : List Value} : members.skip = none → members.Named →
      List.Forall₂ (fun name v => members.given name = [v]) names vs →
      Value.Gives names (.record members) vs
  | byPlace {items : Items} : items.skip = none → items.values.length = names.length →
      Value.Gives names (.list items) items.values

theorem Value.Gives.skip {names : List String} {v : Value} {vs : List Value}
    (h : v.Gives names vs) : v.skip = none := by
  cases h with
  | byName hclean _ _ => exact hclean
  | byPlace hclean _ => exact hclean

/-- A value that gives each of these fields once, each with a value as asked for. -/
def Value.Holds (v : Value) (fields : List (String × (Value → Prop))) : Prop :=
  ∃ vs, v.Gives (fields.map Prod.fst) vs ∧ List.Forall₂ (fun field w => field.2 w) fields vs

theorem Value.Holds.skip {v : Value} {fields : List (String × (Value → Prop))}
    (h : v.Holds fields) : v.skip = none := by
  obtain ⟨_, hgives, -⟩ := h
  exact hgives.skip

theorem Members.given_more {key : RawText} {name : String} (hkey : key.content = .ok name)
    (v : Value) (rest : Members) (asked : String) :
    (Members.more key v rest).given asked =
      if name = asked then v :: rest.given asked else rest.given asked := by
  simp only [Members.given, hkey, Except.toOption, Option.some.injEq]

/-- A record of a single member gives the field of that name. -/
theorem Value.IsTagged.gives {v : Value} {name : String} {body : Value → Prop}
    (h : v.IsTagged name body) (hbody : ∀ w, body w → w.skip = none) :
    ∃ vs, v.Gives [name] vs := by
  have hclean := h.skip hbody
  obtain ⟨key, w, rfl, hkey, -⟩ := h
  refine ⟨[w], .byName hclean ⟨⟨name, hkey⟩, trivial⟩ (.cons ?_ .nil)⟩
  rw [Members.given_more hkey, if_pos rfl]
  rfl

/-! ### Fields that are set -/

/-- A field that must be given and takes no value with a flaw. -/
structure Field.Plain (field : Field α) : Prop where
  required : field.presence = .required
  careful : ∀ {v a b}, field.put v a = .ok b → v.skip = none

theorem Field.Plain.of {name : String} {read : Value → Reading β} {set : β → α → α}
    (hread : Careful read) : Field.Plain (.of name read set) where
  required := rfl
  careful := fun h => by
    obtain ⟨b, hb, -⟩ := map_eq_ok_iff.1 h
    exact hread _ b hb

/-- Fields that are set without regard to each other, so that it does not matter which of them
comes first. -/
def Field.Apart (f g : Field α) : Prop :=
  ∀ v w a c, (∃ b, f.put v a = .ok b ∧ g.put w b = .ok c) ↔
    ∃ b, g.put w a = .ok b ∧ f.put v b = .ok c

theorem Field.Apart.symm {f g : Field α} (h : f.Apart g) : g.Apart f :=
  fun v w a c => (h w v a c).symm

theorem Field.put_of {name : String} {read : Value → Reading β} {set : β → α → α} {v : Value}
    {a b : α} : (Field.of name read set).put v a = .ok b ↔ ∃ x, read v = .ok x ∧ set x a = b :=
  map_eq_ok_iff

theorem Field.Apart.of {name name' : String} {read : Value → Reading β} {read' : Value → Reading γ}
    {set : β → α → α} {set' : γ → α → α} (h : ∀ x y a, set' y (set x a) = set x (set' y a)) :
    Field.Apart (.of name read set) (.of name' read' set') := by
  intro v w a c
  simp only [Field.put_of]
  constructor
  · rintro ⟨_, ⟨x, hx, rfl⟩, y, hy, rfl⟩
    exact ⟨_, ⟨y, hy, rfl⟩, x, hx, (h x y a).symm⟩
  · rintro ⟨_, ⟨y, hy, rfl⟩, x, hx, rfl⟩
    exact ⟨_, ⟨x, hx, rfl⟩, y, hy, h x y a⟩

/-- Values that are put into fields one after the other: the record before, and the record
afterwards. -/
def Puts : List (Field α) → List Value → α → α → Prop
  | [], [], a, b => a = b
  | f :: fs, v :: vs, a, c => ∃ b, f.put v a = .ok b ∧ Puts fs vs b c
  | _, _, _, _ => False

theorem Puts.length_eq {fs : List (Field α)} {vs : List Value} {a b : α} (h : Puts fs vs a b) :
    fs.length = vs.length := by
  induction fs generalizing vs a with
  | nil =>
    cases vs with
    | nil => rfl
    | cons _ _ => exact h.elim
  | cons f fs ih =>
    cases vs with
    | nil => exact h.elim
    | cons v vs =>
      obtain ⟨_, _, hputs⟩ := h
      exact congrArg (· + 1) (ih hputs)

theorem puts_nil_iff {vs : List Value} {a b : α} : Puts [] vs a b ↔ vs = [] ∧ a = b := by
  cases vs <;> simp [Puts]

theorem puts_of_iff {name : String} {read : Value → Reading β} {set : β → α → α}
    {fs : List (Field α)} {vs : List Value} {a c : α} :
    Puts (.of name read set :: fs) vs a c ↔
      ∃ v ws x, vs = v :: ws ∧ read v = .ok x ∧ Puts fs ws (set x a) c := by
  cases vs with
  | nil => exact ⟨False.elim, nofun⟩
  | cons v ws =>
    simp only [Puts, Field.put_of]
    constructor
    · rintro ⟨_, ⟨x, hx, rfl⟩, hputs⟩
      exact ⟨v, ws, x, rfl, hx, hputs⟩
    · rintro ⟨_, _, x, ⟨⟩, hx, hputs⟩
      exact ⟨_, ⟨x, hx, rfl⟩, hputs⟩

/-- The values that are given for fields, one for each, put one after the other. -/
def Takes (given : String → List Value) : List (Field α) → α → α → Prop
  | [], a, b => a = b
  | f :: fs, a, c => ∃ v b, given f.name = [v] ∧ f.put v a = .ok b ∧ Takes given fs b c

theorem takes_iff {given : String → List Value} {fs : List (Field α)} {a c : α} :
    Takes given fs a c ↔
      ∃ vs, List.Forall₂ (fun name v => given name = [v]) (fs.map Field.name) vs ∧
        Puts fs vs a c := by
  induction fs generalizing a with
  | nil =>
    constructor
    · exact fun h => ⟨[], .nil, h⟩
    · rintro ⟨_, ⟨⟩, h⟩
      exact h
  | cons f fs ih =>
    simp only [Takes, ih, List.map_cons, List.forall₂_cons_left_iff]
    constructor
    · rintro ⟨v, b, hv, hput, vs, hvs, hputs⟩
      exact ⟨v :: vs, ⟨v, vs, hv, hvs, rfl⟩, b, hput, hputs⟩
    · rintro ⟨_, ⟨v, vs, hv, hvs, rfl⟩, b, hput, hputs⟩
      exact ⟨v, b, hv, hput, vs, hvs, hputs⟩

theorem takes_congr {given given' : String → List Value} {fs : List (Field α)}
    (h : ∀ f ∈ fs, given f.name = given' f.name) {a c : α} :
    Takes given fs a c ↔ Takes given' fs a c := by
  induction fs generalizing a with
  | nil => exact Iff.rfl
  | cons f fs ih =>
    rw [List.forall_mem_cons] at h
    simp only [Takes, h.1, ih h.2]

/-- A field may as well be set before those that are set apart from it. -/
theorem takes_middle {given : String → List Value} {f : Field α} {fs gs : List (Field α)}
    (h : ∀ g ∈ fs, f.Apart g) {a c : α} :
    Takes given (fs ++ f :: gs) a c ↔ Takes given (f :: (fs ++ gs)) a c := by
  induction fs generalizing a with
  | nil => exact Iff.rfl
  | cons g fs ih =>
    rw [List.forall_mem_cons] at h
    rw [List.cons_append, Takes]
    simp only [ih h.2]
    constructor
    · rintro ⟨w, b, hw, hg, v, b', hv, hf, hrest⟩
      obtain ⟨b'', hf, hg⟩ := (h.1 v w a b').2 ⟨b, hg, hf⟩
      exact ⟨v, b'', hv, hf, w, b', hw, hg, hrest⟩
    · rintro ⟨v, b, hv, hf, w, b', hw, hg, hrest⟩
      obtain ⟨b'', hg, hf⟩ := (h.1 v w a b').1 ⟨b, hf, hg⟩
      exact ⟨w, b'', hw, hg, v, b', hv, hf, hrest⟩

/-! ### Records -/

namespace Form

/-- A record all of whose fields must be given, under different names, and are set without regard
to each other. -/
structure Regular (form : Form α) : Prop where
  names : (form.fields.map Field.name).Nodup
  plain : ∀ f ∈ form.fields, f.Plain
  apart : form.fields.Pairwise Field.Apart

variable {form : Form α}

/-- A list of the fields has one item for each. -/
theorem readPositions_eq_ok_iff {count index : Nat} {fields : List (Field α)} {items : Items}
    {a b : α} (hplain : ∀ f ∈ fields, f.Plain) :
    form.readPositions count index fields items a = .ok b ↔
      items.skip = none ∧ Puts fields items.values a b := by
  induction fields generalizing index items a with
  | nil =>
    cases items <;> simp [readPositions, Items.skip, Items.values, Puts, flawed]
  | cons f fs ih =>
    rw [List.forall_mem_cons] at hplain
    cases items with
    | closed => simp [readPositions, hplain.1.required, mismatch, Items.values, Puts]
    | broken _ => simp [readPositions, Items.values, Puts, flawed]
    | more v rest =>
      rw [readPositions, bind_eq_ok_iff, Items.values, Puts, Items.skip_more]
      simp only [ih hplain.2]
      constructor
      · rintro ⟨b', hput, hclean, hrest⟩
        exact ⟨⟨hplain.1.careful hput, hclean⟩, b', hput, hrest⟩
      · rintro ⟨⟨-, hclean⟩, b', hput, hrest⟩
        exact ⟨b', hput, hclean, hrest⟩

/-- The members from some place on, the names of those before being `given`, complete a record:
they give each of the other fields once, and none of those before again. -/
structure Completes (form : Form α) (given : List String) (members : Members) (a b : α) : Prop where
  clean : members.skip = none
  named : members.Named
  once : ∀ f ∈ form.fields, f.name ∈ given → members.given f.name = []
  takes : Takes members.given (form.fields.filter fun f => f.name ∉ given) a b

/-- Where no member follows, every field has been given. -/
theorem completes_closed_iff {given : List String} {a b : α} :
    form.Completes given .closed a b ↔ (∀ f ∈ form.fields, f.name ∈ given) ∧ a = b := by
  have hfilter : (form.fields.filter fun f => f.name ∉ given) = [] ↔
      ∀ f ∈ form.fields, f.name ∈ given := by simp
  rw [← hfilter]
  constructor
  · intro h
    have htakes := h.takes
    cases hfields : form.fields.filter fun f => f.name ∉ given with
    | nil =>
      rw [hfields] at htakes
      exact ⟨rfl, htakes⟩
    | cons f fs =>
      rw [hfields] at htakes
      obtain ⟨_, _, hgiven, -⟩ := htakes
      exact nomatch hgiven
  · rintro ⟨hfields, rfl⟩
    refine ⟨rfl, trivial, fun _ _ _ => rfl, ?_⟩
    rw [hfields]
    rfl

/-- A member that nobody asks for only has to be without a flaw. -/
theorem completes_more_iff_of_unknown {given : List String} {key : RawText} {name : String}
    {v : Value} {rest : Members} {a b : α} (hkey : key.content = .ok name)
    (hname : ∀ f ∈ form.fields, f.name ≠ name) :
    form.Completes given (.more key v rest) a b ↔
      v.skip = none ∧ form.Completes given rest a b := by
  have hgiven : ∀ f ∈ form.fields, (Members.more key v rest).given f.name = rest.given f.name := by
    intro f hf
    rw [Members.given_more hkey, if_neg fun heq => hname f hf heq.symm]
  have htakes : Takes (Members.more key v rest).given
      (form.fields.filter fun f => f.name ∉ given) a b ↔
        Takes rest.given (form.fields.filter fun f => f.name ∉ given) a b :=
    takes_congr fun f hf => hgiven f (List.mem_of_mem_filter hf)
  constructor
  · rintro ⟨hclean, hnamed, honce, hrest⟩
    obtain ⟨-, hv, hclean⟩ := Members.skip_more.1 hclean
    refine ⟨hv, hclean, hnamed.2, fun f hf hmem => ?_, htakes.1 hrest⟩
    rw [← hgiven f hf]
    exact honce f hf hmem
  · rintro ⟨hv, hclean, hnamed, honce, hrest⟩
    refine ⟨Members.skip_more.2 ⟨RawText.flaw_eq_none hkey, hv, hclean⟩, ⟨⟨name, hkey⟩, hnamed⟩,
      fun f hf hmem => ?_, htakes.2 hrest⟩
    rw [hgiven f hf]
    exact honce f hf hmem

/-- A field that is still to come stands somewhere among those that are, and no other of them has
its name. -/
theorem Regular.exists_split (hform : form.Regular) {given : List String} {f : Field α}
    (hf : f ∈ form.fields) (hgiven : f.name ∉ given) :
    ∃ fs gs, (form.fields.filter fun g => g.name ∉ given) = fs ++ f :: gs ∧
      (form.fields.filter fun g => g.name ∉ f.name :: given) = fs ++ gs ∧
      (∀ g ∈ fs, f.Apart g) ∧ ∀ g ∈ fs ++ gs, g.name ≠ f.name := by
  obtain ⟨before, after, hfields⟩ := List.append_of_mem hf
  have hnames := hform.names
  have hapart := hform.apart
  rw [hfields, List.map_append, List.map_cons, List.perm_middle.nodup_iff,
    List.nodup_cons, ← List.map_append] at hnames
  rw [hfields, List.pairwise_append] at hapart
  have hother : ∀ g ∈ before ++ after, g.name ≠ f.name := by
    rintro g hg heq
    exact hnames.1 (heq ▸ List.mem_map_of_mem hg)
  have hfilter : ∀ gs : List (Field α), (∀ g ∈ gs, g.name ≠ f.name) →
      (gs.filter fun g => g.name ∉ f.name :: given) = gs.filter fun g => g.name ∉ given := by
    intro gs hgs
    refine List.filter_congr fun g hg => ?_
    simp [hgs g hg]
  rw [List.forall_mem_append] at hother
  refine ⟨before.filter fun g => g.name ∉ given, after.filter fun g => g.name ∉ given,
    ?_, ?_, ?_, ?_⟩
  · rw [hfields, List.filter_append, List.filter_cons_of_pos (by simpa using hgiven)]
  · rw [hfields, List.filter_append, List.filter_cons_of_neg (by simp), hfilter _ hother.1,
      hfilter _ hother.2]
  · intro g hg
    exact (hapart.2.2 g (List.mem_of_mem_filter hg) f List.mem_cons_self).symm
  · rw [List.forall_mem_append]
    exact ⟨fun g hg => hother.1 g (List.mem_of_mem_filter hg),
      fun g hg => hother.2 g (List.mem_of_mem_filter hg)⟩

/-- The member of a field that is still to come sets the field, and the others follow. -/
theorem Regular.completes_more_iff (hform : form.Regular) {given : List String} {key : RawText}
    {f : Field α} {v : Value} {rest : Members} {a c : α} (hkey : key.content = .ok f.name)
    (hf : f ∈ form.fields) (hgiven : f.name ∉ given) :
    form.Completes given (.more key v rest) a c ↔
      ∃ b, f.put v a = .ok b ∧ form.Completes (f.name :: given) rest b c := by
  obtain ⟨fs, gs, hbefore, hafter, hapart, hother⟩ := hform.exists_split hf hgiven
  have hself : (Members.more key v rest).given f.name = v :: rest.given f.name := by
    rw [Members.given_more hkey, if_pos rfl]
  have hothers : ∀ name, name ≠ f.name →
      (Members.more key v rest).given name = rest.given name := by
    intro name hname
    rw [Members.given_more hkey, if_neg hname.symm]
  have htakes : Takes (Members.more key v rest).given
      (form.fields.filter fun g => g.name ∉ given) a c ↔
        rest.given f.name = [] ∧ ∃ b, f.put v a = .ok b ∧
          Takes rest.given (form.fields.filter fun g => g.name ∉ f.name :: given) b c := by
    have hcongr : ∀ {b}, Takes (Members.more key v rest).given (fs ++ gs) b c ↔
        Takes rest.given (fs ++ gs) b c :=
      takes_congr fun g hg => hothers g.name (hother g hg)
    rw [hbefore, takes_middle hapart, Takes, hafter, hself]
    simp only [hcongr]
    constructor
    · rintro ⟨w, b, hw, hput, hrest⟩
      obtain ⟨rfl, hnone⟩ := List.cons.inj hw
      exact ⟨hnone, b, hput, hrest⟩
    · rintro ⟨hnone, b, hput, hrest⟩
      exact ⟨v, b, by rw [hnone], hput, hrest⟩
  constructor
  · rintro ⟨hclean, hnamed, honce, hrest⟩
    obtain ⟨hnone, b, hput, hrest⟩ := htakes.1 hrest
    refine ⟨b, hput, (Members.skip_more.1 hclean).2.2, hnamed.2, fun g hg hmem => ?_, hrest⟩
    by_cases hname : g.name = f.name
    · rw [hname, hnone]
    · rw [← hothers g.name hname]
      exact honce g hg (List.mem_of_ne_of_mem hname hmem)
  · rintro ⟨b, hput, hclean, hnamed, honce, hrest⟩
    have hv := (hform.plain f hf).careful hput
    have hnone := honce f hf List.mem_cons_self
    refine ⟨Members.skip_more.2 ⟨RawText.flaw_eq_none hkey, hv, hclean⟩, ⟨⟨f.name, hkey⟩, hnamed⟩,
      fun g hg hmem => ?_, htakes.2 ⟨hnone, b, hput, hrest⟩⟩
    have hname : g.name ≠ f.name := fun heq => hgiven (heq ▸ hmem)
    rw [hothers g.name hname]
    exact honce g hg (List.mem_cons_of_mem _ hmem)

/-- **Members are read exactly if they complete the record.** -/
theorem Regular.readMembers_iff (hform : form.Regular) {given : List String} {members : Members}
    {a b : α} :
    form.readMembers given members a = .ok b ↔ form.Completes given members a b := by
  fun_induction form.readMembers given members a with
  | case1 given a f hfind =>
    have hf := List.find?_some hfind
    simp only [decide_eq_true_eq] at hf
    refine ⟨nofun, fun h => ?_⟩
    exact absurd ((completes_closed_iff.1 h).1 f (List.mem_of_find?_eq_some hfind)) hf.2
  | case2 given a hfind =>
    have hall : ∀ f ∈ form.fields, f.name ∈ given := by
      intro f hf
      have hnone := List.find?_eq_none.1 hfind f hf
      simpa [(hform.plain f hf).required] using hnone
    rw [completes_closed_iff, and_iff_right hall]
    exact ⟨Except.ok.inj, congrArg _⟩
  | case3 => exact ⟨nofun, fun h => nomatch h.clean⟩
  | case4 => exact ⟨nofun, fun h => nomatch h.clean⟩
  | case5 given key v rest a f hkey =>
    refine ⟨nofun, fun h => ?_⟩
    obtain ⟨name, hname⟩ := h.named.1
    exact nomatch hkey.symm.trans hname
  | case6 given key v rest a name hkey hfind f hskip =>
    refine ⟨nofun, fun h => ?_⟩
    exact nomatch hskip.symm.trans (Members.skip_more.1 h.clean).2.1
  | case7 given key v rest a name hkey hfind hskip ih =>
    have hname : ∀ f ∈ form.fields, f.name ≠ name := by simpa using hfind
    rw [ih, completes_more_iff_of_unknown hkey hname, and_iff_right hskip]
  | case8 given key v rest a name hkey field hfind hgiven =>
    obtain ⟨hf, rfl⟩ := (find?_name_eq_some_iff hform.names).1 hfind
    refine ⟨nofun, fun h => ?_⟩
    have hnone := h.once field hf hgiven
    rw [Members.given_more hkey, if_pos rfl] at hnone
    exact nomatch hnone
  | case9 given key v rest a name hkey field hfind hgiven ih =>
    obtain ⟨hf, rfl⟩ := (find?_name_eq_some_iff hform.names).1 hfind
    rw [hform.completes_more_iff hkey hf hgiven, bind_eq_ok_iff]
    simp only [ih]

/-- **A record is read exactly if each of its fields is given once**, and with a value that is
read. -/
theorem Regular.read_eq_ok_iff (hform : form.Regular) {v : Value} {a : α} :
    form.read v = .ok a ↔
      ∃ vs, v.Gives (form.fields.map Field.name) vs ∧ Puts form.fields vs form.blank a := by
  -- before the first member no field is given
  have hfields : (form.fields.filter fun f => f.name ∉ ([] : List String)) = form.fields := by simp
  constructor
  · intro h
    unfold read at h
    split at h
    next members =>
      have hcompletes := hform.readMembers_iff.1 h
      have htakes := hcompletes.takes
      rw [hfields, takes_iff] at htakes
      obtain ⟨vs, hvs, hputs⟩ := htakes
      exact ⟨vs, .byName hcompletes.clean hcompletes.named hvs, hputs⟩
    next items =>
      obtain ⟨hclean, hputs⟩ := (readPositions_eq_ok_iff hform.plain).1 h
      refine ⟨items.values, .byPlace hclean ?_, hputs⟩
      rw [List.length_map, hputs.length_eq]
    next => exact (wrongType_ne_ok _ _ _ h).elim
  · rintro ⟨vs, hgives, hputs⟩
    cases hgives with
    | byName hclean hnamed hvs =>
      refine hform.readMembers_iff.2 ⟨hclean, hnamed, ?_, ?_⟩
      · exact fun _ _ h => nomatch h
      rw [hfields, takes_iff]
      exact ⟨vs, hvs, hputs⟩
    | byPlace hclean _ => exact (readPositions_eq_ok_iff hform.plain).2 ⟨hclean, hputs⟩

theorem Regular.careful (hform : form.Regular) : Careful form.read := by
  intro v a h
  obtain ⟨vs, hgives, -⟩ := hform.read_eq_ok_iff.1 h
  exact hgives.skip

/-- A record is read exactly if it holds what its fields ask for, once the fields put together ask
for the same. -/
theorem Regular.read_iff_holds (hform : form.Regular) {asked : α → List (String × (Value → Prop))}
    (hnames : ∀ a, (asked a).map Prod.fst = form.fields.map Field.name)
    (hputs : ∀ vs a, Puts form.fields vs form.blank a ↔
      List.Forall₂ (fun field w => field.2 w) (asked a) vs) {v : Value} {a : α} :
    form.read v = .ok a ↔ v.Holds (asked a) := by
  rw [hform.read_eq_ok_iff, Value.Holds, hnames]
  simp only [hputs]

end Form

end GossipLedger.Json
