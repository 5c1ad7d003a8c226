import GossipLedger.Proofs.Json.Fields
import GossipLedger.Proofs.Wire.RoundTrip

/-!
# What a datagram says

A datagram is read exactly if it is one record of a single member, with nothing but blanks around
it, whose name is the tag of a kind and whose value holds each field of that kind once.  Every
field holds what it is read as: a text, digits that make up a number of 32 bits, the text of a
digest or of a timestamp, a list, or a record again.

For each kind of record there are the list of its fields and one lemma, which says that the form
reads a value as a record exactly if the value holds those fields.  The grammar then carries the
result from trees to texts.

## Main definitions

* `Digest.FoundIn`, `Timestamp.FoundIn` — texts with a meaning.
* `Transaction.fields`, `Block.fields`, `Rumor.fields` and so on — the fields of a record with
  what stands in them.
* `Status.FoundIn`, `Packet.BodyIn` — the contents of a status and of a packet.

## Main results

* `readPacket_eq_ok_iff` — a value is read as a packet exactly if it is a record of a single
  member, named for the kind of the packet.
* `Packet.decode_names_one_kind` — **a datagram names exactly one kind**, and gives each of its
  fields once.
-/

namespace GossipLedger

open Json

/-! ### Texts with a meaning -/

/-- A text that is a digest. -/
def Digest.FoundIn (d : Digest) (v : Value) : Prop := ∃ s, v.IsText s ∧ Digest.parse s = .ok d

/-- A text that is a timestamp. -/
def Timestamp.FoundIn (t : Timestamp) (v : Value) : Prop :=
  ∃ s, v.IsText s ∧ Timestamp.parse s = .ok t

theorem readDigest_eq_ok_iff {v : Value} {d : Digest} : readDigest v = .ok d ↔ d.FoundIn v := by
  unfold readDigest
  rw [bind_eq_ok_iff]
  simp only [readText_eq_ok_iff]
  refine exists_congr fun s => and_congr_right fun _ => ?_
  cases Digest.parse s with
  | error _ => exact ⟨nofun, nofun⟩
  | ok d' => exact ⟨fun h => congrArg _ (Except.ok.inj h), fun h => congrArg _ (Except.ok.inj h)⟩

theorem readTimestamp_eq_ok_iff {v : Value} {t : Timestamp} :
    readTimestamp v = .ok t ↔ t.FoundIn v := by
  unfold readTimestamp
  rw [bind_eq_ok_iff]
  simp only [readTextAs_eq_ok_iff]
  refine exists_congr fun s => and_congr_right fun _ => ?_
  cases Timestamp.parse s with
  | error _ => exact ⟨nofun, nofun⟩
  | ok t' => exact ⟨fun h => congrArg _ (Except.ok.inj h), fun h => congrArg _ (Except.ok.inj h)⟩

theorem careful_readText : Careful readText := fun _ _ h => (readText_eq_ok_iff.1 h).skip

theorem careful_readWord : Careful readWord := fun _ _ h => (readWord_eq_ok_iff.1 h).skip

theorem careful_readDigest : Careful readDigest := fun _ _ h => by
  obtain ⟨_, hs, -⟩ := readDigest_eq_ok_iff.1 h
  exact hs.skip

theorem careful_readTimestamp : Careful readTimestamp := fun _ _ h => by
  obtain ⟨_, hs, -⟩ := readTimestamp_eq_ok_iff.1 h
  exact hs.skip

/-! ### Transactions and blocks -/

/-- The fields of a transaction with what stands in them. -/
def Transaction.fields (t : Transaction) : List (String × (Value → Prop)) := [
  ("input", t.input.FoundIn),
  ("output", t.output.FoundIn),
  ("amount", (·.IsNatural t.amount.toNat)),
  ("name", t.name.FoundIn)]

theorem Transaction.regular : Transaction.form.Regular where
  names := by decide
  plain := by simp [Transaction.form, Field.Plain.of, careful_readDigest, careful_readWord]
  apart := by simp [Transaction.form, Field.Apart.of]

theorem Transaction.read_eq_ok_iff {v : Value} {t : Transaction} :
    Transaction.form.read v = .ok t ↔ v.Holds t.fields := by
  refine Transaction.regular.read_iff_holds (fun _ => rfl) fun vs t => ?_
  simp only [Transaction.form, puts_of_iff, puts_nil_iff, readDigest_eq_ok_iff, readWord_eq_ok_iff]
  constructor
  · rintro ⟨_, _, _, rfl, h₁, _, _, _, rfl, h₂, _, _, _, rfl, h₃, _, _, _, rfl, h₄, rfl, rfl⟩
    exact .cons h₁ (.cons h₂ (.cons h₃ (.cons h₄ .nil)))
  · rintro (_ | ⟨h₁, _ | ⟨h₂, _ | ⟨h₃, _ | ⟨h₄, _ | _⟩⟩⟩⟩)
    exact ⟨_, _, _, rfl, h₁, _, _, _, rfl, h₂, _, _, _, rfl, h₃, _, _, _, rfl, h₄, rfl, rfl⟩

/-- Transactions in a list. -/
theorem readTransactions_eq_ok_iff {v : Value} {ts : List Transaction} :
    readList Transaction.form.read v = .ok ts ↔ v.IsList (fun w t => w.Holds t.fields) ts :=
  readList_eq_ok_iff Transaction.regular.careful fun _ _ => Transaction.read_eq_ok_iff

/-- The fields of a block with what stands in them. -/
def Block.fields (b : Block) : List (String × (Value → Prop)) := [
  ("prev_hash", b.previous.FoundIn),
  ("nonce", b.nonce.FoundIn),
  ("timestamp", b.time.FoundIn),
  ("transactions", (·.IsList (fun w t => w.Holds t.fields) b.transactions))]

theorem Block.regular : Block.form.Regular where
  names := by decide
  plain := by
    have hcareful : Careful (readList Transaction.form.read) :=
      fun _ _ h => (readTransactions_eq_ok_iff.1 h).skip
    simp [Block.form, Field.Plain.of, careful_readDigest, careful_readTimestamp, hcareful]
  apart := by simp [Block.form, Field.Apart.of]

theorem Block.read_eq_ok_iff {v : Value} {b : Block} :
    Block.form.read v = .ok b ↔ v.Holds b.fields := by
  refine Block.regular.read_iff_holds (fun _ => rfl) fun vs b => ?_
  simp only [Block.form, puts_of_iff, puts_nil_iff, readDigest_eq_ok_iff, readTimestamp_eq_ok_iff,
    readTransactions_eq_ok_iff]
  constructor
  · rintro ⟨_, _, _, rfl, h₁, _, _, _, rfl, h₂, _, _, _, rfl, h₃, _, _, _, rfl, h₄, rfl, rfl⟩
    exact .cons h₁ (.cons h₂ (.cons h₃ (.cons h₄ .nil)))
  · rintro (_ | ⟨h₁, _ | ⟨h₂, _ | ⟨h₃, _ | ⟨h₄, _ | _⟩⟩⟩⟩)
    exact ⟨_, _, _, rfl, h₁, _, _, _, rfl, h₂, _, _, _, rfl, h₃, _, _, _, rfl, h₄, rfl, rfl⟩

/-! ### Messages -/

/-- The fields of a flooded text with what stands in them. -/
def Simple.fields (m : Simple) : List (String × (Value → Prop)) := [
  ("original_name", (·.IsText m.originName)),
  ("relay_address", (·.IsText m.relayAddress)),
  ("contents", (·.IsText m.contents))]

theorem Simple.regular : Simple.form.Regular where
  names := by decide
  plain := by simp [Simple.form, Field.Plain.of, careful_readText]
  apart := by simp [Simple.form, Field.Apart.of]

theorem Simple.read_eq_ok_iff {v : Value} {m : Simple} :
    Simple.form.read v = .ok m ↔ v.Holds m.fields := by
  refine Simple.regular.read_iff_holds (fun _ => rfl) fun vs m => ?_
  simp only [Simple.form, puts_of_iff, puts_nil_iff, readText_eq_ok_iff]
  constructor
  · rintro ⟨_, _, _, rfl, h₁, _, _, _, rfl, h₂, _, _, _, rfl, h₃, rfl, rfl⟩
    exact .cons h₁ (.cons h₂ (.cons h₃ .nil))
  · rintro (_ | ⟨h₁, _ | ⟨h₂, _ | ⟨h₃, _ | _⟩⟩⟩)
    exact ⟨_, _, _, rfl, h₁, _, _, _, rfl, h₂, _, _, _, rfl, h₃, rfl, rfl⟩

/-- The fields of a rumor with what stands in them. -/
def Rumor.fields (m : Rumor) : List (String × (Value → Prop)) := [
  ("origin", (·.IsText m.origin)),
  ("sequence", (·.IsNatural m.sequence.toNat)),
  ("text", (·.IsText m.text))]

theorem Rumor.regular : Rumor.form.Regular where
  names := by decide
  plain := by simp [Rumor.form, Field.Plain.of, careful_readText, careful_readWord]
  apart := by simp [Rumor.form, Field.Apart.of]

theorem Rumor.read_eq_ok_iff {v : Value} {m : Rumor} :
    Rumor.form.read v = .ok m ↔ v.Holds m.fields := by
  refine Rumor.regular.read_iff_holds (fun _ => rfl) fun vs m => ?_
  simp only [Rumor.form, puts_of_iff, puts_nil_iff, readText_eq_ok_iff, readWord_eq_ok_iff]
  constructor
  · rintro ⟨_, _, _, rfl, h₁, _, _, _, rfl, h₂, _, _, _, rfl, h₃, rfl, rfl⟩
    exact .cons h₁ (.cons h₂ (.cons h₃ .nil))
  · rintro (_ | ⟨h₁, _ | ⟨h₂, _ | ⟨h₃, _ | _⟩⟩⟩)
    exact ⟨_, _, _, rfl, h₁, _, _, _, rfl, h₂, _, _, _, rfl, h₃, rfl, rfl⟩

/-- The fields of a private message with what stands in them. -/
def PrivateMessage.fields (m : PrivateMessage) : List (String × (Value → Prop)) := [
  ("origin", (·.IsText m.origin)),
  ("sequence", (·.IsNatural m.sequence.toNat)),
  ("destination", (·.IsText m.destination)),
  ("text", (·.IsText m.text)),
  ("hop_limit", (·.IsNatural m.hopLimit.toNat))]

theorem PrivateMessage.regular : PrivateMessage.form.Regular where
  names := by decide
  plain := by simp [PrivateMessage.form, Field.Plain.of, careful_readText, careful_readWord]
  apart := by simp [PrivateMessage.form, Field.Apart.of]

theorem PrivateMessage.read_eq_ok_iff {v : Value} {m : PrivateMessage} :
    PrivateMessage.form.read v = .ok m ↔ v.Holds m.fields := by
  refine PrivateMessage.regular.read_iff_holds (fun _ => rfl) fun vs m => ?_
  simp only [PrivateMessage.form, puts_of_iff, puts_nil_iff, readText_eq_ok_iff,
    readWord_eq_ok_iff]
  constructor
  · rintro ⟨_, _, _, rfl, h₁, _, _, _, rfl, h₂, _, _, _, rfl, h₃, _, _, _, rfl, h₄, _, _, _, rfl,
      h₅, rfl, rfl⟩
    exact .cons h₁ (.cons h₂ (.cons h₃ (.cons h₄ (.cons h₅ .nil))))
  · rintro (_ | ⟨h₁, _ | ⟨h₂, _ | ⟨h₃, _ | ⟨h₄, _ | ⟨h₅, _ | _⟩⟩⟩⟩⟩)
    exact ⟨_, _, _, rfl, h₁, _, _, _, rfl, h₂, _, _, _, rfl, h₃, _, _, _, rfl, h₄, _, _, _, rfl,
      h₅, rfl, rfl⟩

/-- The fields of an entry of a status with what stands in them. -/
def PeerStatus.fields (s : PeerStatus) : List (String × (Value → Prop)) := [
  ("identifier", (·.IsText s.identifier)),
  ("next_sequence", (·.IsNatural s.nextSequence.toNat))]

theorem PeerStatus.regular : PeerStatus.form.Regular where
  names := by decide
  plain := by simp [PeerStatus.form, Field.Plain.of, careful_readText, careful_readWord]
  apart := by simp [PeerStatus.form, Field.Apart.of]

theorem PeerStatus.read_eq_ok_iff {v : Value} {s : PeerStatus} :
    PeerStatus.form.read v = .ok s ↔ v.Holds s.fields := by
  refine PeerStatus.regular.read_iff_holds (fun _ => rfl) fun vs s => ?_
  simp only [PeerStatus.form, puts_of_iff, puts_nil_iff, readText_eq_ok_iff, readWord_eq_ok_iff]
  constructor
  · rintro ⟨_, _, _, rfl, h₁, _, _, _, rfl, h₂, rfl, rfl⟩
    exact .cons h₁ (.cons h₂ .nil)
  · rintro (_ | ⟨h₁, _ | ⟨h₂, _ | _⟩⟩)
    exact ⟨_, _, _, rfl, h₁, _, _, _, rfl, h₂, rfl, rfl⟩

/-- Entries in a list. -/
theorem readEntries_eq_ok_iff {v : Value} {entries : List PeerStatus} :
    readList PeerStatus.form.read v = .ok entries ↔
      v.IsList (fun w s => w.Holds s.fields) entries :=
  readList_eq_ok_iff PeerStatus.regular.careful fun _ _ => PeerStatus.read_eq_ok_iff

/-- The fields of a status that says what a node has. -/
def Status.wantFields (entries : List PeerStatus) : List (String × (Value → Prop)) := [
  ("want", (·.IsList (fun w s => w.Holds s.fields) entries))]

theorem Status.regular_want : Status.wantForm.Regular where
  names := by decide
  plain := by
    have hcareful : Careful (readList PeerStatus.form.read) :=
      fun _ _ h => (readEntries_eq_ok_iff.1 h).skip
    simp [Status.wantForm, Field.Plain.of, hcareful]
  apart := by simp [Status.wantForm]

theorem Status.read_want_eq_ok_iff {v : Value} {entries : List PeerStatus} :
    Status.wantForm.read v = .ok entries ↔ v.Holds (Status.wantFields entries) := by
  refine Status.regular_want.read_iff_holds (fun _ => rfl) fun vs entries => ?_
  simp only [Status.wantForm, puts_of_iff, puts_nil_iff, readEntries_eq_ok_iff]
  constructor
  · rintro ⟨_, _, _, rfl, h, rfl, rfl⟩
    exact .cons h .nil
  · rintro (_ | ⟨h, _ | _⟩)
    exact ⟨_, _, _, rfl, h, rfl, rfl⟩

/-- The fields of a status that answers a route rumor. -/
def Status.routeFields (name : String) : List (String × (Value → Prop)) := [
  ("route", (·.IsText name))]

theorem Status.regular_route : Status.routeForm.Regular where
  names := by decide
  plain := by simp [Status.routeForm, Field.Plain.of, careful_readText]
  apart := by simp [Status.routeForm]

theorem Status.read_route_eq_ok_iff {v : Value} {name : String} :
    Status.routeForm.read v = .ok name ↔ v.Holds (Status.routeFields name) := by
  refine Status.regular_route.read_iff_holds (fun _ => rfl) fun vs name => ?_
  simp only [Status.routeForm, puts_of_iff, puts_nil_iff, readText_eq_ok_iff]
  constructor
  · rintro ⟨_, _, _, rfl, h, rfl, rfl⟩
    exact .cons h .nil
  · rintro (_ | ⟨h, _ | _⟩)
    exact ⟨_, _, _, rfl, h, rfl, rfl⟩

/-- The contents of a status: again a record of a single member, named for what it says. -/
def Status.FoundIn : Status → Value → Prop
  | .want entries, v => v.IsTagged "Want" (·.Holds (Status.wantFields entries))
  | .route name, v => v.IsTagged "Route" (·.Holds (Status.routeFields name))

theorem readStatus_eq_ok_iff {v : Value} {s : Status} : readStatus v = .ok s ↔ s.FoundIn v := by
  rw [readStatus, readVariant_eq_ok_iff (by decide)]
  simp only [List.exists_mem_cons_iff, List.not_mem_nil, false_and, exists_false, or_false,
    map_eq_ok_iff, Status.read_want_eq_ok_iff, Status.read_route_eq_ok_iff]
  cases s <;> simp [Status.FoundIn]

theorem careful_readStatus : Careful readStatus := by
  intro v s h
  have hfound := readStatus_eq_ok_iff.1 h
  cases s with
  | want _ => exact hfound.skip fun _ h => h.skip
  | route _ => exact hfound.skip fun _ h => h.skip

/-- The fields of a transaction that is passed on, with what stands in them. -/
def TxPublish.fields (m : TxPublish) : List (String × (Value → Prop)) := [
  ("transaction", (·.Holds m.transaction.fields)),
  ("hop_limit", (·.IsNatural m.hopLimit.toNat))]

theorem TxPublish.regular : TxPublish.form.Regular where
  names := by decide
  plain := by
    simp [TxPublish.form, Field.Plain.of, Transaction.regular.careful, careful_readWord]
  apart := by simp [TxPublish.form, Field.Apart.of]

theorem TxPublish.read_eq_ok_iff {v : Value} {m : TxPublish} :
    TxPublish.form.read v = .ok m ↔ v.Holds m.fields := by
  refine TxPublish.regular.read_iff_holds (fun _ => rfl) fun vs m => ?_
  simp only [TxPublish.form, puts_of_iff, puts_nil_iff, Transaction.read_eq_ok_iff,
    readWord_eq_ok_iff]
  constructor
  · rintro ⟨_, _, _, rfl, h₁, _, _, _, rfl, h₂, rfl, rfl⟩
    exact .cons h₁ (.cons h₂ .nil)
  · rintro (_ | ⟨h₁, _ | ⟨h₂, _ | _⟩⟩)
    exact ⟨_, _, _, rfl, h₁, _, _, _, rfl, h₂, rfl, rfl⟩

/-- The fields of a block that is passed on, with what stands in them. -/
def BlockPublish.fields (m : BlockPublish) : List (String × (Value → Prop)) := [
  ("block", (·.Holds m.block.fields)),
  ("hop_limit", (·.IsNatural m.hopLimit.toNat))]

theorem BlockPublish.regular : BlockPublish.form.Regular where
  names := by decide
  plain := by simp [BlockPublish.form, Field.Plain.of, Block.regular.careful, careful_readWord]
  apart := by simp [BlockPublish.form, Field.Apart.of]

theorem BlockPublish.read_eq_ok_iff {v : Value} {m : BlockPublish} :
    BlockPublish.form.read v = .ok m ↔ v.Holds m.fields := by
  refine BlockPublish.regular.read_iff_holds (fun _ => rfl) fun vs m => ?_
  simp only [BlockPublish.form, puts_of_iff, puts_nil_iff, Block.read_eq_ok_iff,
    readWord_eq_ok_iff]
  constructor
  · rintro ⟨_, _, _, rfl, h₁, _, _, _, rfl, h₂, rfl, rfl⟩
    exact .cons h₁ (.cons h₂ .nil)
  · rintro (_ | ⟨h₁, _ | ⟨h₂, _ | _⟩⟩)
    exact ⟨_, _, _, rfl, h₁, _, _, _, rfl, h₂, rfl, rfl⟩

/-! ### Packets -/

/-- The contents of a packet, which go with the tag of its kind. -/
def Packet.BodyIn : Packet → Value → Prop
  | .simple m => (·.Holds m.fields)
  | .rumor m => (·.Holds m.fields)
  | .status s => s.FoundIn
  | .secret m => (·.Holds m.fields)
  | .transaction m => (·.Holds m.fields)
  | .block m => (·.Holds m.fields)

/-- **A value is read as a packet exactly if it is a record of a single member**, which has the
tag of the kind for its name and the contents for its value. -/
theorem readPacket_eq_ok_iff {v : Value} {p : Packet} :
    readPacket v = .ok p ↔ v.IsTagged p.kind.tag p.BodyIn := by
  rw [readPacket, readVariant_eq_ok_iff (by decide)]
  simp only [List.exists_mem_cons_iff, List.not_mem_nil, false_and, exists_false, or_false,
    packetVariant, map_eq_ok_iff, Simple.read_eq_ok_iff, Rumor.read_eq_ok_iff,
    readStatus_eq_ok_iff, PrivateMessage.read_eq_ok_iff, TxPublish.read_eq_ok_iff,
    BlockPublish.read_eq_ok_iff]
  cases p <;> simp [Packet.kind, Packet.BodyIn]

theorem careful_readPacket : Careful readPacket := by
  intro v p h
  refine (readPacket_eq_ok_iff.1 h).skip fun w hw => ?_
  cases p with
  | status s => exact careful_readStatus w s (readStatus_eq_ok_iff.2 hw)
  | simple _ => exact hw.skip
  | rumor _ => exact hw.skip
  | secret _ => exact hw.skip
  | transaction _ => exact hw.skip
  | block _ => exact hw.skip

/-! ### Datagrams -/

/-- The names of the fields that a packet must give, which for a status is the one name of what it
says. -/
def Packet.fieldNames : Packet → List String
  | .simple m => m.fields.map Prod.fst
  | .rumor m => m.fields.map Prod.fst
  | .status (.want _) => ["Want"]
  | .status (.route _) => ["Route"]
  | .secret m => m.fields.map Prod.fst
  | .transaction m => m.fields.map Prod.fst
  | .block m => m.fields.map Prod.fst

/-- The contents of a packet give each of its fields once. -/
theorem Packet.BodyIn.gives {p : Packet} {body : Value} (h : p.BodyIn body) :
    ∃ vs, body.Gives p.fieldNames vs := by
  have hholds : ∀ {fields : List (String × (Value → Prop))}, body.Holds fields →
      ∃ vs, body.Gives (fields.map Prod.fst) vs := fun ⟨vs, hgives, _⟩ => ⟨vs, hgives⟩
  cases p with
  | status s =>
    cases s with
    | want _ => exact Value.IsTagged.gives h fun _ h => h.skip
    | route _ => exact Value.IsTagged.gives h fun _ h => h.skip
  | simple _ => exact hholds h
  | rumor _ => exact hholds h
  | secret _ => exact hholds h
  | transaction _ => exact hholds h
  | block _ => exact hholds h

/-- **A datagram names exactly one kind.**  It is read as a packet exactly if it is, between
blanks, one record of a single member, which has the tag of that packet's kind for its name and the
contents of that packet for its value.  A text that begins with a record is read in no other way:
nothing but blanks may follow, and there is neither no member nor a second one.  And the contents of
a packet give each field of its kind once, by name or by place. -/
theorem Packet.decode_names_one_kind :
    (∀ (datagram : Bytes) (p : Packet), Packet.decode datagram = .ok p ↔
      ∃ before t after key body, datagram = before ++ (t ++ after) ∧ Blanks before ∧
        Blanks after ∧ Spells (.record (.more key body .closed)) t ∧
        key.content = .ok p.kind.tag ∧ p.BodyIn body) ∧
    (∀ (before t rest : Bytes) (members : Members) (p : Packet), Blanks before →
      Spells (.record members) t →
      (Packet.decode (before ++ (t ++ rest)) = .ok p ↔
        Blanks rest ∧ ∃ key body, members = .more key body .closed ∧
          key.content = .ok p.kind.tag ∧ p.BodyIn body)) ∧
    (∀ (p : Packet) (body : Value), p.BodyIn body → ∃ vs, body.Gives p.fieldNames vs) := by
  refine ⟨fun datagram p => ?_, fun before t rest members p hbefore hspells => ?_,
    fun p body h => h.gives⟩
  · rw [Packet.decode, readDocument_eq_ok_iff careful_readPacket]
    simp only [readPacket_eq_ok_iff]
    constructor
    · rintro ⟨before, t, after, _, htext, hbefore, hafter, hspells, key, body, rfl, hkey, hbody⟩
      exact ⟨before, t, after, key, body, htext, hbefore, hafter, hspells, hkey, hbody⟩
    · rintro ⟨before, t, after, key, body, htext, hbefore, hafter, hspells, hkey, hbody⟩
      exact ⟨before, t, after, _, htext, hbefore, hafter, hspells, key, body, rfl, hkey, hbody⟩
  · rw [Packet.decode, readDocument_record_iff hspells hbefore, readPacket_eq_ok_iff, and_comm]
    refine and_congr_right fun _ => ?_
    constructor
    · rintro ⟨key, body, hmembers, hkey, hbody⟩
      exact ⟨key, body, Value.record.inj hmembers, hkey, hbody⟩
    · rintro ⟨key, body, rfl, hkey, hbody⟩
      exact ⟨key, body, rfl, hkey, hbody⟩

/-- A record with the member of a rumor twice. -/
def repeatedRumor : Document := .record [
  ("Rumor", quotedRumor.body),
  ("Rumor", quotedRumor.body)]

/-- A rumor names its kind and gives its fields; but nobody reads it with something behind it, or
with its member given twice. -/
theorem Packet.decode_names_one_kind_quotedRumor :
    (Packet.decode quotedRumor.document.bytes = .ok quotedRumor ∧
      ∃ (key : RawText) (body : Value), key.content = .ok "Rumor" ∧ quotedRumor.BodyIn body ∧
        ∃ vs, body.Gives ["origin", "sequence", "text"] vs) ∧
    (∀ p, Packet.decode (quotedRumor.document.bytes ++ [Mark.comma]) ≠ .ok p) ∧
    (∀ p, Packet.decode repeatedRumor.bytes ≠ .ok p) := by
  have hread : Packet.decode quotedRumor.document.bytes = .ok quotedRumor :=
    readDocument_bytes quotedRumor.read_document
  refine ⟨⟨hread, ?_⟩, fun p h => ?_, fun p h => ?_⟩
  · obtain ⟨_, _, _, key, body, -, -, -, -, hkey, hbody⟩ :=
      (Packet.decode_names_one_kind.1 _ _).1 hread
    exact ⟨key, body, hkey, hbody, Packet.decode_names_one_kind.2.2 _ _ hbody⟩
  · obtain ⟨hblanks, -⟩ := (Packet.decode_names_one_kind.2.1 [] quotedRumor.document.bytes
      [Mark.comma] _ p .nil quotedRumor.document.spells).1 h
    exact absurd (hblanks _ List.mem_cons_self) (by decide)
  · rw [← List.append_nil repeatedRumor.bytes] at h
    obtain ⟨-, key, body, hmembers, -⟩ := (Packet.decode_names_one_kind.2.1 []
      repeatedRumor.bytes [] _ p .nil repeatedRumor.spells).1 h
    exact nomatch (Members.more.inj hmembers).2.2

end GossipLedger
