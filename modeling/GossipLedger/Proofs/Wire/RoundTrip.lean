import GossipLedger.Proofs.Json.Form
import GossipLedger.Proofs.Time.Text
import GossipLedger.Wire.Codec

/-!
# Packets that cross the wire

What is written of a packet is read as that packet.  Each record is read from the members that
its document gives it, one lemma for each kind of record, and a packet from the one member that
is named for its kind.

## Main results

* `Packet.read_document` — the document of a packet is read as the packet.
* `Packet.decode_encode` — **a datagram is read as the packet that it was written of**, whoever
  wrote that packet first.
-/

namespace GossipLedger

open Json

/-! ### Texts with a meaning -/

@[simp] theorem readDigest_text (d : Digest) :
    readDigest (Document.text d.text).value = .ok d := by
  unfold readDigest
  rw [readText_text, ok_bind, Digest.parse_text]
  rfl

@[simp] theorem readTimestamp_text (t : Timestamp) :
    readTimestamp (Document.text t.text).value = .ok t := by
  unfold readTimestamp
  rw [readTextAs_text, ok_bind, parse_text]
  rfl

@[simp] theorem readWord_wordDocument (n : UInt32) : readWord (wordDocument n).value = .ok n :=
  readWord_whole n

/-! ### Records -/

theorem Transaction.read_document (t : Transaction) :
    Transaction.form.read t.document.value = .ok t := by
  refine Form.read_record (by decide) ?_
  exact .of (readDigest_text _) (.of (readDigest_text _) (.of (readWord_wordDocument _)
    (.of (readDigest_text _) (.nil _))))

theorem Block.read_document (b : Block) : Block.form.read b.document.value = .ok b := by
  refine Form.read_record (by decide) ?_
  exact .of (readDigest_text _) (.of (readDigest_text _) (.of (readTimestamp_text _)
    (.of (readList_list Transaction.read_document _) (.nil _))))

theorem Simple.read_document (m : Simple) : Simple.form.read m.document.value = .ok m := by
  refine Form.read_record (by decide) ?_
  exact .of (readText_text _) (.of (readText_text _) (.of (readText_text _) (.nil _)))

theorem Rumor.read_document (m : Rumor) : Rumor.form.read m.document.value = .ok m := by
  refine Form.read_record (by decide) ?_
  exact .of (readText_text _) (.of (readWord_wordDocument _) (.of (readText_text _) (.nil _)))

theorem PrivateMessage.read_document (m : PrivateMessage) :
    PrivateMessage.form.read m.document.value = .ok m := by
  refine Form.read_record (by decide) ?_
  exact .of (readText_text _) (.of (readWord_wordDocument _) (.of (readText_text _)
    (.of (readText_text _) (.of (readWord_wordDocument _) (.nil _)))))

theorem PeerStatus.read_document (s : PeerStatus) :
    PeerStatus.form.read s.document.value = .ok s := by
  refine Form.read_record (by decide) ?_
  exact .of (readText_text _) (.of (readWord_wordDocument _) (.nil _))

theorem TxPublish.read_document (m : TxPublish) :
    TxPublish.form.read m.document.value = .ok m := by
  refine Form.read_record (by decide) ?_
  exact .of (Transaction.read_document _) (.of (readWord_wordDocument _) (.nil _))

theorem BlockPublish.read_document (m : BlockPublish) :
    BlockPublish.form.read m.document.value = .ok m := by
  refine Form.read_record (by decide) ?_
  exact .of (Block.read_document _) (.of (readWord_wordDocument _) (.nil _))

/-! ### Alternatives -/

/-- What is read is wrapped up. -/
theorem map_eq_ok {α β : Type} {reading : Reading α} {a : α} (wrap : α → β)
    (h : reading = .ok a) : reading.map wrap = .ok (wrap a) := by
  rw [h]
  rfl

/-- A status is read as the alternative that its document names. -/
theorem Status.read_document (s : Status) : readStatus s.document.value = .ok s := by
  cases s with
  | want entries =>
    have hread : Status.wantForm.read
        (Document.record [("want", .list (entries.map PeerStatus.document))]).value =
          .ok entries :=
      Form.read_record (by decide) (.of (readList_list PeerStatus.read_document _) (.nil _))
    exact readVariant_record rfl (map_eq_ok Status.want hread)
  | route name =>
    have hread : Status.routeForm.read (Document.record [("route", .text name)]).value =
        .ok name :=
      Form.read_record (by decide) (.of (readText_text _) (.nil _))
    exact readVariant_record rfl (map_eq_ok Status.route hread)

/-- **The document of a packet is read as the packet.** -/
theorem Packet.read_document (p : Packet) : readPacket p.document.value = .ok p := by
  cases p with
  | simple m => exact readVariant_record rfl (map_eq_ok Packet.simple m.read_document)
  | rumor m => exact readVariant_record rfl (map_eq_ok Packet.rumor m.read_document)
  | status s => exact readVariant_record rfl (map_eq_ok Packet.status s.read_document)
  | secret m => exact readVariant_record rfl (map_eq_ok Packet.secret m.read_document)
  | transaction m => exact readVariant_record rfl (map_eq_ok Packet.transaction m.read_document)
  | block m => exact readVariant_record rfl (map_eq_ok Packet.block m.read_document)

/-! ### Datagrams -/

/-- The datagram of a packet is its document. -/
theorem Packet.eq_bytes_of_encode {p : Packet} {datagram : Bytes}
    (h : p.encode = .ok datagram) : datagram = p.document.bytes := by
  unfold Packet.encode at h
  dsimp only at h
  split at h
  next => exact (Except.ok.inj h).symm
  next => exact nomatch h

/-- A datagram that is written of a packet is read as that packet. -/
theorem Packet.decode_of_encode {p : Packet} {datagram : Bytes}
    (h : p.encode = .ok datagram) : Packet.decode datagram = .ok p := by
  rw [Packet.eq_bytes_of_encode h]
  exact readDocument_bytes p.read_document

/-- **A datagram is read as the packet that it was written of**: a packet of any kind comes back
as it is; and a packet that was found in any datagram at all, however that one was written,
comes back from the datagram that is written of it anew. -/
theorem Packet.decode_encode :
    (∀ (p : Packet) (datagram : Bytes), p.encode = .ok datagram →
      Packet.decode datagram = .ok p) ∧
    (∀ (received : Bytes) (p : Packet) (datagram : Bytes), Packet.decode received = .ok p →
      p.encode = .ok datagram → Packet.decode datagram = .ok p) := by
  constructor
  · intro p datagram h
    exact Packet.decode_of_encode h
  · -- it does not matter where the packet was found: the second datagram is written of it
    intro received p datagram _ h
    exact Packet.decode_of_encode h

/-- A block of the leap second before 2017, with a transaction. -/
def newYearBlock : Packet :=
  .block ⟨⟨Digest.zero, Digest.zero,
    ⟨⟨2016, 12, 31, by decide, by decide⟩, 86399, 1_500_000_000, by decide, by decide⟩,
    [⟨Digest.zero, Digest.zero, 3, Digest.zero⟩]⟩, 20⟩

/-- A rumor with a quote, a line break and a letter of two bytes. -/
def quotedRumor : Packet := .rumor ⟨"é\"", 7, "a\nb"⟩

/-- How the rumor is written. -/
def quotedDatagram : Bytes :=
  utf8 ("\x7b\"Rumor\":\x7b\"origin\":\"é\\\"\",\"sequence\":7,"
    ++ "\"text\":\"a\\nb\"\x7d\x7d")

/-- The rumor with blanks, a list of its fields and escapes that are never written. -/
def foreignDatagram : Bytes :=
  utf8 " \x7b\"Rumor\" : [\"\\u00e9\\u0022\", 7, \"a\\u000ab\"]\x7d "

theorem eq_ok_of_toOption {α : Type} {reading : Reading α} {a : α}
    (h : reading.toOption = some a) : reading = .ok a := by
  cases reading with
  | error _ => exact nomatch h
  | ok b => exact congrArg Except.ok (Option.some.inj h)

/-- A block with a leap second comes back, and so does a rumor that was first found in a
datagram that nobody writes. -/
theorem Packet.decode_encode_newYearBlock :
    (newYearBlock.encode = .ok newYearBlock.document.bytes ∧
      Packet.decode newYearBlock.document.bytes = .ok newYearBlock) ∧
    (Packet.decode foreignDatagram = .ok quotedRumor ∧
      quotedRumor.encode = .ok quotedDatagram ∧
      Packet.decode quotedDatagram = .ok quotedRumor) := by
  have hblock : newYearBlock.encode = .ok newYearBlock.document.bytes := by decide +kernel
  have hreceived : Packet.decode foreignDatagram = .ok quotedRumor :=
    eq_ok_of_toOption (by decide +kernel)
  have hrumor : quotedRumor.encode = .ok quotedDatagram := by decide +kernel
  exact ⟨⟨hblock, Packet.decode_encode.1 _ _ hblock⟩, hreceived, hrumor,
    Packet.decode_encode.2 _ _ _ hreceived hrumor⟩

end GossipLedger
