import GossipLedger.Json.Document
import GossipLedger.Json.Message
import GossipLedger.Json.Reader
import GossipLedger.Net.AddressText
import GossipLedger.Time.Text
import GossipLedger.Wire.Packet

/-!
# Packets as JSON

A packet is written as a record of one member, named for its kind.  Digests,
addresses and timestamps are texts.  A datagram holds one packet and nothing else
and is no longer than UDP allows.

## Main definitions

* `Transaction.document`, `Block.document`, `Packet.document` — what is written.
* `Transaction.form`, `Block.form`, `readPacket` — what is read.
* `Packet.encode`, `Packet.decode` — packets and datagrams.
-/

namespace GossipLedger

open Json

/-! ### Texts with a meaning -/

/-- A digest, written as a text. -/
def readDigest (v : Value) : Reading Digest := do
  match Digest.parse (← readText v) with
  | .ok d => return d
  | .error f => mismatch (.badText f.message)

/-- A peer address, written as a text. -/
def readAddress (v : Value) : Reading PeerAddress := do
  match PeerAddress.parse (← readText v) with
  | .ok p => return p
  | .error f => mismatch (.badText f.message)

/-- A timestamp, written as a text. -/
def readTimestamp (v : Value) : Reading Timestamp := do
  match Timestamp.parse (← readTextAs "an RFC 3339 formatted date and time string" v) with
  | .ok t => return t
  | .error f => mismatch (.badText f.message)

/-- A whole number of 32 bits. -/
def wordDocument (n : UInt32) : Document := .whole (n.toNat : Int)

/-! ### Transactions and blocks -/

/-- A transaction as it is written. -/
def Transaction.document (t : Transaction) : Document := .record [
  ("input", .text t.input.text),
  ("output", .text t.output.text),
  ("amount", wordDocument t.amount),
  ("name", .text t.name.text)]

/-- A transaction as it is read. -/
def Transaction.form : Form Transaction where
  title := "struct Transaction"
  blank := default
  fields := [
    .of "input" readDigest fun d t => { t with input := d },
    .of "output" readDigest fun d t => { t with output := d },
    .of "amount" readWord fun n t => { t with amount := n },
    .of "name" readDigest fun d t => { t with name := d }]

/-- A block as it is written. -/
def Block.document (b : Block) : Document := .record [
  ("prev_hash", .text b.previous.text),
  ("nonce", .text b.nonce.text),
  ("timestamp", .text b.time.text),
  ("transactions", .list (b.transactions.map Transaction.document))]

/-- A block as it is read. -/
def Block.form : Form Block where
  title := "struct Block"
  blank := default
  fields := [
    .of "prev_hash" readDigest fun d b => { b with previous := d },
    .of "nonce" readDigest fun d b => { b with nonce := d },
    .of "timestamp" readTimestamp fun t b => { b with time := t },
    .of "transactions" (readList Transaction.form.read) fun ts b => { b with transactions := ts }]

/-! ### Messages -/

/-- A flooded text as it is written. -/
def Simple.document (m : Simple) : Document := .record [
  ("original_name", .text m.originName),
  ("relay_address", .text m.relayAddress),
  ("contents", .text m.contents)]

/-- A flooded text as it is read. -/
def Simple.form : Form Simple where
  title := "struct SimpleMessage"
  blank := default
  fields := [
    .of "original_name" readText fun s m => { m with originName := s },
    .of "relay_address" readText fun s m => { m with relayAddress := s },
    .of "contents" readText fun s m => { m with contents := s }]

/-- A rumor as it is written. -/
def Rumor.document (m : Rumor) : Document := .record [
  ("origin", .text m.origin),
  ("sequence", wordDocument m.sequence),
  ("text", .text m.text)]

/-- A rumor as it is read. -/
def Rumor.form : Form Rumor where
  title := "struct RumorMessage"
  blank := default
  fields := [
    .of "origin" readText fun s m => { m with origin := s },
    .of "sequence" readWord fun n m => { m with sequence := n },
    .of "text" readText fun s m => { m with text := s }]

/-- A private message as it is written. -/
def PrivateMessage.document (m : PrivateMessage) : Document := .record [
  ("origin", .text m.origin),
  ("sequence", wordDocument m.sequence),
  ("destination", .text m.destination),
  ("text", .text m.text),
  ("hop_limit", wordDocument m.hopLimit)]

/-- A private message as it is read. -/
def PrivateMessage.form : Form PrivateMessage where
  title := "struct PrivateMessage"
  blank := default
  fields := [
    .of "origin" readText fun s m => { m with origin := s },
    .of "sequence" readWord fun n m => { m with sequence := n },
    .of "destination" readText fun s m => { m with destination := s },
    .of "text" readText fun s m => { m with text := s },
    .of "hop_limit" readWord fun n m => { m with hopLimit := n }]

/-- An entry of a status as it is written. -/
def PeerStatus.document (s : PeerStatus) : Document := .record [
  ("identifier", .text s.identifier),
  ("next_sequence", wordDocument s.nextSequence)]

/-- An entry of a status as it is read. -/
def PeerStatus.form : Form PeerStatus where
  title := "struct PeerStatus"
  blank := default
  fields := [
    .of "identifier" readText fun s p => { p with identifier := s },
    .of "next_sequence" readWord fun n p => { p with nextSequence := n }]

/-- A status as it is written. -/
def Status.document : Status → Document
  | .want entries =>
      .record [("Want", .record [("want", .list (entries.map PeerStatus.document))])]
  | .route name => .record [("Route", .record [("route", .text name)])]

/-- The entries of a status as they are read. -/
def Status.wantForm : Form (List PeerStatus) where
  title := "struct variant StatusPacket::Want"
  blank := []
  fields := [.of "want" (readList PeerStatus.form.read) fun entries _ => entries]

/-- The answer to a route rumor as it is read. -/
def Status.routeForm : Form String where
  title := "struct variant StatusPacket::Route"
  blank := ""
  fields := [.of "route" readText fun name _ => name]

/-- A status as it is read. -/
def readStatus : Value → Reading Status := readVariant [
  ⟨"Want", "struct variant", fun v => (Status.wantForm.read v).map .want⟩,
  ⟨"Route", "struct variant", fun v => (Status.routeForm.read v).map .route⟩]

/-- A transaction that is passed on, as it is written. -/
def TxPublish.document (m : TxPublish) : Document := .record [
  ("transaction", m.transaction.document),
  ("hop_limit", wordDocument m.hopLimit)]

/-- A transaction that is passed on, as it is read. -/
def TxPublish.form : Form TxPublish where
  title := "struct TxPublish"
  blank := default
  fields := [
    .of "transaction" Transaction.form.read fun t m => { m with transaction := t },
    .of "hop_limit" readWord fun n m => { m with hopLimit := n }]

/-- A block that is passed on, as it is written. -/
def BlockPublish.document (m : BlockPublish) : Document := .record [
  ("block", m.block.document),
  ("hop_limit", wordDocument m.hopLimit)]

/-- A block that is passed on, as it is read. -/
def BlockPublish.form : Form BlockPublish where
  title := "struct BlockPublish"
  blank := default
  fields := [
    .of "block" Block.form.read fun b m => { m with block := b },
    .of "hop_limit" readWord fun n m => { m with hopLimit := n }]

/-! ### Packets -/

/-- The contents of a packet as they are written. -/
def Packet.body : Packet → Document
  | .simple m => m.document
  | .rumor m => m.document
  | .status s => s.document
  | .secret m => m.document
  | .transaction m => m.document
  | .block m => m.document

/-- A packet as it is written: a record of one member. -/
def Packet.document (p : Packet) : Document := .record [(p.kind.tag, p.body)]

/-- An alternative of a packet. -/
def packetVariant {α : Type} (kind : PacketKind) (read : Value → Reading α) (wrap : α → Packet) :
    Variant Packet :=
  ⟨kind.tag, "newtype variant", fun v => (read v).map wrap⟩

/-- A packet as it is read. -/
def readPacket : Value → Reading Packet := readVariant [
  packetVariant .simple Simple.form.read .simple,
  packetVariant .rumor Rumor.form.read .rumor,
  packetVariant .status readStatus .status,
  packetVariant .secret PrivateMessage.form.read .secret,
  packetVariant .transaction TxPublish.form.read .transaction,
  packetVariant .block BlockPublish.form.read .block]

/-- The number of bytes that a datagram can hold. -/
def maxPacketSize : Nat := 65507

/-- A packet with more bytes than a datagram can hold. -/
structure TooLarge where
  size : Nat
  deriving DecidableEq, Repr

/-- The diagnostic for a packet that is too large. -/
def TooLarge.message (f : TooLarge) : String :=
  "packet of " ++ toString f.size ++ " bytes exceeds the datagram limit"

/-- The datagram of a packet. -/
def Packet.encode (p : Packet) : Except TooLarge Bytes :=
  let bytes := p.document.bytes
  if bytes.length ≤ maxPacketSize then .ok bytes else .error ⟨bytes.length⟩

/-- The packet in a datagram. -/
def Packet.decode (datagram : Bytes) : Reading Packet := readDocument readPacket datagram

end GossipLedger
