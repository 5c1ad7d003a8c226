import GossipLedger.Json.Message
import GossipLedger.Wire.Codec

/-!
# Settings

The settings of a node, read from a JSON text.  Whatever is left out keeps its
default.

## Main definitions

* `GossipSettings`, `ChainSettings`, `Settings` — the settings and their defaults.
* `Settings.parse` — reading them.
* `GossipSettings.coinProbability` — the chance to go on, kept within its bounds.
-/

namespace GossipLedger

open Json

/-- How rumors are spread.  Times are in milliseconds. -/
structure GossipSettings where
  antiEntropyPeriod : Nat := 3000
  routePeriod : Nat := 3000
  mongerTimeout : Nat := 1000
  /-- Sends to one peer without an answer before it is given up. -/
  maxRetries : UInt32 := 5
  /-- The chance that a rumor is kept alive after a timeout or where a peer has it. -/
  continueProbability : Float := 0.5
  privateHopLimit : UInt32 := 10
  channelCapacity : Nat := 256

instance : Inhabited GossipSettings := ⟨{}⟩

/-- The chance to go on, kept within its bounds.  A negative zero stays one. -/
def GossipSettings.coinProbability (s : GossipSettings) : Float :=
  let p := s.continueProbability
  if p < 0 then 0 else if 1 < p then 1 else p

/-- How blocks are mined and spread. -/
structure ChainSettings where
  /-- The number of zero bytes a nonce must begin with. -/
  difficulty : Nat := 2
  coinbaseReward : UInt32 := 1
  txHopLimit : UInt32 := 10
  blockHopLimit : UInt32 := 20
  /-- An own block is published after this many times the time it took. -/
  publishDelayFactor : UInt32 := 2
  minerHash : Option Digest := none

instance : Inhabited ChainSettings := ⟨{}⟩

/-- All settings. -/
structure Settings where
  gossip : GossipSettings := {}
  chain : ChainSettings := {}

instance : Inhabited Settings := ⟨{}⟩

/-- A whole number of 64 bits. -/
def readLong (v : Value) : Reading Nat := readNatural UInt64.size "u64" v

/-- A number of things. -/
def readSize (v : Value) : Reading Nat := readNatural UInt64.size "usize" v

/-- The gossip settings as they are read. -/
def GossipSettings.form : Form GossipSettings where
  title := "struct GossipConfig"
  blank := {}
  fields := [
    .defaulting "anti_entropy_period_ms" readLong fun n s => { s with antiEntropyPeriod := n },
    .defaulting "route_period_ms" readLong fun n s => { s with routePeriod := n },
    .defaulting "monger_timeout_ms" readLong fun n s => { s with mongerTimeout := n },
    .defaulting "max_retries" readWord fun n s => { s with maxRetries := n },
    .defaulting "continue_probability" readReal fun x s => { s with continueProbability := x },
    .defaulting "private_hop_limit" readWord fun n s => { s with privateHopLimit := n },
    .defaulting "channel_capacity" readSize fun n s => { s with channelCapacity := n }]

/-- The chain settings as they are read. -/
def ChainSettings.form : Form ChainSettings where
  title := "struct ChainConfig"
  blank := {}
  fields := [
    .defaulting "difficulty" readSize fun n s => { s with difficulty := n },
    .defaulting "coinbase_reward" readWord fun n s => { s with coinbaseReward := n },
    .defaulting "tx_hop_limit" readWord fun n s => { s with txHopLimit := n },
    .defaulting "block_hop_limit" readWord fun n s => { s with blockHopLimit := n },
    .defaulting "publish_delay_factor" readWord fun n s => { s with publishDelayFactor := n },
    .defaulting "miner_hash" (readNullable readDigest) fun d s => { s with minerHash := d }]

/-- The settings as they are read. -/
def Settings.form : Form Settings where
  title := "struct Config"
  blank := {}
  fields := [
    .defaulting "gossip" GossipSettings.form.read fun g s => { s with gossip := g },
    .defaulting "chain" ChainSettings.form.read fun c s => { s with chain := c }]

/-- Why no settings can be had from a file. -/
inductive SettingsFault
  /-- There is no text to be read. -/
  | unreadable
  /-- The text does not hold settings. -/
  | invalid (fault : Fault)
  deriving Repr

/-- The settings in the contents of a file, which must be UTF-8. -/
def Settings.parse (contents : Bytes) : Except SettingsFault Settings :=
  if (ofUtf8? contents).isNone then .error .unreadable
  else match readDocument Settings.form.read contents with
    | .ok s => .ok s
    | .error f => .error (.invalid f)

end GossipLedger
