import GossipLedger.Net.Address
import GossipLedger.Text.Blank
import GossipLedger.Text.Fields

/-!
# Peer addresses as text

The short kind is written `10.0.0.1:80`.  The long kind is written
`[2001:db8::1%4]:80`: groups in hexadecimal without zeros in front, the first of
the longest runs of at least two zero groups as `::`, an embedded short address
after `::ffff:` in its own form, and the scope only if it is not zero.

The reader takes every spelling of an address: groups with zeros in front, `::`
at any place, a short address as the last two groups, zeros in front of a port.

## Main definitions

* `PeerAddress.text` — the written form.
* `PeerAddress.parse` — the address in a text, blanks around it aside.
* `PeerAddress.parseList` — the addresses of a list with commas.
-/

namespace GossipLedger

/-! ### Writing -/

/-- The characters of a short address. -/
def HostV4.chars (h : HostV4) : List Char :=
  Nat.toDigits 10 h.a.toNat ++ '.' :: Nat.toDigits 10 h.b.toNat
    ++ '.' :: Nat.toDigits 10 h.c.toNat ++ '.' :: Nat.toDigits 10 h.d.toNat

/-- The number of zero groups that a list begins with. -/
def zeroRun (gs : List UInt16) : Nat := (gs.takeWhile (· == 0)).length

/-- The place and the length of the first of the longest runs of zero groups;
`index` groups come before the list. -/
def longestZeroRun (index : Nat) : List UInt16 → Nat × Nat
  | [] => (index, 0)
  | g :: gs =>
      let here := zeroRun (g :: gs)
      let later := longestZeroRun (index + 1) gs
      if here < later.2 then later else (index, here)

/-- Groups in hexadecimal with a colon between any two. -/
def groupChars (gs : List UInt16) : List Char :=
  [':'].intercalate (gs.map fun g => Nat.toDigits 16 g.toNat)

/-- The short address that a long one embeds after five zero groups and `ffff`. -/
def HostV6.embedded? (h : HostV6) : Option HostV4 :=
  match h.groups with
  | [0, 0, 0, 0, 0, 0xffff, x, y] =>
      some ⟨(x >>> 8).toUInt8, x.toUInt8, (y >>> 8).toUInt8, y.toUInt8⟩
  | _ => none

/-- The characters of a long address. -/
def HostV6.chars (h : HostV6) : List Char :=
  match h.embedded? with
  | some short => "::ffff:".toList ++ short.chars
  | none =>
      let (start, length) := longestZeroRun 0 h.groups
      if 1 < length then
        groupChars (h.groups.take start)
          ++ ':' :: ':' :: groupChars (h.groups.drop (start + length))
      else groupChars h.groups

/-- The characters of a peer address. -/
def PeerAddress.chars : PeerAddress → List Char
  | .v4 host port => host.chars ++ ':' :: Nat.toDigits 10 port.toNat
  | .v6 host scope port =>
      '[' :: host.chars ++ (if scope = 0 then [] else '%' :: Nat.toDigits 10 scope.toNat)
        ++ ']' :: ':' :: Nat.toDigits 10 port.toNat

/-- The written form of a peer address. -/
def PeerAddress.text (p : PeerAddress) : String := String.ofList p.chars

/-! ### Reading

Each step either takes its part off the front of the text or fails and leaves
the text to another step. -/

/-- The value of a digit of either case in a base up to sixteen. -/
def digitIn? (base : Nat) (c : Char) : Option Nat :=
  let n := c.toNat
  let v := if 48 ≤ n ∧ n ≤ 57 then n - 48
    else if 97 ≤ n ∧ n ≤ 102 then n - 87
    else if 65 ≤ n ∧ n ≤ 70 then n - 55
    else 16
  if v < base then some v else none

/-- The digits at the beginning of a text and the text after them. -/
def takeDigits (base : Nat) : List Char → List Nat × List Char
  | [] => ([], [])
  | c :: cs =>
      match digitIn? base c with
      | some d => let (ds, rest) := takeDigits base cs; (d :: ds, rest)
      | none => ([], c :: cs)

/-- The number that digits stand for. -/
def numberOf (base : Nat) (ds : List Nat) : Nat := ds.foldl (fun n d => base * n + d) 0

/-- A number below `bound` of any number of digits. -/
def takeNumber (bound : Nat) (cs : List Char) : Option (Nat × List Char) :=
  let (ds, rest) := takeDigits 10 cs
  if ds ≠ [] ∧ numberOf 10 ds < bound then some (numberOf 10 ds, rest) else none

/-- A given character. -/
def takeChar (c : Char) : List Char → Option (List Char)
  | [] => none
  | d :: cs => if d = c then some cs else none

/-- A byte of up to three digits, without zeros in front. -/
def takeByte (cs : List Char) : Option (UInt8 × List Char) :=
  let (ds, rest) := takeDigits 10 cs
  match ds with
  | [] => none
  | 0 :: _ :: _ => none
  | _ =>
    if ds.length ≤ 3 ∧ numberOf 10 ds < 256 then some (UInt8.ofNat (numberOf 10 ds), rest)
    else none

/-- A group of up to four hexadecimal digits. -/
def takeGroup (cs : List Char) : Option (UInt16 × List Char) :=
  let (ds, rest) := takeDigits 16 cs
  if ds ≠ [] ∧ ds.length ≤ 4 then some (UInt16.ofNat (numberOf 16 ds), rest) else none

/-- A short address. -/
def takeHostV4 (cs : List Char) : Option (HostV4 × List Char) := do
  let (a, cs) ← takeByte cs
  let (b, cs) ← takeByte (← takeChar '.' cs)
  let (c, cs) ← takeByte (← takeChar '.' cs)
  let (d, cs) ← takeByte (← takeChar '.' cs)
  return (⟨a, b, c, d⟩, cs)

/-- The last two groups of a long address that end in a short one. -/
def HostV4.groups (h : HostV4) : List UInt16 :=
  [h.a.toUInt16 <<< 8 ||| h.b.toUInt16, h.c.toUInt16 <<< 8 ||| h.d.toUInt16]

/-- The colon before a group, unless it is the first. -/
def takeSeparator (first : Bool) (cs : List Char) : Option (List Char) :=
  if first then some cs else takeChar ':' cs

/-- Up to `room` groups with a colon between any two, of which the last two may
be written as a short address: the groups, whether they end in a short address,
and the text after them. -/
def takeGroups (first : Bool) : Nat → List Char → List UInt16 × Bool × List Char
  | 0, cs => ([], false, cs)
  | room + 1, cs =>
      let short := if 1 ≤ room then (takeSeparator first cs).bind takeHostV4 else none
      match short with
      | some (h, rest) => (h.groups, true, rest)
      | none =>
          match (takeSeparator first cs).bind takeGroup with
          | some (g, rest) =>
              let (gs, embedded, rest) := takeGroups false room rest
              (g :: gs, embedded, rest)
          | none => ([], false, cs)

/-- A long address of given groups before and after `::`. -/
def HostV6.ofParts? (front back : List UInt16) : Option HostV6 :=
  if h : front.length + back.length ≤ 8 then
    some ⟨front ++ List.replicate (8 - front.length - back.length) 0 ++ back, by simp; omega⟩
  else none

/-- A long address.  The `::` stands for at least one group, and a short address
may only come last. -/
def takeHostV6 (cs : List Char) : Option (HostV6 × List Char) := do
  let (front, embedded, rest) := takeGroups true 8 cs
  if front.length = 8 then return (← HostV6.ofParts? front [], rest)
  else if embedded then none
  else
    let rest ← takeChar ':' (← takeChar ':' rest)
    let (back, _, rest) := takeGroups true (7 - front.length) rest
    return (← HostV6.ofParts? front back, rest)

/-- The scope of a long address, zero if there is none. -/
def takeScope (cs : List Char) : UInt32 × List Char :=
  match (takeChar '%' cs).bind (takeNumber UInt32.size) with
  | some (n, rest) => (UInt32.ofNat n, rest)
  | none => (0, cs)

/-- The colon and the port. -/
def takePort (cs : List Char) : Option (UInt16 × List Char) := do
  let (n, rest) ← takeNumber UInt16.size (← takeChar ':' cs)
  return (UInt16.ofNat n, rest)

/-- A peer address of the short kind. -/
def takePeerV4 (cs : List Char) : Option (PeerAddress × List Char) := do
  let (host, cs) ← takeHostV4 cs
  let (port, cs) ← takePort cs
  return (.v4 host port, cs)

/-- A peer address of the long kind. -/
def takePeerV6 (cs : List Char) : Option (PeerAddress × List Char) := do
  let (host, cs) ← takeHostV6 (← takeChar '[' cs)
  let (scope, cs) := takeScope cs
  let (port, cs) ← takePort (← takeChar ']' cs)
  return (.v6 host scope port, cs)

/-- The peer address that makes up a whole text. -/
def PeerAddress.ofChars? (cs : List Char) : Option PeerAddress :=
  match (takePeerV4 cs).orElse fun _ => takePeerV6 cs with
  | some (p, []) => some p
  | _ => none

/-- A text that is no peer address. -/
structure AddressFault where
  /-- The text as it was given. -/
  given : String
  deriving DecidableEq, Repr

/-- The diagnostic for a text that is no peer address. -/
def AddressFault.message (f : AddressFault) : String :=
  "invalid peer address '" ++ f.given ++ "', expected ip:port"

/-- The address in a text, blanks around it aside. -/
def PeerAddress.parse (s : String) : Except AddressFault PeerAddress :=
  match ofChars? (trimBlank s.toList) with
  | some p => .ok p
  | none => .error ⟨s⟩

/-- The addresses of a list with commas; parts that are blank are skipped. -/
def PeerAddress.parseList (s : String) : Except AddressFault (List PeerAddress) :=
  (((fields ',' s.toList).map trimBlank).filter (· ≠ [])).mapM fun item =>
    parse (String.ofList item)

end GossipLedger
