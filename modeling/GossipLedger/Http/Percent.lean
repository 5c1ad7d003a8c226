import GossipLedger.Bytes.Hex

/-!
# Percent-encoding

In the path of a request a byte may be written as `%` and two hexadecimal digits
of either case.  A `%` that no two digits follow stands for itself.

## Main definitions

* `decodePercent` — the bytes that a text stands for.
* `percentText?` — their text, if they are valid UTF-8.

## Main results

* `decodePercent_escape` — an escaped byte is read back.
* `decodePercent_of_not_mem` — without `%` the bytes stand for themselves.
-/

namespace GossipLedger

/-- The byte `%`. -/
def percentSign : UInt8 := 37

/-- The byte that `%` and two digits stand for. -/
def escapedByte? (sign hi lo : UInt8) : Option UInt8 :=
  if sign = percentSign then
    match hexValue? hi, hexValue? lo with
    | some h, some l => some (UInt8.ofNat (16 * h + l))
    | _, _ => none
  else none

/-- The bytes that a text stands for. -/
def decodePercent : Bytes → Bytes
  | [] => []
  | b :: hi :: lo :: rest =>
      match escapedByte? b hi lo with
      | some x => x :: decodePercent rest
      | none => b :: decodePercent (hi :: lo :: rest)
  | b :: rest => b :: decodePercent rest

/-- The text that a part of a path stands for, if it is one. -/
def percentText? (cs : List Char) : Option String :=
  ofUtf8? (decodePercent (utf8 (String.ofList cs)))

/-- An escaped byte is read back. -/
theorem decodePercent_escape (x : UInt8) (rest : Bytes) :
    decodePercent
        (percentSign :: hexDigitByte (x.toNat / 16) :: hexDigitByte (x.toNat % 16) :: rest)
      = x :: decodePercent rest := by
  have hx : x.toNat < 256 := x.toNat_lt
  have h16 : 16 * (x.toNat / 16) + x.toNat % 16 = x.toNat := by omega
  simp [decodePercent, escapedByte?, hexValue?_hexDigitByte (n := x.toNat / 16) (by omega),
    hexValue?_hexDigitByte (n := x.toNat % 16) (by omega), h16]

/-- Without `%` the bytes stand for themselves. -/
theorem decodePercent_of_not_mem {b : Bytes} (h : percentSign ∉ b) : decodePercent b = b := by
  fun_induction decodePercent b with
  | case1 => rfl
  | case2 b hi lo rest x hx ih =>
    have : b ≠ percentSign := fun e => h (by simp [e])
    simp [escapedByte?, this] at hx
  | case3 b hi lo rest hx ih => rw [ih fun hm => h (List.mem_cons_of_mem _ hm)]
  | case4 b rest hr ih => rw [ih fun hm => h (List.mem_cons_of_mem _ hm)]

end GossipLedger
