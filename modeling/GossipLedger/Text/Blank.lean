/-!
# Blank characters

The characters that count as white space around a value written by hand: the
Unicode property `White_Space`.  Core's `Char.isWhitespace` knows only the ASCII
part of it.

## Main definitions

* `isBlank` — membership in `White_Space`.
* `trimBlankStart`, `trimBlank` — a text without the blanks around it.
-/

namespace GossipLedger

/-- The Unicode property `White_Space`. -/
def isBlank (c : Char) : Bool :=
  let n := c.toNat
  (9 ≤ n && n ≤ 13) || n == 0x20 || n == 0x85 || n == 0xA0 || n == 0x1680
    || (0x2000 ≤ n && n ≤ 0x200A) || n == 0x2028 || n == 0x2029 || n == 0x202F
    || n == 0x205F || n == 0x3000

/-- A text without its leading blanks. -/
def trimBlankStart (cs : List Char) : List Char :=
  cs.dropWhile isBlank

/-- A text without the blanks on either side. -/
def trimBlank (cs : List Char) : List Char :=
  ((trimBlankStart cs).reverse.dropWhile isBlank).reverse

/-- Every blank of ASCII that core knows is a blank. -/
theorem isBlank_of_isWhitespace {c : Char} (h : c.isWhitespace = true) : isBlank c = true := by
  simp only [Char.isWhitespace, Bool.or_eq_true, decide_eq_true_eq] at h
  rcases h with ((rfl | rfl) | rfl) | rfl <;> decide

end GossipLedger
