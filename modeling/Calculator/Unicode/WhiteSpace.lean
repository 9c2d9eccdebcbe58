/-
The blanks of Unicode.

A blank ends a token and belongs to none.  Blank means the property White_Space:
the ASCII blanks from tab to carriage return, the space, and the spaces and line
breaks of the wider character set.  Zero-width characters are not blank.
-/
import Calculator.Unicode.Ranges

namespace Calculator.Unicode

/-- The code points with the property White_Space. -/
def whiteSpaceRanges : List (Nat × Nat) := [
  (0x9, 0xD), (0x20, 0x20), (0x85, 0x85), (0xA0, 0xA0), (0x1680, 0x1680), (0x2000, 0x200A),
  (0x2028, 0x2029), (0x202F, 0x202F), (0x205F, 0x205F), (0x3000, 0x3000)]

/-- Does the character have the property White_Space? -/
def isWhiteSpace (c : Char) : Bool :=
  inRanges whiteSpaceRanges c.toNat

theorem ascending_whiteSpaceRanges : ascending 0 whiteSpaceRanges = true := by
  decide +kernel

/-- A character is blank when a range of the table holds it. -/
theorem isWhiteSpace_iff (c : Char) :
    isWhiteSpace c = true ↔ ∃ r ∈ whiteSpaceRanges, r.1 ≤ c.toNat ∧ c.toNat ≤ r.2 :=
  inRanges_iff ascending_whiteSpaceRanges c.toNat

end Calculator.Unicode
