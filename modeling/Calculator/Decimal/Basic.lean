/-
Decimal numbers, held exactly.

A number literal denotes a decimal: a whole coefficient and a power of ten.  Keeping
the decimal exact until the last moment means that rounding happens once, when the
decimal becomes a double, however many digits were written.

`ofLiteral?` is at the same time the grammar of number literals: it succeeds exactly
on the texts that are literals, so the question "is this a number?" and the answer
"this number" cannot drift apart.
-/

namespace Calculator

/-- The number `coefficient * 10 ^ exponent`. -/
structure Decimal where
  coefficient : Nat
  exponent : Int
  deriving DecidableEq, Inhabited

namespace Decimal

/-! ### Reading a literal -/

/-- The decimal with the given digits before and after its point.  There has to be a
digit, on whichever side, and nothing else may stand among them. -/
def ofDigits? (whole fraction : List Char) : Option Decimal :=
  let digits := whole ++ fraction
  if !digits.isEmpty && digits.all Char.isDigit then
    some ⟨Nat.ofDigitChars 10 digits 0, -fraction.length⟩
  else none

/-- The value of a number literal: digits with at most one point among them, before
them or after them.  Everything after a first point is the fraction, so a second
point is found there and refused. -/
def ofLiteral? (literal : List Char) : Option Decimal :=
  match literal.dropWhile (· ≠ '.') with
  | [] => ofDigits? literal []
  | _ :: fraction => ofDigits? (literal.takeWhile (· ≠ '.')) fraction

/-- Digits are a decimal when there is one and there is nothing else. -/
theorem isSome_ofDigits? (whole fraction : List Char) :
    (ofDigits? whole fraction).isSome = true ↔
      whole ++ fraction ≠ [] ∧ ∀ c ∈ whole ++ fraction, c.isDigit = true := by
  simp only [ofDigits?]
  generalize whole ++ fraction = digits
  split <;> simp_all

/-! ### Conversion -/

/-- The double nearest to the decimal; of two equally near, the one with an even
significand.  A decimal beyond the largest double becomes infinity. -/
def toFloat (d : Decimal) : Float :=
  Float.ofScientific d.coefficient (d.exponent < 0) d.exponent.natAbs

/-- The decimal equal to `significand * 2 ^ exponent`.  A negative power of two is a
power of five over a power of ten, so nothing is lost. -/
def ofDyadic (significand : Nat) (exponent : Int) : Decimal :=
  if significand = 0 then ⟨0, 0⟩
  else if exponent < 0 then ⟨significand * Nat.pow 5 exponent.natAbs, exponent⟩
  else ⟨significand * Nat.pow 2 exponent.natAbs, 0⟩

end Decimal

end Calculator
