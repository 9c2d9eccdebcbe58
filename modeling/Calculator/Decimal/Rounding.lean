/-
Rounding a decimal to a given number of significant digits.

All of it is exact arithmetic on natural numbers: one quotient is rounded to the
nearest whole number and a half goes to the even neighbour.  The only other thing
that can happen is a carry out of the leading digit, as when 9.99 becomes 10.0.
-/
import Calculator.Decimal.Basic

namespace Calculator

/-- The whole number nearest to `n / d`; a half goes to the even neighbour. -/
def roundDiv (n d : Nat) : Nat :=
  let quotient := n / d
  let remainder := n % d
  if 2 * remainder < d then quotient
  else if 2 * remainder = d then quotient + quotient % 2
  else quotient + 1

namespace Decimal

/-- How many digits the coefficient is written with. -/
def digitCount (d : Decimal) : Nat :=
  (Nat.toDigits 10 d.coefficient).length

/-- The nearest decimal whose coefficient has `n` digits.  Short coefficients are
padded with zeros, which changes nothing; long ones are rounded, and a carry out of
the leading digit moves the point instead of adding a digit. -/
def toPrecision (n : Nat) (d : Decimal) : Decimal :=
  let count := d.digitCount
  if count ≤ n then
    ⟨d.coefficient * Nat.pow 10 (n - count), d.exponent - (n - count : Nat)⟩
  else
    let rounded := roundDiv d.coefficient (Nat.pow 10 (count - n))
    let exponent := d.exponent + (count - n : Nat)
    if rounded = Nat.pow 10 n then ⟨Nat.pow 10 (n - 1), exponent + 1⟩ else ⟨rounded, exponent⟩

end Decimal

end Calculator
