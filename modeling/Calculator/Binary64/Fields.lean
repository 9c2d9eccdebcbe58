/-
The parts of a double.

A double is a sign, a power of two and a significand, packed into 64 bits.  A finite
double is therefore a dyadic number, and every dyadic number is a decimal: its exact
value can be written down with finitely many digits.
-/
import Calculator.Decimal.Basic

namespace Calculator.Binary64

/-- The bits of a double as a number.  All NaNs have the same bits. -/
def bits (x : Float) : Nat :=
  x.toBits.toNat

/-- Is the sign bit set?  It is for negative zero. -/
def isNegative (x : Float) : Bool :=
  0x8000000000000000 ≤ bits x

/-- The eleven bits that hold the biased power of two. -/
def exponentField (x : Float) : Nat :=
  bits x / 0x10000000000000 % 0x800

/-- The significand of a finite double, as a whole number.  Only subnormal doubles
lack the leading bit that the format leaves unwritten. -/
def significand (x : Float) : Nat :=
  bits x % 0x10000000000000 + (if exponentField x = 0 then 0 else 0x10000000000000)

/-- The power of two that multiplies the significand of a finite double. -/
def exponent (x : Float) : Int :=
  (max (exponentField x) 1 : Nat) - 1075

/-- The absolute value of a finite double, exactly. -/
def magnitude (x : Float) : Decimal :=
  Decimal.ofDyadic (significand x) (exponent x)

end Calculator.Binary64
