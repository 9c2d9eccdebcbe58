/-
The arithmetic that an expression is calculated with.

Most of what happens to an expression does not depend on what its numbers are.  So the
operations on them are kept together in a structure, and whatever calculates takes it
as an argument.

The values stand for doubles, but several of them may stand for the same one.  NaN is
the reason.  It has a sign like any other double, and although no comparison shows the
sign, the median does: in the total order a NaN with its sign set is before all other
values, and one without is behind them.  A minus is known to turn the sign round.  Which
NaN the other operations give is left to the machine and to its library, and so are the
last digits of the elementary functions.
-/
import Calculator.Decimal.Basic
import Calculator.Function.Elementary
import Calculator.Token.Operator

namespace Calculator

/-- Values that stand for doubles, and the operations on them. -/
structure Arithmetic (α : Type) where
  /-- The value nearest to a decimal. -/
  ofDecimal : Decimal → α
  negate : α → α
  operate : Operator → α → α → α
  elementary : Elementary → α → α
  /-- The NaN that is the median of no values. -/
  nan : α
  /-- The double that a value stands for. -/
  toFloat : α → Float
  /-- The place of a value in the total order. -/
  rank : α → Int
  isNaN_nan : (toFloat nan).isNaN = true
  /-- Values of one place are the same. -/
  rank_injective : Function.Injective rank

namespace Arithmetic

variable {α : Type} (m : Arithmetic α)

/-- A natural number as a value. -/
def ofNat (n : Nat) : α :=
  m.ofDecimal ⟨n, 0⟩

/-- Does `x` come no later than `y` in the total order? -/
def precedes (x y : α) : Bool :=
  m.rank x ≤ m.rank y

/-- The values of a list in ascending total order. -/
def sort (values : List α) : List α :=
  values.mergeSort m.precedes

end Arithmetic

end Calculator
