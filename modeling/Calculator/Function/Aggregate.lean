/-
The functions of a whole argument list.

They take any number of arguments, none included.  Sums run from left to right and
start from negative zero, which is the neutral element of addition: the sum of
negative zeros alone stays negative.

The median is the one function that disturbs its arguments: it leaves them in
ascending total order.
-/
import Calculator.Arithmetic.Basic

namespace Calculator

namespace Arithmetic

variable {α : Type} (m : Arithmetic α)

/-- The sum of the values, from left to right. -/
def sum (values : List α) : α :=
  values.foldl (m.operate .plus) (m.negate (m.ofNat 0))

/-- The arithmetic mean of the values; NaN for none. -/
def mean (values : List α) : α :=
  m.operate .divide (m.sum values) (m.ofNat values.length)

/-- The middle one of the values in ascending order, or the mean of the middle two;
NaN for none. -/
def median (values : List α) : α :=
  let sorted := m.sort values
  let half := values.length / 2
  let upper := sorted.getD half m.nan
  if values.isEmpty then m.nan
  else if values.length % 2 = 0 then
    m.operate .divide (m.operate .plus (sorted.getD (half - 1) m.nan) upper) (m.ofNat 2)
  else upper

/-- The standard deviation of a sample; NaN for a single value. -/
def stdev (values : List α) : α :=
  let center := m.mean values
  let squares := m.sum (values.map fun value =>
    m.operate .times (m.operate .minus value center) (m.operate .minus value center))
  let variance :=
    m.operate .divide squares (m.operate .minus (m.ofNat values.length) (m.ofNat 1))
  m.elementary .sqrt variance

end Arithmetic

/-- A function of a whole argument list. -/
inductive Aggregate
  | mean
  | median
  | stdev
  | sum
  deriving DecidableEq, Inhabited

namespace Aggregate

variable {α : Type} (m : Arithmetic α)

/-- The value of an aggregate. -/
def apply (g : Aggregate) (values : List α) : α :=
  match g with
  | mean => m.mean values
  | median => m.median values
  | stdev => m.stdev values
  | sum => m.sum values

/-- The argument list as an aggregate leaves it. -/
def rearrange (g : Aggregate) (values : List α) : List α :=
  match g with
  | median => m.sort values
  | mean | stdev | sum => values

/-- Every name of an aggregate, in alphabetical order. -/
def table : List (String × Aggregate) := [
  ("mean", mean), ("median", median), ("stdev", stdev), ("sum", sum)]

/-- The names of the aggregates, in alphabetical order. -/
def names : List String :=
  table.map Prod.fst

/-- The aggregate with exactly this name. -/
def ofName? (name : String) : Option Aggregate :=
  table.lookup name

end Aggregate

end Calculator
