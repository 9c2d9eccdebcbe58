/-
Doubles as text.

A double is written with a fixed number of significant digits of its exact value, so
equal texts at seventeen digits mean equal doubles.  What is no number has a name:
`inf` and `NaN`.  The sign of zero is written and read like any other.
-/
import Calculator.Binary64.Fields
import Calculator.Decimal.Scientific

namespace Calculator.Binary64

/-- Enough significant digits to tell any two doubles apart. -/
def fullPrecision : Nat := 17

/-- The double in scientific notation with `n` significant digits. -/
def toScientific (n : Nat) (x : Float) : String :=
  if x.isNaN then "NaN"
  else
    let sign := if isNegative x then "-" else ""
    sign ++ (if x.isInf then "inf" else (magnitude x).toScientific n)

/-- The double that an unsigned text denotes, the nearest one to a decimal. -/
def ofUnsigned? (text : List Char) : Option Float :=
  if text = "inf".toList then some (1.0 / 0.0)
  else if text = "NaN".toList then some (0.0 / 0.0)
  else (Decimal.ofScientific? text).map Decimal.toFloat

/-- The double that a text denotes. -/
def ofScientific? (text : String) : Option Float :=
  match text.toList with
  | '-' :: unsigned => (ofUnsigned? unsigned).map (fun x => -x)
  | unsigned => ofUnsigned? unsigned

end Calculator.Binary64
