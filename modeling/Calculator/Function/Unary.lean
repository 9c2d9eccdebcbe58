/-
The functions of one argument.

Trigonometric and hyperbolic functions with their inverses.  An inverse may be
written short or long, `asin` or `arcsin`; the three reciprocal functions and their
inverses are defined through the other three.
-/
import Calculator.Arithmetic.Basic

namespace Calculator

/-- A function of one argument. -/
inductive Unary
  | sin
  | cos
  | tan
  | csc
  | sec
  | cot
  | arcsin
  | arccos
  | arctan
  | arccsc
  | arcsec
  | arccot
  | sinh
  | cosh
  | tanh
  | arcsinh
  | arccosh
  | arctanh
  deriving DecidableEq, Inhabited

namespace Unary

/-- The value of a function at a point; NaN outside its domain. -/
def apply {α : Type} (m : Arithmetic α) (f : Unary) (x : α) : α :=
  match f with
  | sin => m.elementary .sin x
  | cos => m.elementary .cos x
  | tan => m.elementary .tan x
  | csc => m.operate .divide (m.ofNat 1) (m.elementary .sin x)
  | sec => m.operate .divide (m.ofNat 1) (m.elementary .cos x)
  | cot => m.operate .divide (m.elementary .cos x) (m.elementary .sin x)
  | arcsin => m.elementary .arcsin x
  | arccos => m.elementary .arccos x
  | arctan => m.elementary .arctan x
  | arccsc => m.elementary .arcsin (m.operate .divide (m.ofNat 1) x)
  | arcsec => m.elementary .arccos (m.operate .divide (m.ofNat 1) x)
  | arccot => m.elementary .arctan (m.operate .divide (m.ofNat 1) x)
  | sinh => m.elementary .sinh x
  | cosh => m.elementary .cosh x
  | tanh => m.elementary .tanh x
  | arcsinh => m.elementary .arcsinh x
  | arccosh => m.elementary .arccosh x
  | arctanh => m.elementary .arctanh x

/-- Every name of a function of one argument, in alphabetical order. -/
def table : List (String × Unary) := [
  ("acos", arccos), ("acosh", arccosh), ("acot", arccot), ("acsc", arccsc),
  ("arccos", arccos), ("arccosh", arccosh), ("arccot", arccot), ("arccsc", arccsc),
  ("arcsec", arcsec), ("arcsin", arcsin), ("arcsinh", arcsinh), ("arctan", arctan),
  ("arctanh", arctanh), ("asec", arcsec), ("asin", arcsin), ("asinh", arcsinh),
  ("atan", arctan), ("atanh", arctanh), ("cos", cos), ("cosh", cosh), ("cot", cot),
  ("csc", csc), ("sec", sec), ("sin", sin), ("sinh", sinh), ("tan", tan), ("tanh", tanh)]

/-- The names of the functions of one argument, in alphabetical order. -/
def names : List String :=
  table.map Prod.fst

/-- The function with exactly this name. -/
def ofName? (name : String) : Option Unary :=
  table.lookup name

end Unary

end Calculator
