/-
The elementary functions.

Trigonometric and hyperbolic functions with their inverses, and the square root.  All
other functions are made of these and of the operators.
-/

namespace Calculator

/-- An elementary function. -/
inductive Elementary
  | sin
  | cos
  | tan
  | arcsin
  | arccos
  | arctan
  | sinh
  | cosh
  | tanh
  | arcsinh
  | arccosh
  | arctanh
  | sqrt
  deriving DecidableEq, Inhabited

/-- The value of an elementary function at a point; NaN outside its domain. -/
def Elementary.apply (f : Elementary) (x : Float) : Float :=
  match f with
  | sin => x.sin
  | cos => x.cos
  | tan => x.tan
  | arcsin => x.asin
  | arccos => x.acos
  | arctan => x.atan
  | sinh => x.sinh
  | cosh => x.cosh
  | tanh => x.tanh
  | arcsinh => x.asinh
  | arccosh => x.acosh
  | arctanh => x.atanh
  | sqrt => x.sqrt

end Calculator
