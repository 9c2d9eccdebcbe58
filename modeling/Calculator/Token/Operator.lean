/-
The five operators.

Precedence says which of two neighbouring operators takes the operand between them.
Operators of one precedence take it from the left, `^` included.
-/

namespace Calculator

/-- An arithmetic operator. -/
inductive Operator
  | plus
  | minus
  | times
  | divide
  | power
  deriving DecidableEq, Inhabited

namespace Operator

/-- The symbol an operator is written with. -/
def symbol : Operator → String
  | plus => "+"
  | minus => "-"
  | times => "*"
  | divide => "/"
  | power => "^"

/-- The operator written with a symbol. -/
def ofSymbol? : String → Option Operator
  | "+" => some plus
  | "-" => some minus
  | "*" => some times
  | "/" => some divide
  | "^" => some power
  | _ => none

/-- Reading a symbol gives an operator exactly when the operator is written that way. -/
theorem ofSymbol?_eq_some_iff {text : String} {op : Operator} :
    ofSymbol? text = some op ↔ text = op.symbol := by
  constructor
  · unfold ofSymbol?
    split <;> simp_all [symbol, eq_comm]
  · rintro rfl
    cases op <;> rfl

/-- How tightly an operator binds.  Zero is left for what is no operator. -/
def precedence : Operator → Nat
  | plus | minus => 1
  | times | divide => 2
  | power => 3

/-- The value of an operator on two operands.  Nothing is an error: dividing by zero
or a root of a negative number gives an infinity or NaN. -/
def apply (op : Operator) (left right : Float) : Float :=
  match op with
  | plus => left + right
  | minus => left - right
  | times => left * right
  | divide => left / right
  | power => left.pow right

end Operator

end Calculator
