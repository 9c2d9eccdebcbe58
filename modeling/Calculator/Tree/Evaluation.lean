/-
The value of a tree.

Operands and arguments are evaluated from left to right, each of them before the
operator or function above it, and the first error is the result.  Whether a node has
the right number of children is looked at before any of them is evaluated.

A tree can be built and still have no value: an operator at the end of the text has
no right operand, a word may stand without an argument list, and a group may hold
several values without being one.  For all this it does not matter what the values are,
so they are those of any arithmetic.
-/
import Calculator.Function.Call
import Calculator.Tree.Basic

namespace Calculator.Tree

variable {α : Type} (m : Arithmetic α)

mutual

/-- The value of a tree, or the first error met on the way. -/
def evaluate : Tree → Except Error α
  | node value .number _ =>
      match Decimal.ofLiteral? value.toList with
      | some number => .ok (m.ofDecimal number)
      | none => .error (.malformed (.notANumber value))
  | node value (.operator op) children =>
      match op, children with
      | .minus, [operand] => do
          let x ← evaluate operand
          return m.negate x
      | op, [left, right] => do
          let x ← evaluate left
          let y ← evaluate right
          return m.operate op x y
      | _, children => .error (.malformed (.operands value children.length))
  | node _ .openGroup children | node _ .closedGroup children =>
      match children with
      | [inner] => evaluate inner
      | children => .error (.malformed (.values children.length))
  | node value .word children =>
      match children with
      | [node _ kind arguments] =>
          if kind.isGroup then do
            let values ← evaluateAll arguments
            (m.call value values).value
          else .error (.malformed (.noArguments value))
      | _ => .error (.malformed (.noArguments value))
  | node value .closer _ | node value .comma _ => .error (.malformed (.unexpected value))

/-- The values of neighbouring trees, or the first error met on the way. -/
def evaluateAll : List Tree → Except Error (List α)
  | [] => .ok []
  | t :: rest => do
      let x ← evaluate t
      let xs ← evaluateAll rest
      return x :: xs

end

end Calculator.Tree
