/-
Which token may follow which.

What happens to a token depends on two kinds alone: its own, and that of the node the
cursor is on.  The table below lists the pairs that may stand together and what is
done with the second of the two; every other pair is an error.
-/
import Calculator.Token.Kind

namespace Calculator

/-- What becomes of a token that follows another. -/
inductive Placement
  /-- It is an operator that takes what was read before as its left operand. -/
  | rightOf (op : Operator)
  /-- It hangs from the node before. -/
  | below
  /-- It hangs from a multiplication that was not written. -/
  | factor
  /-- It closes a group. -/
  | close
  /-- It ends one of the values of a group. -/
  | separate
  deriving DecidableEq, Inhabited

/-- What becomes of a token of kind `incoming` when the cursor is on a node of kind
`previous`. -/
def Placement.of? (previous incoming : Kind) : Option Placement :=
  match previous, incoming with
  | .number, .operator op | .closedGroup, .operator op => some (.rightOf op)
  | .number, .openGroup | .number, .word | .closedGroup, .word => some .factor
  | .number, .closer | .closedGroup, .closer => some .close
  | .number, .comma | .closedGroup, .comma => some .separate
  | .operator _, .number | .operator _, .openGroup | .operator _, .word => some .below
  | .openGroup, .number | .openGroup, .openGroup | .openGroup, .word => some .below
  | .operator _, .operator .minus | .openGroup, .operator .minus => some .below
  | .word, .openGroup => some .below
  | _, _ => none

end Calculator
