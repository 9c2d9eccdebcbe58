/-
Expressions as far as they have been read.

A draft is the tree of the tokens read so far with a cursor on the node that the last
of them belongs to.  One token at a time is added, and where it goes is found by
walking up from the cursor, so no stack of pending operators is needed:

* an operator walks up past every parent that binds at least as tightly, and takes
  the operand it reaches as its left one;
* a closing parenthesis or a comma walks up to the innermost open group, and where
  none is open, a group is opened around everything read so far;
* every other token hangs from the cursor, below a multiplication of its own where
  one is implied.

A function binds its argument list as loosely as can be, so an operator never walks
past a call, although it does take the whole call as its left operand.
-/
import Calculator.Arena.Lineage
import Calculator.Draft.Placement

namespace Calculator

/-- A tree under construction, with a cursor on one of its nodes. -/
structure Draft where
  arena : Arena
  cursor : Nat
  deriving DecidableEq, Inhabited

namespace Draft

/-- The node the cursor is on. -/
def current (d : Draft) : Node :=
  d.arena.node d.cursor

/-! ### Placing a token -/

/-- The draft of a first token: a single node. -/
def single (value : String) (kind : Kind) : Draft :=
  ⟨Arena.empty.push value kind, 0⟩

/-- Hang a token from the cursor. -/
def hang (d : Draft) (value : String) (kind : Kind) : Draft :=
  ⟨d.arena.pushBelow d.cursor value kind, d.arena.size⟩

/-- Put an operator in the place of `operand`, which becomes its left operand. -/
def operate (d : Draft) (operand : Nat) (value : String) (op : Operator) : Draft :=
  ⟨d.arena.pushAbove operand value (.operator op), d.arena.size⟩

/-- The left operand that an operator finds in front of it. -/
def leftOperand (d : Draft) (op : Operator) : Nat :=
  d.arena.wholeCall (d.arena.operandEndingIn op.precedence d.cursor)

/-- Multiply the node the cursor is on with a token. -/
def multiply (d : Draft) (value : String) (kind : Kind) : Draft :=
  (d.operate d.cursor Operator.times.symbol .times).hang value kind

/-- Move to the innermost open group.  Where there is none, everything read so far
becomes the first value of a new one. -/
def enclose (d : Draft) : Draft :=
  match d.arena.innermostOpen? d.cursor with
  | some group => { d with cursor := group }
  | none => ⟨d.arena.pushAbove (d.arena.top d.cursor) "(" .openGroup, d.arena.size⟩

/-- Close the innermost open group. -/
def close (d : Draft) : Draft :=
  let enclosed := d.enclose
  { enclosed with arena := enclosed.arena.close enclosed.cursor }

/-- Place a token as the table of placements says. -/
def place (d : Draft) (value : String) (kind : Kind) : Placement → Draft
  | .rightOf op => d.operate (d.leftOperand op) value op
  | .below => d.hang value kind
  | .factor => d.multiply value kind
  | .close => d.close
  | .separate => d.enclose

/-! ### Reading tokens -/

/-- Start with the first token. -/
def start (token : String) : Except Error Draft := do
  let kind ← Kind.classify token
  return single token kind

/-- Add a token.  Its kind is found before its place is. -/
def step (d : Draft) (token : String) : Except Error Draft := do
  let kind ← Kind.classify token
  match Placement.of? d.current.kind kind with
  | some placement => return d.place token kind placement
  | none => throw (.invalidSequence d.current.value token)

/-- The draft of all the tokens, or the error of the first one that does not fit. -/
def ofTokens : List String → Except Error Draft
  | [] => throw .emptyExpression
  | token :: rest => do
      let d ← start token
      rest.foldlM step d

end Draft

end Calculator
