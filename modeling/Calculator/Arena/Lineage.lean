/-
Walking up a tree.

The lineage of a node is the node itself, its parent, the parent of that, and so on
to the top.  Everything that walks up is said with it: the top is its last node, and
the innermost open group is the first open group in it.

A lineage cannot be longer than the arena is large unless parents run in a circle, so
the size of the arena is fuel enough.
-/
import Calculator.Arena.Basic

namespace Calculator.Arena

/-- The node and those above it, going up `fuel` times at most. -/
def lineageWithin (a : Arena) : Nat → Nat → List Nat
  | 0, id => [id]
  | fuel + 1, id =>
      match (a.node id).parent with
      | none => [id]
      | some parent => id :: a.lineageWithin fuel parent

/-- The node and those above it, from the node to the top. -/
def lineage (a : Arena) (id : Nat) : List Nat :=
  a.lineageWithin a.size id

/-- The node without a parent that is reached by walking up. -/
def top (a : Arena) (id : Nat) : Nat :=
  (a.lineage id).getLastD id

/-- The innermost open group around a node, if there is one. -/
def innermostOpen? (a : Arena) (id : Nat) : Option Nat :=
  (a.lineage id).find? (fun above => (a.node above).kind = .openGroup)

/-- The outermost operand that ends in the node and that operators of precedence
`precedence` cannot take apart: the walk goes up as long as the parent binds at least
as tightly. -/
def operandEndingIn (a : Arena) (precedence : Nat) (id : Nat) : Nat :=
  let bindsTighter := fun above => precedence ≤ (a.node above).kind.precedence
  ((a.lineage id).tail.takeWhile bindsTighter).getLastD id

/-- A finished argument list stands for the whole call it belongs to. -/
def wholeCall (a : Arena) (id : Nat) : Nat :=
  match (a.node id).kind, (a.node id).parent with
  | .closedGroup, some parent => if (a.node parent).kind = .word then parent else id
  | _, _ => id

theorem head?_lineageWithin (a : Arena) (fuel id : Nat) :
    (a.lineageWithin fuel id).head? = some id := by
  cases fuel with
  | zero => rfl
  | succ fuel =>
      unfold lineageWithin
      split <;> rfl

/-- A lineage starts with the node itself. -/
theorem head?_lineage (a : Arena) (id : Nat) : (a.lineage id).head? = some id :=
  a.head?_lineageWithin a.size id

end Calculator.Arena
