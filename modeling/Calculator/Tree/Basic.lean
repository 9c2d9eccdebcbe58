/-
Expression trees.

An arena says how nodes are linked; a tree says what the expression is, without the
numbers of nodes.  `Arena.unfold` reads the tree that hangs from a node.  Trees are
what is drawn and what is evaluated.
-/
import Calculator.Arena.Basic

namespace Calculator

/-- A token with its operands or arguments, from left to right. -/
inductive Tree
  | node (value : String) (kind : Kind) (children : List Tree)
  deriving Inhabited

namespace Tree

/-- The text of the token at the top. -/
def value : Tree → String
  | node value _ _ => value

/-- The kind of the token at the top. -/
def kind : Tree → Kind
  | node _ kind _ => kind

/-- The operands or arguments of the token at the top. -/
def children : Tree → List Tree
  | node _ _ children => children

end Tree

namespace Arena

/-- The tree that hangs from a node, down to `fuel` levels below it. -/
def unfoldWithin (a : Arena) : Nat → Nat → Tree
  | 0, id => .node (a.node id).value (a.node id).kind []
  | fuel + 1, id =>
      .node (a.node id).value (a.node id).kind ((a.node id).children.map (a.unfoldWithin fuel))

/-- The tree that hangs from a node.  No branch is longer than the arena is large. -/
def unfold (a : Arena) (id : Nat) : Tree :=
  a.unfoldWithin a.size id

/-- The nodes that hang from a node, down to `fuel` levels below it, each before its
children and the children from left to right. -/
def preorderWithin (a : Arena) : Nat → Nat → List Nat
  | 0, id => [id]
  | fuel + 1, id => id :: (a.node id).children.flatMap (a.preorderWithin fuel)

/-- The node and those that hang from it, each before its children and the children
from left to right. -/
def preorder (a : Arena) (id : Nat) : List Nat :=
  a.preorderWithin a.size id

end Arena

end Calculator
