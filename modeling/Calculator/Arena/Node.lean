/-
The nodes of an expression.

A node is a token with its place in a tree.  Nodes are numbered, and a node refers to
its neighbours by their numbers, downwards to its children and upwards to its parent,
so hanging a subtree somewhere else only changes a few numbers.
-/
import Calculator.Token.Kind

namespace Calculator

/-- A token placed in a tree. -/
structure Node where
  /-- The text of the token. -/
  value : String
  kind : Kind
  /-- The numbers of its operands or arguments, from left to right. -/
  children : List Nat := []
  /-- The number of the node it hangs from; none for the top of a tree. -/
  parent : Option Nat := none
  deriving DecidableEq, Inhabited

end Calculator
