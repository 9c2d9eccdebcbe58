/-
Expressions.

An expression is an arena with the node at the top of its tree.  Two expressions are
equal only if their arenas are: the same nodes made in the same order.  That is finer
than having the same tree, because a group that was opened by its own parenthesis was
made before its content, and one that had to be opened around its content after it.
-/
import Calculator.Draft.Basic
import Calculator.Token.Run
import Calculator.Tree.Drawing
import Calculator.Tree.Evaluation

namespace Calculator

/-- An expression that was read completely. -/
structure Expression where
  arena : Arena
  root : Nat
  deriving DecidableEq, Inhabited

/-- The expression that a draft has become when there are no more tokens.  Groups
that are still open stay open. -/
def Draft.finish (d : Draft) : Expression :=
  ⟨d.arena, d.arena.top d.cursor⟩

namespace Expression

/-! ### Reading -/

/-- The expression made of the tokens. -/
def ofTokens (tokens : List String) : Except Error Expression := do
  let d ← Draft.ofTokens tokens
  return d.finish

/-- The expression written in a text. -/
def parse (text : String) : Except Error Expression :=
  ofTokens (tokenize text)

/-! ### Views -/

/-- The tree of an expression. -/
def tree (e : Expression) : Tree :=
  e.arena.unfold e.root

/-- The drawing of an expression. -/
def draw (e : Expression) : String :=
  e.tree.draw

/-- The value of an expression in an arithmetic. -/
def evaluateIn {α : Type} (m : Arithmetic α) (e : Expression) : Except Error α :=
  e.tree.evaluate m

/-- The value of an expression, as a double. -/
def evaluate (e : Expression) : Except Error Float :=
  (e.evaluateIn .words).map Arithmetic.words.toFloat

/-- The nodes of an expression in preorder, renumbered from zero in that order. -/
def preorderNodes (e : Expression) : List Node :=
  let order := e.arena.preorder e.root
  order.map fun id =>
    let node := e.arena.node id
    { node with
      children := node.children.map (order.idxOf ·)
      parent := node.parent.map (order.idxOf ·) }

end Expression

/-- The value in an arithmetic of the expression written in a text. -/
def calculateIn {α : Type} (m : Arithmetic α) (text : String) : Except Error α := do
  let e ← Expression.parse text
  e.evaluateIn m

/-- The value of the expression written in a text, as a double. -/
def calculate (text : String) : Except Error Float :=
  (calculateIn .words text).map Arithmetic.words.toFloat

end Calculator
