/-
Drawing a tree.

Every node has a line of its own, and the lines stand in preorder.  A line starts with
the strokes that lead to its node: a vertical stroke below every ancestor that has
siblings still to come, then the corner from which the node itself hangs.
-/
import Calculator.Tree.Basic

namespace Calculator

/-- The strokes drawn for a node: the corner from which it hangs, and what stands below
that corner, in front of everything that hangs from the node. -/
structure Strokes where
  corner : String
  below : String
  deriving DecidableEq, Inhabited

/-- The strokes of a node that has siblings still to come. -/
def Strokes.inner : Strokes := ⟨"├──", "│  "⟩

/-- The strokes of a last child. -/
def Strokes.last : Strokes := ⟨"└──", "   "⟩

namespace Tree

mutual

/-- The lines of a tree that hangs from the column where `margin` ends. -/
def branch (margin : String) (strokes : Strokes) : Tree → List String
  | node value _ children =>
      (margin ++ strokes.corner ++ value) :: branches (margin ++ strokes.below) children

/-- The lines of neighbouring trees that hang from the column where `margin` ends. -/
def branches (margin : String) : List Tree → List String
  | [] => []
  | [t] => t.branch margin .last
  | t :: next :: rest => t.branch margin .inner ++ branches margin (next :: rest)

end

/-- The lines of a drawing. -/
def lines : Tree → List String
  | node value _ children => value :: branches "" children

/-- The drawing of a tree: its lines with a line break between any two. -/
def draw (t : Tree) : String :=
  String.ofList (['\n'].intercalate (t.lines.map String.toList))

end Tree

end Calculator
