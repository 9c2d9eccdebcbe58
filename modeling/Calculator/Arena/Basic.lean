/-
Arenas: nodes that refer to each other by number.

An arena keeps its nodes in the order in which they were made and never gives one up.
A new node hangs nowhere.  It is then hung below another, or put in the place of
another, which it takes as a child; both only change a few numbers.

Reading past the end gives a default node.  No number that an arena hands out is past
its end, so this is only to keep `node` total.
-/
import Calculator.Arena.Node

namespace Calculator

/-- Nodes in the order in which they were made. -/
structure Arena where
  nodes : Array Node
  deriving DecidableEq, Inhabited

namespace Arena

/-! ### Reading and changing one node -/

/-- The arena without nodes. -/
def empty : Arena :=
  ⟨#[]⟩

/-- How many nodes there are.  It is also the number of the next one. -/
def size (a : Arena) : Nat :=
  a.nodes.size

/-- The node with a number. -/
def node (a : Arena) (id : Nat) : Node :=
  a.nodes.getD id default

/-- Change the node with a number. -/
def update (a : Arena) (id : Nat) (change : Node → Node) : Arena :=
  ⟨a.nodes.modify id change⟩

/-! ### Making nodes and hanging them -/

/-- Add a node that hangs nowhere yet.  Its number is the size before. -/
def push (a : Arena) (value : String) (kind : Kind) : Arena :=
  ⟨a.nodes.push { value, kind }⟩

/-- Hang `child` below `parent`, as its last child. -/
def addChild (a : Arena) (parent child : Nat) : Arena :=
  (a.update child ({ · with parent := some parent })).update parent
    (fun node => { node with children := node.children ++ [child] })

/-- Put `node` in the place of `below`, and hang `below` from it. -/
def insertAbove (a : Arena) (below node : Nat) : Arena :=
  match (a.node below).parent with
  | none => a.addChild node below
  | some parent =>
      let slotted := a.update parent (fun p => { p with children := p.children.replace below node })
      (slotted.update node ({ · with parent := some parent })).addChild node below

/-- Close the open group `id`: from now on it is a finished pair of parentheses. -/
def close (a : Arena) (id : Nat) : Arena :=
  a.update id (fun node => { node with value := node.value ++ ")", kind := .closedGroup })

/-- Make a node and hang it below `parent`, as its last child. -/
def pushBelow (a : Arena) (parent : Nat) (value : String) (kind : Kind) : Arena :=
  (a.push value kind).addChild parent a.size

/-- Make a node and put it in the place of `below`, which then hangs from it. -/
def pushAbove (a : Arena) (below : Nat) (value : String) (kind : Kind) : Arena :=
  (a.push value kind).insertAbove below a.size

end Arena

end Calculator
