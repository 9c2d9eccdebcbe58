/-
Spines: a tree laid open along the path to the cursor.

A draft touches its tree only on the path from the cursor to the top, and the cursor
sits at the right edge of the tree: on that path every node is the last child of the
one above.  So a tree under construction is a list of frames, the innermost first,
where a frame is a node with the children that are already complete; the child that
is still growing is the frame before it.

Reading tokens is said here once more, with frames in place of numbered nodes.
`Proofs/Spine/Reading.lean` shows that the two agree, and everything that is proved
about trees and errors afterwards looks at spines alone.
-/
import Mathlib.Data.List.Induction
import Calculator.Draft.Basic
import Calculator.Tree.Basic

namespace Calculator

/-! ### Frames -/

/-- A node with its complete children. -/
structure Frame where
  value : String
  kind : Kind
  children : List Tree := []

namespace Frame

/-- The tree of a frame that gets no more children. -/
def tree (f : Frame) : Tree :=
  .node f.value f.kind f.children

/-- The frame with one more child. -/
def take (f : Frame) (t : Tree) : Frame :=
  { f with children := f.children ++ [t] }

/-- The frame as a finished pair of parentheses. -/
def closed (f : Frame) : Frame :=
  { f with value := f.value ++ ")", kind := .closedGroup }

@[simp] theorem value_take (f : Frame) (t : Tree) : (f.take t).value = f.value := rfl

@[simp] theorem kind_take (f : Frame) (t : Tree) : (f.take t).kind = f.kind := rfl

@[simp] theorem children_take (f : Frame) (t : Tree) :
    (f.take t).children = f.children ++ [t] := rfl

end Frame

/-! ### Spines and what is done to them -/

/-- The frame the cursor is on, and the frames above it from the inside out. -/
structure Spine where
  current : Frame
  above : List Frame := []

namespace Spine

/-- Complete every frame; what results is the whole tree. -/
def fold : Frame → List Frame → Tree
  | f, [] => f.tree
  | f, g :: above => fold (g.take f.tree) above

/-- The whole tree, as it is when no more tokens come. -/
def tree (s : Spine) : Tree :=
  fold s.current s.above

/-- Walk up as long as the frame above binds at least as tightly as `precedence`. -/
def climb (precedence : Nat) : Frame → List Frame → Spine
  | f, [] => ⟨f, []⟩
  | f, g :: above =>
      if precedence ≤ g.kind.precedence then climb precedence (g.take f.tree) above
      else ⟨f, g :: above⟩

/-- Step from a finished argument list to the call it belongs to. -/
def wholeCall : Spine → Spine
  | ⟨f, g :: above⟩ =>
      if f.kind = .closedGroup ∧ g.kind = .word then ⟨g.take f.tree, above⟩ else ⟨f, g :: above⟩
  | s => s

/-- Walk up to the left operand that an operator finds in front of it. -/
def leftOperand (s : Spine) (op : Operator) : Spine :=
  (climb op.precedence s.current s.above).wholeCall

/-- Put an operator in the place of the current frame, which becomes its left operand. -/
def operate (s : Spine) (value : String) (op : Operator) : Spine :=
  ⟨⟨value, .operator op, [s.current.tree]⟩, s.above⟩

/-- Hang a token from the current frame. -/
def hang (s : Spine) (value : String) (kind : Kind) : Spine :=
  ⟨⟨value, kind, []⟩, s.current :: s.above⟩

/-- Multiply the current frame with a token. -/
def multiply (s : Spine) (value : String) (kind : Kind) : Spine :=
  (s.operate Operator.times.symbol .times).hang value kind

/-- Walk up to the innermost open group; at the top, open one around everything. -/
def enclosing : Frame → List Frame → Spine
  | f, [] => if f.kind = .openGroup then ⟨f, []⟩ else ⟨⟨"(", .openGroup, [f.tree]⟩, []⟩
  | f, g :: above =>
      if f.kind = .openGroup then ⟨f, g :: above⟩ else enclosing (g.take f.tree) above

/-- Move to the innermost open group, opening one around everything where there is none. -/
def enclose (s : Spine) : Spine :=
  enclosing s.current s.above

/-- Close the innermost open group. -/
def close (s : Spine) : Spine :=
  ⟨s.enclose.current.closed, s.enclose.above⟩

/-- Place a token as the table of placements says. -/
def place (s : Spine) (value : String) (kind : Kind) : Placement → Spine
  | .rightOf op => (s.leftOperand op).operate value op
  | .below => s.hang value kind
  | .factor => s.multiply value kind
  | .close => s.close
  | .separate => s.enclose

/-! ### Reading tokens -/

/-- Start with the first token. -/
def start (token : String) : Except Error Spine := do
  let kind ← Kind.classify token
  return ⟨⟨token, kind, []⟩, []⟩

/-- Add a token. -/
def step (s : Spine) (token : String) : Except Error Spine := do
  let kind ← Kind.classify token
  match Placement.of? s.current.kind kind with
  | some placement => return s.place token kind placement
  | none => throw (.invalidSequence s.current.value token)

/-- The spine of all the tokens, or the error of the first one that does not fit. -/
def ofTokens : List String → Except Error Spine
  | [] => throw .emptyExpression
  | token :: rest => do
      let s ← start token
      rest.foldlM step s

/-! ### What a step can do -/

/-- A token that is added has a kind, and the table of placements says where it goes. -/
theorem step_eq_ok_iff {s next : Spine} {token : String} :
    s.step token = .ok next ↔ ∃ kind placement, Kind.of? token = some kind ∧
      Placement.of? s.current.kind kind = some placement ∧
      next = s.place token kind placement := by
  unfold step Kind.classify
  cases hkind : Kind.of? token with
  | none => simp [bind, Except.bind]
  | some kind =>
      cases hplace : Placement.of? s.current.kind kind with
      | none => simp [bind, Except.bind, hplace, throw, throwThe, MonadExceptOf.throw]
      | some placement =>
          simp [bind, Except.bind, hplace, pure, Except.pure, eq_comm]

/-- The first token of all only has to have a kind. -/
theorem start_eq_ok_iff {s : Spine} {token : String} :
    start token = .ok s ↔ ∃ kind, Kind.of? token = some kind ∧ s = ⟨⟨token, kind, []⟩, []⟩ := by
  unfold start Kind.classify
  cases hkind : Kind.of? token <;>
    simp [bind, Except.bind, pure, Except.pure, eq_comm]

theorem ofTokens_ne_nil {tokens : List String} {s : Spine} (h : ofTokens tokens = .ok s) :
    tokens ≠ [] := by
  intro hsame
  subst hsame
  cases h

/-- Reading one token more is reading the others and then adding it. -/
theorem ofTokens_concat {tokens : List String} (h : tokens ≠ []) (token : String) :
    ofTokens (tokens ++ [token]) = (ofTokens tokens).bind (step · token) := by
  obtain ⟨first, rest, rfl⟩ := List.exists_cons_of_ne_nil h
  show (start first >>= fun s => (rest ++ [token]).foldlM step s) =
    (start first >>= fun s => rest.foldlM step s).bind (step · token)
  cases start first with
  | error e => rfl
  | ok s =>
      show (rest ++ [token]).foldlM step s = (rest.foldlM step s).bind (step · token)
      rw [List.foldlM_append]
      simp only [List.foldlM_cons, List.foldlM_nil, bind_pure]
      rfl

/-- **What holds of the first token and is kept by every placement holds of whatever was
read.** -/
theorem ofTokens_induction {P : List String → Spine → Prop}
    (single : ∀ token kind, Kind.of? token = some kind → P [token] ⟨⟨token, kind, []⟩, []⟩)
    (more : ∀ tokens s token kind placement, ofTokens tokens = .ok s → P tokens s →
      Kind.of? token = some kind → Placement.of? s.current.kind kind = some placement →
      P (tokens ++ [token]) (s.place token kind placement)) :
    ∀ tokens s, ofTokens tokens = .ok s → P tokens s := by
  intro tokens
  induction tokens using List.reverseRecOn with
  | nil =>
      intro s h
      cases h
  | append_singleton tokens token ih =>
      intro s h
      by_cases hnil : tokens = []
      · subst hnil
        have hstart : start token = .ok s := by
          rw [← h]
          show start token = start token >>= fun s => pure s
          rw [bind_pure]
        obtain ⟨kind, hkind, rfl⟩ := start_eq_ok_iff.mp hstart
        exact single token kind hkind
      · rw [ofTokens_concat hnil] at h
        cases hprev : ofTokens tokens with
        | error e =>
            rw [hprev] at h
            cases h
        | ok prev =>
            rw [hprev] at h
            obtain ⟨kind, placement, hkind, hplace, rfl⟩ := step_eq_ok_iff.mp h
            exact more tokens prev token kind placement hprev (ih prev hprev) hkind hplace

end Spine

end Calculator
