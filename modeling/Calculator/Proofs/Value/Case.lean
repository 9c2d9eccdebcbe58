/-
The case of ASCII letters in an expression.

Nothing that is done with a token looks at the case of its letters: its kind does not depend
on it, and a function is found by its name in lowercase.  So making all texts of a tree under
construction small commutes with placing a token, and making those of a finished tree small
commutes with evaluating and with drawing it.  What was read, the value and the drawing of a
lowercase text are those of the text itself, in lowercase, and so is the error if there is one.
-/
import Calculator.Expression
import Calculator.Proofs.Spine.Reading
import Calculator.Proofs.Text.Case
import Calculator.Proofs.Value.Calls

namespace Calculator

/-! ### Errors -/

/-- The defect with its text in lowercase. -/
def Defect.lowercase : Defect → Defect
  | notANumber literal => notANumber (Calculator.lowercase literal)
  | operands symbol count => operands (Calculator.lowercase symbol) count
  | values count => values count
  | noArguments word => noArguments (Calculator.lowercase word)
  | unexpected token => unexpected (Calculator.lowercase token)

/-- The error with its texts in lowercase.  It stays of the same kind. -/
def Error.lowercase : Error → Error
  | emptyExpression => emptyExpression
  | invalidToken token => invalidToken (Calculator.lowercase token)
  | invalidSequence previous token =>
      invalidSequence (Calculator.lowercase previous) (Calculator.lowercase token)
  | unrecognizedFunction name arity => unrecognizedFunction (Calculator.lowercase name) arity
  | malformed defect => malformed defect.lowercase

/-- A number in decimal digits has no case. -/
theorem lowercase_toString (n : Nat) : lowercase (toString n) = toString n := by
  rw [Nat.toString_eq_ofList_toDigits, lowercase, String.toList_ofList]
  refine congrArg String.ofList ((List.map_congr_left fun c hc => ?_).trans (List.map_id _))
  have hdigit := Nat.isDigit_of_mem_toDigits (by decide) (by decide) hc
  exact toLower_of_isNumberPart (isNumberPart_of_isDigit hdigit)

theorem quoted_lowercase (text : String) : quoted (lowercase text) = lowercase (quoted text) := by
  simp (disch := decide) only [quoted, lowercase_append, lowercase_eq_self]

theorem Defect.message_lowercase (d : Defect) :
    d.lowercase.message = Calculator.lowercase d.message := by
  cases d <;>
    simp (disch := decide) only [lowercase, message, lowercase_append, lowercase_eq_self,
      lowercase_toString, quoted_lowercase]

/-- **An error in lowercase is worded in lowercase.** -/
theorem Error.message_lowercase (e : Error) :
    e.lowercase.message = Calculator.lowercase e.message := by
  cases e with
  | emptyExpression => rfl
  | invalidToken token =>
      show "invalid token: " ++ quoted (Calculator.lowercase token) =
        Calculator.lowercase ("invalid token: " ++ quoted token)
      simp (disch := decide) only [lowercase_append, lowercase_eq_self, quoted_lowercase]
  | invalidSequence previous token =>
      show "invalid tokens together: " ++ quoted (Calculator.lowercase previous) ++ " and " ++
          quoted (Calculator.lowercase token) =
        Calculator.lowercase
          ("invalid tokens together: " ++ quoted previous ++ " and " ++ quoted token)
      simp (disch := decide) only [lowercase_append, lowercase_eq_self, quoted_lowercase]
  | unrecognizedFunction name arity =>
      show "function not recognized: " ++ quoted (Calculator.lowercase name) ++ " with " ++
          toString arity ++ " argument(s)" =
        Calculator.lowercase
          ("function not recognized: " ++ quoted name ++ " with " ++ toString arity ++
            " argument(s)")
      simp (disch := decide) only [lowercase_append, lowercase_eq_self, lowercase_toString,
        quoted_lowercase]
  | malformed defect =>
      show "malformed tree: " ++ defect.lowercase.message =
        Calculator.lowercase ("malformed tree: " ++ defect.message)
      simp (disch := decide) only [lowercase_append, lowercase_eq_self, Defect.message_lowercase]

theorem mapError_bind {ε ε' α β : Type} (g : ε → ε') (result : Except ε α)
    (next : α → Except ε β) : (result >>= next).mapError g =
      result.mapError g >>= fun x => (next x).mapError g := by
  cases result <;> rfl

/-! ### Trees -/

/-- A function is found by its name whatever the case, and an unknown name is reported in
lowercase. -/
theorem call_lowercase {α : Type} (m : Arithmetic α) (name : String) (arguments : List α) :
    (m.call (lowercase name) arguments).value =
      (m.call name arguments).value.mapError Error.lowercase := by
  simp only [Arithmetic.call, lowercase_lowercase]
  cases Aggregate.ofName? (lowercase name) with
  | some g => rfl
  | none =>
      have hunknown : Error.lowercase (.unrecognizedFunction (lowercase name) arguments.length) =
          .unrecognizedFunction (lowercase name) arguments.length := by
        rw [Error.lowercase, lowercase_lowercase]
      match Unary.ofName? (lowercase name), arguments with
      | some f, [x] => rfl
      | some f, [] | some f, _ :: _ :: _ | none, _ => exact congrArg Except.error hunknown.symm

namespace Tree

mutual

/-- The tree with all its texts in lowercase. -/
def lowercase : Tree → Tree
  | node value kind children => node (Calculator.lowercase value) kind (lowercaseAll children)

/-- Neighbouring trees with all their texts in lowercase. -/
def lowercaseAll : List Tree → List Tree
  | [] => []
  | t :: rest => t.lowercase :: lowercaseAll rest

end

theorem lowercaseAll_eq_map (ts : List Tree) : lowercaseAll ts = ts.map lowercase := by
  induction ts with
  | nil => rfl
  | cons t rest ih => rw [lowercaseAll, List.map_cons, ih]

@[simp] theorem length_lowercaseAll (ts : List Tree) : (lowercaseAll ts).length = ts.length := by
  rw [lowercaseAll_eq_map, List.length_map]

section Value

variable {α : Type} (m : Arithmetic α)

mutual

/-- The case of the letters does not matter to a value. -/
theorem evaluate_lowercase :
    ∀ t : Tree, t.lowercase.evaluate m = (t.evaluate m).mapError Error.lowercase
  | node value .number children => by
      rw [lowercase, evaluate_number, evaluate_number, toList_lowercase,
        Decimal.ofLiteral?_lowercase]
      cases Decimal.ofLiteral? value.toList <;> rfl
  | node value (.operator op) children => by
      match children with
      | [] => cases op <;> rfl
      | [operand] =>
        cases op with
        | minus =>
            rw [lowercase, lowercaseAll, lowercaseAll, evaluate_negative, evaluate_negative,
              evaluate_lowercase operand, mapError_bind]
            rfl
        | plus | times | divide | power => rfl
      | [left, right] =>
        rw [lowercase, lowercaseAll, lowercaseAll, lowercaseAll, evaluate_binary, evaluate_binary,
          evaluate_lowercase left, evaluate_lowercase right]
        simp only [mapError_bind]
        rfl
      | first :: second :: third :: rest =>
        simp [lowercase, lowercaseAll, evaluate, Except.mapError, Error.lowercase, Defect.lowercase]
  | node value .openGroup children | node value .closedGroup children => by
      match children with
      | [] => rfl
      | [inner] =>
        rw [lowercase, lowercaseAll, lowercaseAll, evaluate_single rfl, evaluate_single rfl,
          evaluate_lowercase inner]
      | first :: second :: rest =>
        simp [lowercase, lowercaseAll, evaluate, Except.mapError, Error.lowercase, Defect.lowercase]
  | node value .word children => by
      match children with
      | [] => rfl
      | [node text kind arguments] =>
        rw [lowercase, lowercaseAll, lowercaseAll, lowercase, evaluate_call, evaluate_call,
          evaluateAll_lowercase arguments]
        cases hgroup : kind.isGroup with
        | true =>
            simp only [↓reduceIte, mapError_bind, call_lowercase]
        | false => rfl
      | node _ _ _ :: second :: rest => rfl
  | node value .closer children | node value .comma children => rfl

theorem evaluateAll_lowercase : ∀ ts : List Tree,
    evaluateAll m (lowercaseAll ts) = (evaluateAll m ts).mapError Error.lowercase
  | [] => rfl
  | t :: rest => by
      rw [lowercaseAll, evaluateAll_cons, evaluateAll_cons, evaluate_lowercase t,
        evaluateAll_lowercase rest]
      simp only [mapError_bind]
      rfl

end

end Value

/-! ### Drawings -/

mutual

/-- Strokes are no letters, so only the texts of a drawing change. -/
theorem branch_lowercase {margin : String} (hmargin : Calculator.lowercase margin = margin)
    {strokes : Strokes} (hcorner : Calculator.lowercase strokes.corner = strokes.corner)
    (hbelow : Calculator.lowercase strokes.below = strokes.below) : ∀ t : Tree,
    t.lowercase.branch margin strokes = (t.branch margin strokes).map Calculator.lowercase
  | node value kind children => by
      have hdeeper : Calculator.lowercase (margin ++ strokes.below) = margin ++ strokes.below := by
        rw [lowercase_append, hmargin, hbelow]
      rw [lowercase, branch, branch, branches_lowercase hdeeper children, List.map_cons,
        lowercase_append, lowercase_append, hmargin, hcorner]

theorem branches_lowercase {margin : String} (hmargin : Calculator.lowercase margin = margin) :
    ∀ ts : List Tree, branches margin (lowercaseAll ts) =
      (branches margin ts).map Calculator.lowercase
  | [] => rfl
  | [t] => by
      have hcorner : Calculator.lowercase Strokes.last.corner = Strokes.last.corner := by decide
      have hbelow : Calculator.lowercase Strokes.last.below = Strokes.last.below := by decide
      exact branch_lowercase hmargin hcorner hbelow t
  | t :: next :: rest => by
      have hcorner : Calculator.lowercase Strokes.inner.corner = Strokes.inner.corner := by decide
      have hbelow : Calculator.lowercase Strokes.inner.below = Strokes.inner.below := by decide
      have hfirst := branch_lowercase hmargin hcorner hbelow t
      have hrest := branches_lowercase hmargin (next :: rest)
      rw [lowercaseAll, lowercaseAll, branches, branches, List.map_append, hfirst, ← hrest]
      rfl

end

theorem lines_lowercase (t : Tree) : t.lowercase.lines = t.lines.map Calculator.lowercase := by
  obtain ⟨value, kind, children⟩ := t
  rw [lowercase, lines, lines, branches_lowercase (by decide), List.map_cons]

theorem map_intercalate {α β : Type} (f : α → β) (sep : List α) (parts : List (List α)) :
    (sep.intercalate parts).map f = (sep.map f).intercalate (parts.map (List.map f)) := by
  induction parts with
  | nil => rfl
  | cons part rest ih =>
      cases rest with
      | nil => simp
      | cons next rest =>
          rw [List.intercalate_cons_cons, List.map_append, List.map_append, ih, List.map_cons,
            List.map_cons, List.map_cons, List.intercalate_cons_cons]

/-- **The drawing of the tree in lowercase is the drawing in lowercase.** -/
theorem draw_lowercase (t : Tree) : t.lowercase.draw = Calculator.lowercase t.draw := by
  have hparts : (t.lines.map Calculator.lowercase).map String.toList =
      (t.lines.map String.toList).map (List.map Char.toLower) := by
    rw [List.map_map, List.map_map]
    exact List.map_congr_left fun line _ => toList_lowercase line
  rw [draw, draw, Calculator.lowercase, String.toList_ofList, map_intercalate, lines_lowercase,
    hparts]
  rfl

end Tree

/-! ### Frames and spines -/

/-- The frame with all its texts in lowercase. -/
def Frame.lowercase (f : Frame) : Frame :=
  ⟨Calculator.lowercase f.value, f.kind, Tree.lowercaseAll f.children⟩

namespace Frame

@[simp] theorem kind_lowercase (f : Frame) : f.lowercase.kind = f.kind := rfl

@[simp] theorem tree_lowercase (f : Frame) : f.lowercase.tree = f.tree.lowercase := rfl

@[simp] theorem take_lowercase (f : Frame) (t : Tree) :
    f.lowercase.take t.lowercase = (f.take t).lowercase := by
  simp [lowercase, take, Tree.lowercaseAll_eq_map]

@[simp] theorem closed_lowercase (f : Frame) : f.lowercase.closed = f.closed.lowercase := by
  simp (disch := decide) only [lowercase, closed, lowercase_append, lowercase_eq_self]

end Frame

namespace Spine

/-- The spine with all its texts in lowercase. -/
def lowercase (s : Spine) : Spine :=
  ⟨s.current.lowercase, s.above.map Frame.lowercase⟩

theorem fold_lowercase (f : Frame) (above : List Frame) :
    fold f.lowercase (above.map Frame.lowercase) = (fold f above).lowercase := by
  induction above generalizing f with
  | nil => rfl
  | cons g above ih =>
      rw [List.map_cons, fold, fold, Frame.tree_lowercase, Frame.take_lowercase, ih]

theorem tree_lowercase (s : Spine) : s.lowercase.tree = s.tree.lowercase :=
  fold_lowercase s.current s.above

theorem climb_lowercase (precedence : Nat) (f : Frame) (above : List Frame) :
    climb precedence f.lowercase (above.map Frame.lowercase) =
      (climb precedence f above).lowercase := by
  induction above generalizing f with
  | nil => rfl
  | cons g above ih =>
      rw [List.map_cons, climb, climb, Frame.kind_lowercase, Frame.tree_lowercase,
        Frame.take_lowercase, ih]
      split <;> rfl

theorem wholeCall_lowercase (s : Spine) : s.lowercase.wholeCall = s.wholeCall.lowercase := by
  obtain ⟨f, above⟩ := s
  cases above with
  | nil => rfl
  | cons g above =>
      show wholeCall ⟨f.lowercase, g.lowercase :: above.map Frame.lowercase⟩ =
        (wholeCall ⟨f, g :: above⟩).lowercase
      rw [wholeCall, wholeCall, Frame.kind_lowercase, Frame.kind_lowercase, Frame.tree_lowercase,
        Frame.take_lowercase]
      split <;> rfl

theorem enclosing_lowercase (f : Frame) (above : List Frame) :
    enclosing f.lowercase (above.map Frame.lowercase) = (enclosing f above).lowercase := by
  induction above generalizing f with
  | nil =>
      have hparen : Calculator.lowercase "(" = "(" := lowercase_eq_self (by decide)
      have hopened : Frame.lowercase ⟨"(", .openGroup, [f.tree]⟩ =
          ⟨"(", .openGroup, [f.lowercase.tree]⟩ := by
        rw [Frame.lowercase, hparen]
        rfl
      rw [List.map_nil, enclosing, enclosing, Frame.kind_lowercase, ← hopened]
      split <;> rfl
  | cons g above ih =>
      rw [List.map_cons, enclosing, enclosing, Frame.kind_lowercase, Frame.tree_lowercase,
        Frame.take_lowercase, ih]
      split <;> rfl

theorem operate_lowercase (s : Spine) (symbol : String) (op : Operator) :
    s.lowercase.operate (Calculator.lowercase symbol) op = (s.operate symbol op).lowercase := rfl

/-- **Placing a token commutes with making all texts small.** -/
theorem place_lowercase (s : Spine) (token : String) (kind : Kind) (placement : Placement) :
    s.lowercase.place (Calculator.lowercase token) kind placement =
      (s.place token kind placement).lowercase := by
  cases placement with
  | rightOf op =>
      have hoperand : s.lowercase.leftOperand op = (s.leftOperand op).lowercase := by
        rw [leftOperand, leftOperand, ← wholeCall_lowercase, ← climb_lowercase]
        rfl
      show (s.lowercase.leftOperand op).operate (Calculator.lowercase token) op =
        ((s.leftOperand op).operate token op).lowercase
      rw [hoperand, operate_lowercase]
  | below => rfl
  | factor =>
      have htimes : Calculator.lowercase Operator.times.symbol = Operator.times.symbol :=
        lowercase_eq_self (by decide)
      have hoperate := s.operate_lowercase Operator.times.symbol .times
      rw [htimes] at hoperate
      show (s.lowercase.operate Operator.times.symbol .times).hang (Calculator.lowercase token) kind =
        ((s.operate Operator.times.symbol .times).hang token kind).lowercase
      rw [hoperate]
      rfl
  | close =>
      have henclose : s.lowercase.enclose = s.enclose.lowercase :=
        enclosing_lowercase s.current s.above
      show close s.lowercase = s.close.lowercase
      rw [close, henclose]
      show (⟨s.enclose.current.lowercase.closed, _⟩ : Spine) = _
      rw [Frame.closed_lowercase]
      rfl
  | separate => exact enclosing_lowercase s.current s.above

/-- The error of a step, or the spine it leads to, in lowercase. -/
theorem step_lowercase (s : Spine) (token : String) :
    s.lowercase.step (Calculator.lowercase token) =
      ((s.step token).map lowercase).mapError Error.lowercase := by
  have hkind : s.lowercase.current.kind = s.current.kind := rfl
  rw [step, step, Kind.classify, Kind.classify, Kind.of?_lowercase, hkind]
  cases Kind.of? token with
  | none => rfl
  | some kind =>
      simp only [bind, Except.bind]
      cases hplace : Placement.of? s.current.kind kind with
      | none => rfl
      | some placement => exact congrArg Except.ok (s.place_lowercase token kind placement)

theorem start_lowercase (token : String) : start (Calculator.lowercase token) =
    ((start token).map lowercase).mapError Error.lowercase := by
  rw [start, start, Kind.classify, Kind.classify, Kind.of?_lowercase]
  cases Kind.of? token <;> rfl

theorem foldlM_lowercase (tokens : List String) (s : Spine) :
    (tokens.map Calculator.lowercase).foldlM step s.lowercase =
      ((tokens.foldlM step s).map lowercase).mapError Error.lowercase := by
  induction tokens generalizing s with
  | nil => rfl
  | cons token rest ih =>
      rw [List.map_cons, List.foldlM_cons, List.foldlM_cons, step_lowercase]
      cases s.step token with
      | error e => rfl
      | ok next => exact ih next

/-- **Reading tokens in lowercase** gives the spine or the error in lowercase. -/
theorem ofTokens_lowercase (tokens : List String) :
    ofTokens (tokens.map Calculator.lowercase) =
      ((ofTokens tokens).map lowercase).mapError Error.lowercase := by
  cases tokens with
  | nil => rfl
  | cons token rest =>
      rw [List.map_cons, ofTokens, ofTokens, start_lowercase]
      cases start token with
      | error e => rfl
      | ok s => exact foldlM_lowercase rest s

end Spine

/-! ### Expressions -/

/-- The tree that is read from tokens in lowercase is the tree in lowercase. -/
theorem Expression.map_tree_lowercase (tokens : List String) :
    (ofTokens (tokens.map lowercase)).map tree =
      (((ofTokens tokens).map tree).map Tree.lowercase).mapError Error.lowercase := by
  rw [map_tree_ofTokens, map_tree_ofTokens, Spine.ofTokens_lowercase]
  cases Spine.ofTokens tokens with
  | error e => rfl
  | ok s => exact congrArg Except.ok s.tree_lowercase

/-- **The case of ASCII letters does not matter.**  A text in lowercase has the value that
the text has, or an error of the same kind, worded as in lowercase; and the drawing of what
is read from it is the drawing in lowercase. -/
theorem calculate_lowercase {α : Type} (m : Arithmetic α) (text : String) :
    calculateIn m (lowercase text) = (calculateIn m text).mapError Error.lowercase ∧
    (Expression.parse (lowercase text)).map Expression.draw =
      (((Expression.parse text).map Expression.draw).map lowercase).mapError Error.lowercase ∧
    ∀ e : Error, e.lowercase.message = lowercase e.message := by
  have htree := Expression.map_tree_lowercase (tokenize text)
  rw [← tokenize_lowercase] at htree
  show (Expression.ofTokens _ >>= Expression.evaluateIn m) =
      (Expression.ofTokens _ >>= Expression.evaluateIn m).mapError Error.lowercase ∧
    (Expression.ofTokens _).map Expression.draw =
      (((Expression.ofTokens _).map Expression.draw).map lowercase).mapError Error.lowercase ∧ _
  generalize Expression.ofTokens (tokenize text) = result at htree ⊢
  generalize Expression.ofTokens (tokenize (lowercase text)) = lowered at htree ⊢
  match result, lowered with
  | .error e, .error f =>
      obtain rfl : f = e.lowercase := Except.error.inj htree
      exact ⟨rfl, rfl, Error.message_lowercase⟩
  | .ok e, .ok f =>
      have htree : f.tree = e.tree.lowercase := Except.ok.inj htree
      refine ⟨?_, ?_, Error.message_lowercase⟩
      · show f.tree.evaluate m = (e.tree.evaluate m).mapError Error.lowercase
        rw [htree, Tree.evaluate_lowercase]
      · show Except.ok f.tree.draw = Except.ok (lowercase e.tree.draw)
        rw [htree, Tree.draw_lowercase]
  | .error _, .ok _ | .ok _, .error _ => cases htree

end Calculator
