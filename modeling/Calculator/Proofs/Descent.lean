/-
One cursor does what recursive descent does.

A reader by recursive descent keeps a stack of the calls that are still running, and a
draft has none.  But each running call waits for an operand, and what waits for an
operand is a frame above the cursor: the stack of the reader is the spine of the tree.
A call for operators that bind at least as tightly as `least` runs below a frame of
precedence `least - 1`, whatever the frames further up are, and returns when the climb
of the next operator is about to pass that frame.

`Stands` is what holds when a call returns.  The cursor may be deep inside the operand
that was read, but for everything that can come next (an operator that the call did not
take, a `)`, a `,`, or the end) it might as well stand on the operand itself.
-/
import Calculator.Proofs.Grammar
import Calculator.Proofs.Spine.Reading

namespace Calculator

/-! ### Reading below a frame -/

/-- The top of a tree as a frame. -/
def Tree.frame (t : Tree) : Frame :=
  ⟨t.value, t.kind, t.children⟩

@[simp] theorem Tree.tree_frame (t : Tree) : t.frame.tree = t := by
  cases t
  rfl

@[simp] theorem Frame.kind_tree (f : Frame) : f.tree.kind = f.kind := rfl

namespace Spine

/-- The innermost frame waits for an operand.  No frame waits for the first token. -/
def Awaiting : List Frame → Prop
  | [] => True
  | f :: _ => f.kind.awaits = true

/-- How tightly the innermost frame binds. -/
def floor : List Frame → Nat
  | [] => 0
  | f :: _ => f.kind.precedence

/-- Read tokens where an operand is waited for. -/
def readBelow : List Frame → List String → Except Error Spine
  | [], tokens => ofTokens tokens
  | f :: above, tokens => tokens.foldlM step ⟨f, above⟩

theorem foldlM_cons_of_step {s next : Spine} {token : String} (h : s.step token = .ok next)
    (rest : List String) : (token :: rest).foldlM step s = rest.foldlM step next := by
  rw [List.foldlM_cons, h]
  rfl

/-- Adding a token whose kind and placement are known. -/
theorem step_of_placement {s : Spine} {token : String} {kind : Kind} {placement : Placement}
    (hkind : Kind.of? token = some kind)
    (hplace : Placement.of? s.current.kind kind = some placement) :
    s.step token = .ok (s.place token kind placement) :=
  step_eq_ok_iff.mpr ⟨kind, placement, hkind, hplace, rfl⟩

theorem placement_below {previous incoming : Kind} (hawaits : previous.awaits = true)
    (hbegins : incoming.begins = true) : Placement.of? previous incoming = some .below := by
  cases previous <;> cases incoming <;> simp_all [Kind.awaits, Kind.begins, Placement.of?]
  all_goals
    rename_i op
    cases op <;> simp_all

/-- A token that may start an operand becomes the current frame. -/
theorem readBelow_cons {above : List Frame} (hawaiting : Awaiting above) {token : String}
    {kind : Kind} (hkind : Kind.of? token = some kind) (hbegins : kind.begins = true)
    (rest : List String) :
    readBelow above (token :: rest) = rest.foldlM step ⟨⟨token, kind, []⟩, above⟩ := by
  cases above with
  | nil =>
      show (start token >>= fun s => rest.foldlM step s) = _
      rw [start_eq_ok_iff.mpr ⟨kind, hkind, rfl⟩]
      rfl
  | cons f above =>
      have hplace : Placement.of? f.kind kind = some .below := placement_below hawaiting hbegins
      exact foldlM_cons_of_step (s := ⟨f, above⟩) (step_of_placement hkind hplace) rest

/-- A parenthesis opens a group, and its values are read below that. -/
theorem readBelow_group {above : List Frame} (hawaiting : Awaiting above) (rest : List String) :
    readBelow above ("(" :: rest) = readBelow (⟨"(", .openGroup, []⟩ :: above) rest := by
  have hkind : Kind.of? "(" = some .openGroup := rfl
  rw [readBelow_cons hawaiting hkind rfl]
  rfl

/-- A factor that is multiplied with is read below the multiplication. -/
theorem foldlM_factor {s : Spine} {token : String} {kind : Kind}
    (hkind : Kind.of? token = some kind)
    (hplace : Placement.of? s.current.kind kind = some .factor) (rest : List String) :
    (token :: rest).foldlM step s =
      readBelow (⟨"*", .operator .times, [s.current.tree]⟩ :: s.above) (token :: rest) := by
  have hbegins : kind.begins = true := by
    rcases Placement.of?_eq_factor hplace with ⟨-, rfl | rfl⟩ | ⟨-, rfl⟩ <;> rfl
  rw [readBelow_cons (by exact rfl) hkind hbegins,
    foldlM_cons_of_step (step_of_placement hkind hplace)]
  rfl

/-! ### Where the cursor stands -/

/-- The cursor stands on the operand `t` below the frames `above`, as far as the end of
the tokens, a closing parenthesis, a comma or the next operator of `rest` can tell. -/
structure Stands (s : Spine) (t : Tree) (above : List Frame) (rest : List String) : Prop where
  operand : s.current.kind.isOperand = true
  closed : t.kind ≠ .openGroup
  tree : s.tree = fold t.frame above
  enclose : s.enclose = enclosing t.frame above
  climb : ∀ op ∈ Grammar.operator? rest,
    Spine.climb op.precedence s.current s.above = Spine.climb op.precedence t.frame above

/-- On the operand itself. -/
theorem stands_self {f : Frame} (hoperand : f.kind.isOperand = true) (above : List Frame)
    (rest : List String) : Stands ⟨f, above⟩ f.tree above rest where
  operand := hoperand
  closed := by
    intro hopen
    rw [Frame.kind_tree] at hopen
    rw [hopen] at hoperand
    cases hoperand
  tree := rfl
  enclose := rfl
  climb := fun _ _ => rfl

/-- An operand completes an operator that the next one climbs past. -/
theorem Stands.complete {s : Spine} {t : Tree} {value : String} {op : Operator}
    {children : List Tree} {above : List Frame} {rest : List String}
    (h : Stands s t (⟨value, .operator op, children⟩ :: above) rest)
    (hnext : Grammar.Below (op.precedence + 1) rest) :
    Stands s (.node value (.operator op) (children ++ [t])) above rest where
  operand := h.operand
  closed := Kind.noConfusion
  tree := by
    rw [h.tree, fold, Tree.tree_frame]
    rfl
  enclose := by
    rw [h.enclose, enclosing, if_neg (show t.frame.kind ≠ .openGroup from h.closed),
      Tree.tree_frame]
    rfl
  climb := by
    intro next hop
    have hle : next.precedence ≤ (Kind.operator op).precedence :=
      Nat.le_of_lt_succ (hnext next hop)
    rw [h.climb next hop, Spine.climb]
    simp only [if_pos hle, Tree.tree_frame]
    rfl

/-- An operator that binds more tightly than the frame above takes just the operand. -/
theorem Stands.foldlM_operator {s : Spine} {t : Tree} {above : List Frame} {symbol : String}
    {rest : List String} {op : Operator} (h : Stands s t above (symbol :: rest))
    (hawaiting : Awaiting above) (hop : Operator.ofSymbol? symbol = some op)
    (hfloor : floor above < op.precedence) :
    (symbol :: rest).foldlM step s =
      readBelow (⟨symbol, .operator op, [t]⟩ :: above) rest := by
  have hkind : Kind.of? symbol = some (.operator op) := by
    rw [Operator.ofSymbol?_eq_some_iff.mp hop, Kind.of?_symbol]
  have hplace : Placement.of? s.current.kind (.operator op) = some (.rightOf op) := by
    have hoperand := h.operand
    cases hk : s.current.kind <;> simp_all [Kind.isOperand, Placement.of?]
  have hleft : s.leftOperand op = ⟨t.frame, above⟩ := by
    rw [leftOperand, h.climb op hop]
    cases above with
    | nil => rfl
    | cons f above =>
        have hlt : ¬op.precedence ≤ f.kind.precedence := Nat.not_le.mpr hfloor
        rw [Spine.climb, if_neg hlt, wholeCall, if_neg]
        intro hboth
        obtain ⟨-, hword⟩ := hboth
        rw [Awaiting, hword] at hawaiting
        cases hawaiting
  rw [foldlM_cons_of_step (step_of_placement hkind hplace)]
  show rest.foldlM step ((s.leftOperand op).operate symbol op) = _
  rw [hleft]
  simp [readBelow, operate]

/-- The group around the operand is the innermost open one. -/
theorem Stands.enclose_group {s : Spine} {t : Tree} {value : String} {read : List Tree}
    {above : List Frame} {rest : List String}
    (h : Stands s t (⟨value, .openGroup, read⟩ :: above) rest) :
    s.enclose = ⟨⟨value, .openGroup, read ++ [t]⟩, above⟩ := by
  rw [h.enclose, enclosing, if_neg (show t.frame.kind ≠ .openGroup from h.closed),
    Tree.tree_frame]
  cases above <;> rfl

/-- A `)` closes the group around the operand. -/
theorem Stands.foldlM_close {s : Spine} {t : Tree} {read : List Tree} {above : List Frame}
    {rest : List String}
    (h : Stands s t (⟨"(", .openGroup, read⟩ :: above) (")" :: rest)) :
    (")" :: rest).foldlM step s =
      rest.foldlM step ⟨⟨"()", .closedGroup, read ++ [t]⟩, above⟩ := by
  have hplace := Placement.of?_closer h.operand
  rw [foldlM_cons_of_step (step_of_placement (by rfl) hplace)]
  show rest.foldlM step ⟨s.enclose.current.closed, s.enclose.above⟩ = _
  rw [h.enclose_group]
  rfl

/-- A `,` makes the operand a value of the group around it. -/
theorem Stands.foldlM_separate {s : Spine} {t : Tree} {read : List Tree} {above : List Frame}
    {rest : List String}
    (h : Stands s t (⟨"(", .openGroup, read⟩ :: above) ("," :: rest)) :
    ("," :: rest).foldlM step s =
      readBelow (⟨"(", .openGroup, read ++ [t]⟩ :: above) rest := by
  have hplace := Placement.of?_comma h.operand
  rw [foldlM_cons_of_step (step_of_placement (by rfl) hplace)]
  show rest.foldlM step s.enclose = _
  rw [h.enclose_group]
  rfl

/-! ### What each rule of the grammar does -/

/-- The cursor reads an operand and then stands on it. -/
def OperandRuns (tokens : List String) (t : Tree) (rest : List String) : Prop :=
  ∀ above, Awaiting above →
    ∃ s, readBelow above tokens = rest.foldlM step s ∧ Stands s t above rest

/-- The same below a frame that every operator from `least` on binds more tightly than. -/
def ExpressionRuns (least : Nat) (tokens : List String) (t : Tree) (rest : List String) : Prop :=
  ∀ above, Awaiting above → least = floor above + 1 →
    ∃ s, readBelow above tokens = rest.foldlM step s ∧ Stands s t above rest

/-- From standing on `left` the cursor comes to stand on `t`. -/
def OperatorsRun (least : Nat) (left : Tree) (tokens : List String) (t : Tree)
    (rest : List String) : Prop :=
  ∀ above s, Awaiting above → least = floor above + 1 → Stands s left above tokens →
    ∃ next, tokens.foldlM step s = rest.foldlM step next ∧ Stands next t above rest

/-- The cursor closes a group that got more values. -/
def ArgumentsRun (tokens : List String) (arguments : List Tree) (rest : List String) : Prop :=
  ∀ read above, readBelow (⟨"(", .openGroup, read⟩ :: above) tokens =
    rest.foldlM step ⟨⟨"()", .closedGroup, read ++ arguments⟩, above⟩

/-- The right operand of an operator completes it. -/
theorem ExpressionRuns.complete {op : Operator} {tokens rest : List String} {t : Tree}
    (h : ExpressionRuns (op.precedence + 1) tokens t rest)
    (hbelow : Grammar.Below (op.precedence + 1) rest) (value : String) (children : List Tree)
    (above : List Frame) :
    ∃ s, readBelow (⟨value, .operator op, children⟩ :: above) tokens = rest.foldlM step s ∧
      Stands s (.node value (.operator op) (children ++ [t])) above rest := by
  obtain ⟨s, hread, hstands⟩ := h (⟨value, .operator op, children⟩ :: above) rfl rfl
  exact ⟨s, hread, hstands.complete hbelow⟩

/-- A group with one value is closed after it. -/
theorem ExpressionRuns.close {tokens rest : List String} {t : Tree}
    (h : ExpressionRuns 1 tokens t (")" :: rest)) : ArgumentsRun tokens [t] rest := by
  intro read above
  obtain ⟨s, hread, hstands⟩ := h (⟨"(", .openGroup, read⟩ :: above) rfl rfl
  rw [hread, hstands.foldlM_close]

theorem ExpressionRuns.separate {tokens middle rest : List String} {t : Tree}
    {arguments : List Tree} (value : ExpressionRuns 1 tokens t ("," :: middle))
    (list : ArgumentsRun middle arguments rest) : ArgumentsRun tokens (t :: arguments) rest := by
  intro read above
  obtain ⟨s, hread, hstands⟩ := value (⟨"(", .openGroup, read⟩ :: above) rfl rfl
  rw [hread, hstands.foldlM_separate, list (read ++ [t]) above, List.append_assoc]
  rfl

theorem runs_negative {tokens rest : List String} {t : Tree}
    (operand : ExpressionRuns 2 tokens t rest) (hbelow : Grammar.Below 2 rest) :
    OperandRuns ("-" :: tokens) (.node "-" (.operator .minus) [t]) rest := by
  intro above hawaiting
  have hkind : Kind.of? "-" = some (.operator .minus) := rfl
  have hright : ExpressionRuns (Operator.minus.precedence + 1) tokens t rest := operand
  obtain ⟨s, hread, hstands⟩ := hright.complete hbelow "-" [] above
  refine ⟨s, ?_, hstands⟩
  rw [readBelow_cons hawaiting hkind rfl, ← hread]
  rfl

theorem runs_number {n : String} {rest : List String} (hnumber : Kind.of? n = some .number) :
    OperandRuns (n :: rest) (.node n .number []) rest := by
  intro above hawaiting
  exact ⟨_, readBelow_cons hawaiting hnumber rfl rest, stands_self rfl above rest⟩

theorem runs_group {tokens rest : List String} {t : Tree}
    (value : ExpressionRuns 1 tokens t (")" :: rest)) :
    OperandRuns ("(" :: tokens) (.node "()" .closedGroup [t]) rest := by
  intro above hawaiting
  refine ⟨_, ?_, stands_self (f := ⟨"()", .closedGroup, [t]⟩) rfl above rest⟩
  rw [readBelow_group hawaiting]
  exact value.close [] above

/-- What is multiplied with an operand is read below the multiplication. -/
theorem runs_factor {s : Spine} {token : String} {kind : Kind} {tokens rest : List String}
    {u : Tree} (hkind : Kind.of? token = some kind)
    (hplace : Placement.of? s.current.kind kind = some .factor)
    (factor : ExpressionRuns 3 (token :: tokens) u rest) (hbelow : Grammar.Below 3 rest) :
    ∃ next, (token :: tokens).foldlM step s = rest.foldlM step next ∧
      Stands next (.node "*" (.operator .times) [s.current.tree, u]) s.above rest := by
  rw [foldlM_factor hkind hplace]
  have hright : ExpressionRuns (Operator.times.precedence + 1) (token :: tokens) u rest := factor
  exact hright.complete hbelow "*" [s.current.tree] s.above

theorem runs_numberTimes {n : String} {tokens rest : List String} {t : Tree}
    (hnumber : Kind.of? n = some .number)
    (hnext : Grammar.GroupNext tokens ∨ Grammar.WordNext tokens)
    (factor : ExpressionRuns 3 tokens t rest) (hbelow : Grammar.Below 3 rest) :
    OperandRuns (n :: tokens) (.node "*" (.operator .times) [.node n .number [], t]) rest := by
  intro above hawaiting
  rw [readBelow_cons hawaiting hnumber rfl]
  rcases hnext with hgroup | hword
  · obtain ⟨tokens, rfl⟩ := hgroup.eq_cons
    have hkind : Kind.of? "(" = some .openGroup := rfl
    exact runs_factor (s := ⟨⟨n, .number, []⟩, above⟩) hkind rfl factor hbelow
  · obtain ⟨w, tokens, rfl, hword⟩ := hword.eq_cons
    exact runs_factor (s := ⟨⟨n, .number, []⟩, above⟩) hword rfl factor hbelow

theorem runs_groupTimes {tokens middle rest : List String} {t u : Tree}
    (value : ExpressionRuns 1 tokens t (")" :: middle)) (hnext : Grammar.WordNext middle)
    (factor : ExpressionRuns 3 middle u rest) (hbelow : Grammar.Below 3 rest) :
    OperandRuns ("(" :: tokens)
      (.node "*" (.operator .times) [.node "()" .closedGroup [t], u]) rest := by
  intro above hawaiting
  rw [readBelow_group hawaiting, value.close [] above]
  obtain ⟨w, tokens, rfl, hword⟩ := hnext.eq_cons
  exact runs_factor (s := ⟨⟨"()", .closedGroup, [t]⟩, above⟩) hword rfl factor hbelow

/-- A call is read up to its closing parenthesis, where the cursor stays. -/
theorem readBelow_call {w : String} {tokens rest : List String} {arguments : List Tree}
    {above : List Frame} (hawaiting : Awaiting above) (hword : Kind.of? w = some .word)
    (list : ArgumentsRun tokens arguments rest) :
    readBelow above (w :: "(" :: tokens) =
      rest.foldlM step ⟨⟨"()", .closedGroup, arguments⟩, ⟨w, .word, []⟩ :: above⟩ := by
  rw [readBelow_cons hawaiting hword rfl]
  have hgroup : Kind.of? "(" = some .openGroup := rfl
  have hplace : Placement.of? .word .openGroup = some .below := rfl
  rw [foldlM_cons_of_step (step_of_placement hgroup hplace)]
  exact list [] (⟨w, .word, []⟩ :: above)

theorem runs_call {w : String} {tokens rest : List String} {arguments : List Tree}
    (hword : Kind.of? w = some .word) (list : ArgumentsRun tokens arguments rest)
    (hnext : Grammar.operator? rest = none) :
    OperandRuns (w :: "(" :: tokens) (.node w .word [.node "()" .closedGroup arguments])
      rest := by
  intro above hawaiting
  refine ⟨_, readBelow_call hawaiting hword list, rfl, Kind.noConfusion, rfl, rfl, ?_⟩
  intro op hop
  rw [hnext] at hop
  cases hop

/-- The climb stops below the word, and the operator takes the whole call. -/
theorem foldlM_callOperator {w : String} {arguments : List Tree} (above : List Frame)
    (op : Operator) (rest : List String) :
    (op.symbol :: rest).foldlM step ⟨⟨"()", .closedGroup, arguments⟩, ⟨w, .word, []⟩ :: above⟩ =
      readBelow (⟨op.symbol, .operator op, [.node w .word [.node "()" .closedGroup arguments]]⟩ ::
        above) rest := by
  have hplace : Placement.of? .closedGroup (.operator op) = some (.rightOf op) := rfl
  rw [foldlM_cons_of_step (step_of_placement (Kind.of?_symbol op) hplace)]
  have hleft : leftOperand ⟨⟨"()", .closedGroup, arguments⟩, ⟨w, .word, []⟩ :: above⟩ op =
      ⟨⟨w, .word, [.node "()" .closedGroup arguments]⟩, above⟩ := by
    have hloose : ¬op.precedence ≤ (Kind.word).precedence := Nat.not_le.mpr op.precedence_pos
    rw [leftOperand, climb, if_neg hloose, wholeCall, if_pos ⟨rfl, rfl⟩]
    rfl
  rw [place, hleft]
  rfl

theorem runs_callOperator {w symbol : String} {tokens middle rest : List String}
    {arguments : List Tree} {op : Operator} {t : Tree} (hword : Kind.of? w = some .word)
    (list : ArgumentsRun tokens arguments (symbol :: middle))
    (hop : Operator.ofSymbol? symbol = some op)
    (right : ExpressionRuns (op.precedence + 1) middle t rest)
    (hbelow : Grammar.Below (op.precedence + 1) rest) :
    OperandRuns (w :: "(" :: tokens)
      (.node symbol (.operator op) [.node w .word [.node "()" .closedGroup arguments], t])
      rest := by
  intro above hawaiting
  obtain rfl := Operator.ofSymbol?_eq_some_iff.mp hop
  rw [readBelow_call hawaiting hword list, foldlM_callOperator]
  exact right.complete hbelow op.symbol [.node w .word [.node "()" .closedGroup arguments]] above

theorem runs_more {least : Nat} {left right t : Tree} {symbol : String}
    {tokens middle rest : List String} {op : Operator}
    (hop : Operator.ofSymbol? symbol = some op) (hle : least ≤ op.precedence)
    (operand : ExpressionRuns (op.precedence + 1) tokens right middle)
    (hbelow : Grammar.Below (op.precedence + 1) middle)
    (operators : OperatorsRun least (.node symbol (.operator op) [left, right]) middle t rest) :
    OperatorsRun least left (symbol :: tokens) t rest := by
  intro above s hawaiting hleast hstands
  have hfloor : floor above < op.precedence := by omega
  obtain ⟨s', hread, hstands'⟩ := operand.complete hbelow symbol [left] above
  obtain ⟨next, hread', hnext⟩ := operators above s' hawaiting hleast hstands'
  exact ⟨next, by rw [hstands.foldlM_operator hawaiting hop hfloor, hread, hread'], hnext⟩

end Spine

/-! ### The whole grammar -/

namespace Grammar

open Spine

/-- No operator that binds tightly enough is left over. -/
theorem ReadsOperators.stops {least : Nat} {left t : Tree} {tokens rest : List String} :
    ReadsOperators least left tokens t rest → Below least rest
  | .stop hnext => hnext
  | .more _ _ _ operators => operators.stops

theorem Reads.stops {least : Nat} {tokens rest : List String} {t : Tree} :
    Reads least tokens t rest → Below least rest
  | .mk _ operators => operators.stops

mutual

/-- Whatever the grammar reads, the cursor reads below any frame that waits for it. -/
theorem Reads.runs {least : Nat} {tokens rest : List String} {t : Tree} :
    Reads least tokens t rest → ExpressionRuns least tokens t rest
  | .mk operand operators => by
      intro above hawaiting hleast
      obtain ⟨s, hread, hstands⟩ := operand.runs above hawaiting
      obtain ⟨next, hread', hnext⟩ := operators.runs above s hawaiting hleast hstands
      exact ⟨next, by rw [hread, hread'], hnext⟩

theorem ReadsOperand.runs {tokens rest : List String} {t : Tree} :
    ReadsOperand tokens t rest → OperandRuns tokens t rest
  | .negative operand => runs_negative operand.runs operand.stops
  | .number hnumber _ _ => runs_number hnumber
  | .numberTimes hnumber hnext factor =>
      runs_numberTimes hnumber hnext factor.runs factor.stops
  | .group value _ => runs_group value.runs
  | .groupTimes value hnext factor =>
      runs_groupTimes value.runs hnext factor.runs factor.stops
  | .call hword list hnext => runs_call hword list.runs hnext
  | .callOperator hword list hop right =>
      runs_callOperator hword list.runs hop right.runs right.stops

theorem ReadsOperators.runs {least : Nat} {left t : Tree} {tokens rest : List String} :
    ReadsOperators least left tokens t rest → OperatorsRun least left tokens t rest
  | .stop _ => fun _ s _ _ hstands => ⟨s, rfl, hstands⟩
  | .more hop hle operand operators =>
      runs_more hop hle operand.runs operand.stops operators.runs

theorem ReadsArguments.runs {tokens rest : List String} {arguments : List Tree} :
    ReadsArguments tokens arguments rest → ArgumentsRun tokens arguments rest
  | .last value => value.runs.close
  | .more value list => value.runs.separate list.runs

end

end Grammar

/-- **The cursor agrees with recursive descent**: tokens that the grammar reads completely
are an expression, and its tree is the one that the grammar makes. -/
theorem ofTokens_of_reads {tokens : List String} {t : Tree}
    (h : Grammar.Reads 1 tokens t []) :
    ∃ e, Expression.ofTokens tokens = .ok e ∧ e.tree = t := by
  obtain ⟨s, hread, hstands⟩ := h.runs [] trivial rfl
  obtain ⟨e, he, htree⟩ := Expression.ofTokens_of_spine hread
  refine ⟨e, he, ?_⟩
  rw [htree, hstands.tree]
  exact t.tree_frame

/-- In `2*cos(0)+1` the call is the left operand of the sum, although the product was there
first. -/
theorem ofTokens_call_before_sum :
    let tokens := ["2", "*", "cos", "(", "0", ")", "+", "1"]
    let t : Tree := .node "*" (.operator .times) [.node "2" .number [],
      .node "+" (.operator .plus)
        [.node "cos" .word [.node "()" .closedGroup [.node "0" .number []]], .node "1" .number []]]
    Grammar.Reads 1 tokens t [] ∧ ∃ e, Expression.ofTokens tokens = .ok e ∧ e.tree = t := by
  intro tokens t
  have harguments : Grammar.ReadsArguments ["0", ")", "+", "1"] [.node "0" .number []]
      ["+", "1"] :=
    .last (.mk (.number (by decide) (by decide) (by decide)) (.stop (by decide)))
  have hsum : Grammar.Reads 3 ["cos", "(", "0", ")", "+", "1"] _ [] :=
    .mk (.callOperator (by decide) harguments rfl
      (.mk (.number (by decide) (by decide) (by decide)) (.stop (by decide)))) (.stop (by decide))
  have hreads : Grammar.Reads 1 tokens t [] :=
    .mk (.number (by decide) (by decide) (by decide))
      (.more rfl (by decide) hsum (.stop (by decide)))
  exact ⟨hreads, ofTokens_of_reads hreads⟩

end Calculator
