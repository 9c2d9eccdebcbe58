/-
Writing a tree out again.

From left to right a tree has the tokens it was made of: an operator stands behind its
left operand, a function before its argument list, and the values of a group stand
between parentheses with commas in between.  Of a spine the same can be said before it
is complete.  Every frame has written something already, its `lead`, and what is still
missing comes behind that; so the text of a spine is the leads from the outside in.

A walk up the spine completes frames and leaves the tree as it is, so it leaves the text
as it is.  What remains of a step is the one token that it adds, and the parenthesis that
is put in front of everything where a group is wanted and none is open.
-/
import Calculator.Proofs.Spine.Proper

namespace Calculator

/-! ### The tokens of a tree -/

namespace Tree

mutual

/-- The tokens of a tree from left to right.  A group that was never closed has no closing
parenthesis. -/
def linear : Tree → List String
  | node value (.operator _) [operand] => value :: operand.linear
  | node value (.operator _) [left, right] => left.linear ++ value :: right.linear
  | node value .word children => value :: linearAll children
  | node _ .openGroup children => "(" :: separated children
  | node _ .closedGroup children => "(" :: (separated children ++ [")"])
  | node value _ _ => [value]

/-- The tokens of neighbouring trees. -/
def linearAll : List Tree → List String
  | [] => []
  | t :: rest => t.linear ++ linearAll rest

/-- The tokens of neighbouring trees with a comma between any two. -/
def separated : List Tree → List String
  | [] => []
  | [t] => t.linear
  | t :: next :: rest => t.linear ++ "," :: separated (next :: rest)

end

theorem separated_concat (children : List Tree) (t : Tree) :
    separated (children ++ [t]) =
      children.flatMap (fun c => c.linear ++ [","]) ++ t.linear := by
  induction children with
  | nil => rfl
  | cons c rest ih =>
      cases rest with
      | nil => simp [separated]
      | cons next rest =>
          rw [List.cons_append, List.cons_append, separated, ← List.cons_append, ih]
          simp

end Tree

/-! ### What a frame has written -/

namespace Frame

/-- What the frame has written before the child that comes next. -/
def lead (f : Frame) : List String :=
  match f.kind with
  | .operator _ => Tree.linearAll f.children ++ [f.value]
  | .openGroup => "(" :: f.children.flatMap (fun t => t.linear ++ [","])
  | _ => [f.value]

/-- A node that waits for a child writes it behind its lead. -/
theorem linear_take {f : Frame} (h : f.Pending) (t : Tree) :
    (f.take t).tree.linear = f.lead ++ t.linear := by
  obtain ⟨value, kind, children⟩ := f
  cases kind with
  | operator op =>
      obtain ⟨-, hlen⟩ := h
      match children, hlen with
      | [], _ => rfl
      | [left], _ => simp [take, tree, lead, Tree.linear, Tree.linearAll]
  | openGroup => simp [take, tree, lead, Tree.linear, Tree.separated_concat]
  | word =>
      obtain rfl : children = [] := h
      simp [take, tree, lead, Tree.linear, Tree.linearAll]
  | number | closer | closedGroup | comma => exact h.elim

/-- Is this a group that was not closed? -/
def isOpen (f : Frame) : Bool :=
  f.kind = .openGroup

theorem isOpen_iff {f : Frame} : f.isOpen = true ↔ f.kind = .openGroup :=
  decide_eq_true_iff

/-- What the frame has written by the time that the next token comes. -/
def text (f : Frame) : List String :=
  if f.kind.isOperand then f.tree.linear else f.lead

/-- A node that was just made has written its own token. -/
theorem text_leaf {token : String} {kind : Kind} (h : Kind.of? token = some kind)
    (hclosed : kind ≠ .closedGroup) : text ⟨token, kind, []⟩ = [token] := by
  cases kind with
  | openGroup =>
      obtain rfl := Kind.eq_of_spelling h rfl
      rfl
  | closedGroup => exact absurd rfl hclosed
  | number | operator | closer | word | comma => rfl

end Frame

/-! ### Plain tokens -/

/-- No token is a finished pair of parentheses, and the first one ends nothing. -/
structure Plain (tokens : List String) : Prop where
  pair : "()" ∉ tokens
  closer : tokens.head? ≠ some ")"
  comma : tokens.head? ≠ some ","

theorem Plain.of_concat {tokens : List String} {token : String} (h : Plain (tokens ++ [token]))
    (hne : tokens ≠ []) : Plain tokens := by
  obtain ⟨first, rest, rfl⟩ := List.exists_cons_of_ne_nil hne
  exact ⟨fun hmem => h.pair (List.mem_append_left _ hmem), h.closer, h.comma⟩

/-- The first token ends nothing, so that others can come behind it. -/
structure Continuable (tokens : List String) : Prop where
  closer : tokens.head? ≠ some ")"
  comma : tokens.head? ≠ some ","

theorem Plain.continuable {tokens : List String} (h : Plain tokens) : Continuable tokens :=
  ⟨h.closer, h.comma⟩

theorem Continuable.of_concat {tokens : List String} {token : String}
    (h : Continuable (tokens ++ [token])) (hne : tokens ≠ []) : Continuable tokens := by
  obtain ⟨first, rest, rfl⟩ := List.exists_cons_of_ne_nil hne
  exact ⟨h.closer, h.comma⟩

theorem Continuable.kind_ne {token : String} {kind : Kind} (h : Continuable [token])
    (hkind : Kind.of? token = some kind) : kind ≠ .closer ∧ kind ≠ .comma := by
  refine ⟨?_, ?_⟩
  · rintro rfl
    exact h.closer (congrArg some (Kind.eq_of_spelling hkind rfl))
  · rintro rfl
    exact h.comma (congrArg some (Kind.eq_of_spelling hkind rfl))

/-- The first of plain tokens can be placed. -/
theorem Plain.kind_ne {token : String} {kind : Kind} (h : Plain [token])
    (hkind : Kind.of? token = some kind) :
    kind ≠ .closer ∧ kind ≠ .comma ∧ kind ≠ .closedGroup := by
  obtain ⟨hcloser, hcomma⟩ := h.continuable.kind_ne hkind
  refine ⟨hcloser, hcomma, ?_⟩
  rintro rfl
  obtain rfl := Kind.eq_of_spelling hkind rfl
  exact h.pair List.mem_cons_self

namespace Spine

/-- Behind a `)` or a `,` that comes first there is no other token. -/
theorem eq_single_of_head {tokens : List String} {s : Spine} (h : ofTokens tokens = .ok s)
    {first : String} {kind : Kind} (hfirst : tokens.head? = some first)
    (hkind : Kind.of? first = some kind) (hends : kind = .closer ∨ kind = .comma) :
    s = ⟨⟨first, kind, []⟩, []⟩ := by
  refine ofTokens_induction (P := fun tokens s => tokens.head? = some first →
    s = ⟨⟨first, kind, []⟩, []⟩) ?_ ?_ tokens s h hfirst
  · intro token k hk hfirst
    obtain rfl : token = first := Option.some.inj hfirst
    rw [Option.some.inj (hkind.symm.trans hk)]
  · intro tokens s token k placement hread ih _ hplace hfirst
    have hhead : tokens.head? = some first := by
      obtain ⟨a, rest, rfl⟩ := List.exists_cons_of_ne_nil (ofTokens_ne_nil hread)
      exact hfirst
    rw [ih hhead] at hplace
    rcases hends with rfl | rfl <;> cases hplace

/-! ### The text of a spine -/

/-- What the frames have written, from the outside in. -/
def leads : List Frame → List String
  | [] => []
  | f :: above => leads above ++ f.lead

/-- Everything that was written. -/
def text (s : Spine) : List String :=
  leads s.above ++ s.current.text

/-- Completing the frames adds nothing. -/
theorem linear_tree {s : Spine} (h : ∀ f ∈ s.above, f.Pending) :
    s.tree.linear = leads s.above ++ s.current.tree.linear := by
  obtain ⟨f, above⟩ := s
  induction above generalizing f with
  | nil => rfl
  | cons g above ih =>
      have hpending : g.Pending := h g List.mem_cons_self
      have hrest : ∀ k ∈ above, k.Pending := fun k hk => h k (List.mem_cons_of_mem _ hk)
      show (fold (g.take f.tree) above).linear = _
      rw [show (fold (g.take f.tree) above) = tree ⟨g.take f.tree, above⟩ from rfl, ih _ hrest,
        Frame.linear_take hpending, ← List.append_assoc]
      rfl

/-- Behind an operand the text is that of the whole tree. -/
theorem Proper.text_eq {s : Spine} (h : s.Proper) (hoperand : s.current.kind.isOperand = true) :
    s.text = s.tree.linear := by
  rw [linear_tree h.above, text, Frame.text, if_pos hoperand]

/-- A walk leaves the tree as it is. -/
theorem Rises.tree_eq {s t : Spine} (h : Rises s t) : t.tree = s.tree := by
  induction h with
  | refl s => rfl
  | up _ _ ih => exact ih

theorem text_operate {s : Spine} (h : ∀ f ∈ s.above, f.Pending) (value : String)
    (op : Operator) : (s.operate value op).text = s.tree.linear ++ [value] := by
  rw [linear_tree h, List.append_assoc]
  simp [text, operate, Frame.text, Kind.isOperand, Frame.lead, Tree.linearAll]

theorem text_hang {s : Spine} (hcurrent : s.current.kind.isOperand = false) {token : String}
    {kind : Kind} (hkind : Kind.of? token = some kind) (hclosed : kind ≠ .closedGroup) :
    (s.hang token kind).text = s.text ++ [token] := by
  rw [text, hang, Frame.text_leaf hkind hclosed, text, Frame.text, hcurrent]
  rfl

/-! ### Open groups -/

/-- How many groups are open. -/
def opens (s : Spine) : Nat :=
  (s.current :: s.above).countP Frame.isOpen

/-- A walk closes no group. -/
theorem Rises.opens_eq {s t : Spine} (h : Rises s t) : t.opens = s.opens := by
  induction h with
  | refl s => rfl
  | @up f g above t hclosed _ ih =>
      rw [ih]
      simp [opens, List.countP_cons, Frame.isOpen_iff, hclosed]

theorem climb_not_open {precedence : Nat} (hpos : 0 < precedence) {f : Frame}
    (hclosed : f.kind ≠ .openGroup) (above : List Frame) :
    (climb precedence f above).current.kind ≠ .openGroup := by
  induction above generalizing f with
  | nil => exact hclosed
  | cons g above ih =>
      unfold climb
      split
      · rename_i hle
        refine ih ?_
        intro hopen
        rw [Frame.kind_take] at hopen
        rw [hopen] at hle
        exact absurd hle (Nat.not_le.mpr hpos)
      · exact hclosed

theorem leftOperand_not_open (s : Spine) (op : Operator) (hclosed : s.current.kind ≠ .openGroup) :
    (s.leftOperand op).current.kind ≠ .openGroup := by
  have hclimb := climb_not_open op.precedence_pos hclosed s.above
  unfold leftOperand wholeCall
  split
  · split
    · rename_i hcall
      rw [Frame.kind_take, hcall.2]
      exact Kind.noConfusion
    · simp_all
  · exact hclimb

theorem opens_pos_iff {s : Spine} :
    0 < s.opens ↔ ∃ f ∈ s.current :: s.above, f.kind = .openGroup := by
  simp only [opens, List.countP_pos_iff, Frame.isOpen_iff]

/-- Where a group is open, it is found by a walk. -/
theorem rises_enclose {s : Spine} (h : 0 < s.opens) : Rises s s.enclose := by
  rcases enclosing_cases s.current s.above with ⟨hrises, -⟩ | ⟨hnone, -⟩
  · exact hrises
  · obtain ⟨f, hf, hopen⟩ := opens_pos_iff.mp h
    exact absurd hopen (hnone f hf)

/-- Where none is open, there is one around everything. -/
theorem enclose_of_opens_eq_zero {s : Spine} (h : s.opens = 0) :
    s.enclose = ⟨⟨"(", .openGroup, [s.tree]⟩, []⟩ := by
  rcases enclosing_cases s.current s.above with ⟨hrises, hopen⟩ | ⟨-, t, hrises, heq⟩
  · have hpos : 0 < s.opens := by
      rw [← hrises.opens_eq, opens_pos_iff]
      exact ⟨_, List.mem_cons_self, hopen⟩
    omega
  · rw [Spine.enclose, heq, ← hrises.tree_eq]
    rfl

theorem opens_enclose (s : Spine) : s.enclose.opens = max s.opens 1 := by
  rcases Nat.eq_zero_or_pos s.opens with hzero | hpos
  · rw [enclose_of_opens_eq_zero hzero, hzero]
    rfl
  · rw [(rises_enclose hpos).opens_eq]
    omega

/-- Moving to the innermost open group leaves the text as it is, or puts one parenthesis
in front of it if there was no open group. -/
theorem Proper.enclose_text {s : Spine} (h : s.Proper)
    (hoperand : s.current.kind.isOperand = true) :
    s.enclose.tree.linear = if s.opens = 0 then "(" :: s.text else s.text := by
  rw [h.text_eq hoperand]
  by_cases hzero : s.opens = 0
  · rw [if_pos hzero, enclose_of_opens_eq_zero hzero]
    rfl
  · rw [if_neg hzero, (rises_enclose (Nat.pos_of_ne_zero hzero)).tree_eq]

theorem text_close {s : Spine} (h : s.enclose.Proper) :
    s.close.text = s.enclose.tree.linear ++ [")"] := by
  rw [linear_tree h.above, List.append_assoc]
  show leads s.enclose.above ++ _ = _
  simp [close, Frame.text, Frame.closed, Frame.tree, Kind.isOperand, Tree.linear, kind_enclose]

theorem text_enclose {s : Spine} (h : s.enclose.Proper)
    (hchildren : s.enclose.current.children ≠ []) :
    s.enclose.text = s.enclose.tree.linear ++ [","] := by
  rw [linear_tree h.above, List.append_assoc, text]
  congr 1
  obtain ⟨children, t, ht⟩ : ∃ children t, s.enclose.current.children = children ++ [t] :=
    ⟨_, _, (List.dropLast_concat_getLast hchildren).symm⟩
  simp [Frame.text, Frame.tree, Frame.lead, Kind.isOperand, Tree.linear, kind_enclose, ht,
    Tree.separated_concat]

end Spine

end Calculator
