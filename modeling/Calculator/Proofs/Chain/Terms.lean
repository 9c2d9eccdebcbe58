/-
Terms: operands and calls.

A call with its argument list is read like an operand where one is waited for, but the cursor
stays on the list, below the word.  What an argument list holds is read value by value; each of
them is an expression of its own if its groups match.
-/
import Calculator.Proofs.Chain.Operands

namespace Calculator

/-! ### Terms -/

/-- The tokens are an operand, or a call: a word and a group of values with commas between
them, where the groups of each value match and it has no comma outside of these. -/
inductive IsTerm : List String → Prop
  | operand {tokens : List String} (h : IsOperand tokens) : IsTerm tokens
  | call {w : String} {values : List (List String)} (hword : Kind.of? w = some .word)
      (hne : values ≠ []) (hclosed : ∀ v ∈ values, (balance v).depth = 0 ∧ (balance v).missing = 0) :
      IsTerm (w :: "(" :: ([","].intercalate values ++ [")"]))

theorem IsOperand.not_wordNext {tokens : List String} (h : IsOperand tokens) :
    ¬Grammar.WordNext tokens := by
  intro hword
  cases h with
  | number hnumber => cases hnumber.symm.trans hword
  | group => cases hword

/-! ### Reading a call -/

namespace Spine

theorem kind_tree_of_opens_eq_zero {s : Spine} (h : s.opens = 0) : s.tree.kind ≠ .openGroup := by
  have hnone : ∀ f ∈ s.current :: s.above, f.kind ≠ .openGroup := by
    intro f hf hopen
    exact absurd (opens_pos_iff.mpr ⟨f, hf, hopen⟩) (by omega)
  obtain ⟨f, above⟩ := s
  clear h
  induction above generalizing f with
  | nil => exact hnone f List.mem_cons_self
  | cons g above ih =>
      exact ih (g.take f.tree) (by simpa using (List.forall_mem_cons.mp hnone).2)

/-- What waits for an operand and binds nothing is an open group. -/
theorem kind_of_floor_eq_zero {g : Frame} {above : List Frame} (hawaiting : Awaiting (g :: above))
    (hfloor : floor (g :: above) = 0) : g.kind = .openGroup := by
  have hawaits : g.kind.awaits = true := hawaiting
  have hzero : g.kind.precedence = 0 := hfloor
  cases hk : g.kind with
  | openGroup => rfl
  | operator op =>
      rw [hk] at hzero
      exact absurd hzero (Nat.pos_iff_ne_zero.mp op.precedence_pos)
  | number | closer | closedGroup | word | comma =>
      rw [hk] at hawaits
      cases hawaits

/-- Whatever a value hangs below, the group that is moved to behind it has it as its last
value. -/
theorem enclose_value {s : Spine} (hopens : s.opens = 0) {above : List Frame}
    (hopen : ∀ g ∈ above.head?, g.kind = .openGroup) :
    (s.atop above).enclose = enclosing s.tree.frame above := by
  have hclosed : s.tree.frame.kind ≠ .openGroup := kind_tree_of_opens_eq_zero hopens
  cases above with
  | nil => rw [atop_nil, enclose_of_opens_eq_zero hopens, enclosing, if_neg hclosed, Tree.tree_frame]
  | cons g above =>
      have hg : g.kind = .openGroup := hopen g rfl
      rw [enclose_atop_of_opens_eq_zero hopens hg, enclosing, if_neg hclosed, Tree.tree_frame]
      cases above <;> exact (if_pos hg).symm

/-- A value whose groups match is read up to the `)` or `,` behind it. -/
theorem runs_value {value rest : List String} {ender : String} (h : ClosedOperand value)
    {s : Spine} (hs : ofTokens value = .ok s) (hender : Operator.ofSymbol? ender = none) :
    ExpressionRuns 1 (value ++ ender :: rest) s.tree (ender :: rest) := by
  intro above hawaiting hfloor
  have hbegins := h.toOperandEnds.begins
  have hopens : s.opens = 0 := by
    rw [opens_ofTokens hs hbegins.continuable, h.closed]
  have hopen : ∀ g ∈ above.head?, g.kind = .openGroup := by
    intro g hg
    obtain ⟨rest, rfl⟩ := List.head?_eq_some_iff.mp hg
    exact kind_of_floor_eq_zero hawaiting (Nat.succ.inj hfloor).symm
  have hread : readBelow above value = .ok (s.atop above) := by
    cases above with
    | nil => rw [atop_nil, readBelow, hs]
    | cons g above => exact readBelow_inside hs hbegins h.inside (hopen g rfl) above
  refine ⟨s.atop above, ?_, ?_⟩
  · rw [readBelow_append (ofTokens_ne_nil hs), hread]
    rfl
  · have hoperand := h.toOperandEnds.isOperand hs
    refine { operand := hoperand, closed := kind_tree_of_opens_eq_zero hopens,
             tree := fold_append s.current s.above above,
             enclose := enclose_value hopens hopen, climb := ?_ }
    intro op hop
    rw [show Grammar.operator? (ender :: rest) = none from hender] at hop
    cases hop

/-- The values of an argument list are read up to its closing parenthesis. -/
theorem runs_values {values : List (List String)} (hne : values ≠ [])
    (hvalues : ∀ v ∈ values, ClosedOperand v ∧ ∃ s, ofTokens v = .ok s) :
    ∃ arguments, ∀ rest, ArgumentsRun ([","].intercalate values ++ ")" :: rest) arguments rest := by
  induction values with
  | nil => exact absurd rfl hne
  | cons v more ih =>
      obtain ⟨⟨hv, s, hs⟩, hmore⟩ := List.forall_mem_cons.mp hvalues
      cases more with
      | nil =>
          refine ⟨[s.tree], fun rest => ?_⟩
          rw [List.intercalate_singleton]
          exact (runs_value hv hs (by rfl)).close
      | cons next more =>
          obtain ⟨arguments, hlist⟩ := ih (List.cons_ne_nil next more) hmore
          refine ⟨s.tree :: arguments, fun rest => ?_⟩
          have htokens : [","].intercalate (v :: next :: more) ++ ")" :: rest =
              v ++ "," :: ([","].intercalate (next :: more) ++ ")" :: rest) := by
            simp [List.intercalate_cons_cons]
          rw [htokens]
          exact (runs_value hv hs (by rfl)).separate (hlist rest)

/-- Where the cursor is behind a term `t` below the frames `above`: on it, as far as what
follows can tell, or on the argument list of a call. -/
inductive Behind (call : Prop) : Spine → Tree → List Frame → List String → Prop
  | operand {s : Spine} {t : Tree} {above : List Frame} {rest : List String}
      (hcall : ¬call) (stands : Stands s t above rest) : Behind call s t above rest
  | call {w : String} {arguments : List Tree} {above : List Frame} {rest : List String}
      (hcall : call) :
      Behind call ⟨⟨"()", .closedGroup, arguments⟩, ⟨w, .word, []⟩ :: above⟩
        (.node w .word [.node "()" .closedGroup arguments]) above rest

/-- Wherever an operand is waited for, the tokens are read as a term. -/
def ReadsTerm (tokens : List String) : Prop :=
  ∀ above, Awaiting above → ∀ rest, ∃ s, readBelow above (tokens ++ rest) = rest.foldlM step s ∧
    Behind (Grammar.WordNext tokens) s (treeOf tokens) above rest

theorem Behind.tree_eq {call : Prop} {s : Spine} {t : Tree} {above : List Frame}
    {rest : List String} (h : Behind call s t above rest) : s.tree = fold t.frame above := by
  cases h with
  | operand _ stands => exact stands.tree
  | call => rfl

/-- By itself a term is an expression. -/
theorem ReadsTerm.exists_expression {tokens : List String} (h : ReadsTerm tokens) :
    ∃ e, Expression.ofTokens tokens = .ok e := by
  obtain ⟨s, hread, -⟩ := h [] trivial []
  rw [List.append_nil] at hread
  obtain ⟨e, he, -⟩ := Expression.ofTokens_of_spine hread
  exact ⟨e, he⟩

theorem ReadsAs.readsTerm {tokens : List String} {f : Frame} (h : ReadsAs tokens f)
    (hword : ¬Grammar.WordNext tokens) : ReadsTerm tokens := by
  intro above hawaiting rest
  obtain ⟨s, hread, hstands⟩ := h.stands hawaiting rest
  exact ⟨s, hread, .operand hword hstands⟩

theorem readsTerm_call {w : String} {values : List (List String)}
    (hword : Kind.of? w = some .word) (hne : values ≠ [])
    (hvalues : ∀ v ∈ values, ClosedOperand v ∧ ∃ s, ofTokens v = .ok s) :
    ReadsTerm (w :: "(" :: ([","].intercalate values ++ [")"])) := by
  obtain ⟨arguments, hlist⟩ := runs_values hne hvalues
  have hread : ∀ above, Awaiting above → ∀ rest,
      readBelow above (w :: "(" :: ([","].intercalate values ++ [")"]) ++ rest) =
        rest.foldlM step ⟨⟨"()", .closedGroup, arguments⟩, ⟨w, .word, []⟩ :: above⟩ := by
    intro above hawaiting rest
    rw [List.cons_append, List.cons_append, List.append_assoc]
    exact readBelow_call hawaiting hword (hlist rest)
  have htree : treeOf (w :: "(" :: ([","].intercalate values ++ [")"])) =
      .node w .word [.node "()" .closedGroup arguments] := by
    have halone := hread [] trivial []
    rw [List.append_nil] at halone
    have hs : ofTokens (w :: "(" :: ([","].intercalate values ++ [")"])) =
        .ok ⟨⟨"()", .closedGroup, arguments⟩, [⟨w, .word, []⟩]⟩ := halone
    obtain ⟨e, he, hsame⟩ := Expression.ofTokens_of_spine hs
    rw [treeOf, he]
    exact hsame
  intro above hawaiting rest
  refine ⟨_, hread above hawaiting rest, ?_⟩
  rw [htree]
  exact .call hword

end Spine

/-- The values of an argument list in an expression are expressions. -/
theorem AllFit.values {values : List (List String)} {behind : List String}
    (hclosed : ∀ v ∈ values, (balance v).depth = 0 ∧ (balance v).missing = 0) :
    ∀ {before : List String} {opener : String},
      effectiveKind? before.length opener = some .openGroup →
      AllFit (before ++ opener :: ([","].intercalate values ++ ")" :: behind)) →
      ∀ v ∈ values, ClosedOperand v ∧ ∃ s, Spine.ofTokens v = .ok s := by
  induction values with
  | nil => simp
  | cons v more ih =>
      intro before opener hopener h
      obtain ⟨⟨hdepth, hmissing⟩, hmore⟩ := List.forall_mem_cons.mp hclosed
      cases more with
      | nil =>
          rw [List.intercalate_singleton] at h
          have hvalue := h.closedOperand hopener (Or.inl rfl) hdepth hmissing
          simpa using ⟨hvalue, h.exists_value hvalue⟩
      | cons next more =>
          have htokens : before ++ opener :: ([","].intercalate (v :: next :: more) ++ ")" :: behind) =
              before ++ opener ::
                (v ++ "," :: ([","].intercalate (next :: more) ++ ")" :: behind)) := by
            simp [List.intercalate_cons_cons]
          rw [htokens] at h
          have hvalue := h.closedOperand hopener (Or.inr rfl) hdepth hmissing
          have hexists := h.exists_value hvalue
          have hcomma : effectiveKind? (before ++ opener :: v).length "," = some .openGroup := by
            simp [effectiveKind?]
          rw [show before ++ opener ::
              (v ++ "," :: ([","].intercalate (next :: more) ++ ")" :: behind)) =
            (before ++ opener :: v) ++ "," :: ([","].intercalate (next :: more) ++ ")" :: behind)
            by simp] at h
          exact List.forall_mem_cons.mpr ⟨⟨hvalue, hexists⟩, ih hmore hcomma h⟩

/-- **A term that is part of an expression is read as a term.** -/
theorem IsTerm.reads {tokens before behind : List String} (h : IsTerm tokens)
    (hfit : AllFit (before ++ (tokens ++ behind))) : Spine.ReadsTerm tokens := by
  cases h with
  | operand hoperand =>
      obtain ⟨f, hf⟩ := hoperand.readsAs hfit
      exact hf.readsTerm hoperand.not_wordNext
  | @call w values hword hne hclosed =>
      rw [show before ++ (w :: "(" :: ([","].intercalate values ++ [")"]) ++ behind) =
        (before ++ [w]) ++ "(" :: ([","].intercalate values ++ ")" :: behind) by simp] at hfit
      exact Spine.readsTerm_call hword hne (hfit.values hclosed (effectiveKind?_open _))

end Calculator
