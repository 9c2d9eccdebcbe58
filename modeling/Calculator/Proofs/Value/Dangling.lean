/-
Tokens that end in an operator.

Such an operator has no right operand, and a tree in which an operand is missing should have no
value.  But an operator with one operand is taken for a sign if it is a minus, wherever the
operand came from.  A minus behind an operand has that as its only child, so it negates what it
was meant to take something from: `5-` has the value of `-5`.

That is the only exception.  Whether there is a value then depends on the tokens before the
minus alone.
-/
import Calculator.Proofs.Value.Order

namespace Calculator

namespace Spine

/-- An operator without operands has no value. -/
theorem not_serves_of_leaf {s : Spine} (hproper : s.Proper) {token : String} {op : Operator}
    (hcurrent : s.current = ⟨token, .operator op, []⟩) : ¬s.tree.Serves .value := by
  rw [serves_tree hproper.above, hcurrent, Frame.tree, Tree.serves_node_iff Kind.noConfusion]
  have hnone : ∀ r : Role, r.admits (.operator op) 0 = false := by
    intro r
    cases r <;> rfl
  intro hboth
  obtain ⟨⟨hadmits, -⟩, -⟩ := hboth
  rw [List.length_nil, hnone] at hadmits
  cases hadmits

section Operate

variable {α : Type} {m : Arithmetic α} {t : Spine} (hpending : ∀ f ∈ t.above, f.Pending)
  (hopen : t.current.kind ≠ .openGroup)
  (hclosed : t.current.kind = .closedGroup → role t.above = .value)
include hpending hopen hclosed

/-- What an operator finds as its left operand is there to have a value. -/
theorem role_of_operand (h : t.tree.Serves .value) : role t.above = .value := by
  by_cases hgroup : t.current.kind = .closedGroup
  · exact hclosed hgroup
  · exact role_of_serves ((serves_tree hpending).mp h).1 hopen hgroup

/-- Only a minus is enough with the operand in front of it. -/
theorem serves_operate (token : String) (op : Operator) :
    (t.operate token op).tree.Serves .value ↔ op = .minus ∧ t.tree.Serves .value := by
  have hnew : (t.operate token op).tree.Serves .value ↔
      ((role t.above).admits (.operator op) 1 = true ∧ t.current.tree.Serves .value) ∧
        Hosting t.above := by
    rw [serves_tree (s := t.operate token op) hpending]
    refine and_congr_left fun _ => ?_
    show (Tree.node token (.operator op) [t.current.tree]).Serves (role t.above) ↔ _
    rw [Tree.serves_node_iff Kind.noConfusion]
    simp [Kind.asks]
  rw [hnew, serves_tree hpending]
  refine ⟨?_, ?_⟩
  · intro hboth
    obtain ⟨⟨hadmits, hcurrent⟩, habove⟩ := hboth
    have hrole : role t.above = .value := role_of_admits hadmits Kind.noConfusion Kind.noConfusion
    rw [hrole] at hadmits ⊢
    exact ⟨by simpa [Role.admits] using hadmits, hcurrent, habove⟩
  · intro hboth
    obtain ⟨rfl, hcurrent, habove⟩ := hboth
    have hrole := role_of_operand hpending hopen hclosed
      ((serves_tree hpending).mpr ⟨hcurrent, habove⟩)
    rw [hrole] at hcurrent ⊢
    exact ⟨⟨rfl, hcurrent⟩, habove⟩

/-- It makes no call. -/
theorem calls_operate (h : t.tree.Serves .value) (token : String) (op : Operator) :
    (t.operate token op).tree.calls = t.tree.calls := by
  have hhosting := ((serves_tree hpending).mp h).2
  have hrole := role_of_operand hpending hopen hclosed h
  have hrole' : role (t.operate token op).above = .value := hrole
  rw [calls_tree hpending hhosting, calls_tree (s := t.operate token op) hpending hhosting,
    ending_of_value hrole, ending_of_value hrole']
  simp [operate, Frame.tree, Tree.calls_node, Tree.callsAll]

/-- An operator without a right operand has a value exactly if it is a minus and its left
operand has one, with everything around it. -/
theorem evaluate_operate (token : String) (op : Operator) :
    (∃ x, (t.operate token op).tree.evaluate m = .ok x) ↔
      op = .minus ∧ ∃ x, t.tree.evaluate m = .ok x := by
  rw [Tree.evaluate_eq_ok_iff, Tree.evaluate_eq_ok_iff,
    serves_operate hpending hopen hclosed token op, and_assoc]
  refine and_congr_right fun _ => and_congr_right fun hserves => ?_
  rw [calls_operate hpending hopen hclosed hserves token op]

end Operate

/-- The last token is an operator that waits for its right operand, or for its only one. -/
theorem ofTokens_operator {tokens : List String} {op : Operator} {s : Spine}
    (h : ofTokens (tokens ++ [op.symbol]) = .ok s) :
    (¬EndsOperand tokens ∧ s.current = ⟨op.symbol, .operator op, []⟩) ∨
    (EndsOperand tokens ∧ ∃ t, ofTokens tokens = .ok t ∧
      t.current.kind.isOperand = true ∧ s = (t.leftOperand op).operate op.symbol op) := by
  by_cases hnil : tokens = []
  · subst hnil
    have hstart : start op.symbol = .ok s := by
      rw [← h]
      exact (bind_pure (start op.symbol)).symm
    obtain ⟨kind, hkind, rfl⟩ := start_eq_ok_iff.mp hstart
    obtain rfl := Option.some.inj ((Kind.of?_symbol op).symm.trans hkind)
    exact Or.inl ⟨by decide, rfl⟩
  · rw [ofTokens_concat hnil] at h
    cases ht : ofTokens tokens with
    | error e =>
        rw [ht] at h
        cases h
    | ok t =>
        rw [ht] at h
        obtain ⟨kind, placement, hkind, hplace, rfl⟩ := step_eq_ok_iff.mp h
        obtain rfl := Option.some.inj ((Kind.of?_symbol op).symm.trans hkind)
        have hcloser : t.current.kind ≠ .closer := by
          intro hk
          rw [hk] at hplace
          cases hplace
        have hends := endsOperand_iff ht hcloser
        cases placement with
        | rightOf other =>
            obtain ⟨hoperand, hsame⟩ := Placement.of?_eq_rightOf hplace
            obtain rfl := Kind.operator.inj hsame
            exact Or.inr ⟨hends.mpr hoperand, t, rfl, hoperand, rfl⟩
        | below =>
            have hoperand := (Placement.kinds_of_below hplace).1
            refine Or.inl ⟨fun hboth => ?_, rfl⟩
            rw [hends, hoperand] at hboth
            cases hboth
        | factor => rcases Placement.of?_eq_factor hplace with ⟨-, hk | hk⟩ | ⟨-, hk⟩ <;> cases hk
        | close => cases (Placement.of?_eq_close hplace).2
        | separate => cases (Placement.of?_eq_separate hplace).2

end Spine

/-! ### Whole expressions -/

/-- **A missing right operand is reported, except behind a minus.**  Tokens that end in an
operator have a value only if that is a minus and an operand stands before it, and then exactly
if the tokens without the minus have one. -/
theorem evaluate_dangling_iff {α : Type} (m : Arithmetic α) {tokens : List String}
    {op : Operator} {e : Expression} (he : Expression.ofTokens (tokens ++ [op.symbol]) = .ok e) :
    (∃ v, e.evaluateIn m = .ok v) ↔ op = .minus ∧ EndsOperand tokens ∧
      ∃ x v, Expression.ofTokens tokens = .ok x ∧ x.evaluateIn m = .ok v := by
  obtain ⟨s, hs, htree⟩ := Expression.exists_spine he
  rw [Expression.evaluateIn, htree]
  rcases Spine.ofTokens_operator hs with ⟨hends, hcurrent⟩ | ⟨hends, t, ht, hoperand, rfl⟩
  · refine iff_of_false (fun hvalue => ?_) fun hboth => hends hboth.2.1
    exact Spine.not_serves_of_leaf (Spine.proper_ofTokens hs) hcurrent
      ((Tree.evaluate_eq_ok_iff s.tree).mp hvalue).1
  · have hcurrent := Spine.not_open_of_isOperand hoperand
    have hrises := Spine.rises_leftOperand t op hcurrent
    have hpending : ∀ f ∈ (t.leftOperand op).above, f.Pending :=
      fun f hf => (Spine.proper_ofTokens ht).above f (hrises.above_subset hf)
    rw [Spine.evaluate_operate hpending (Spine.leftOperand_not_open t op hcurrent)
      (Spine.role_wholeCall _), hrises.tree_eq]
    refine and_congr_right fun _ => ?_
    obtain ⟨x, hx, hsame⟩ := Expression.ofTokens_of_spine ht
    refine ⟨fun hvalue => ⟨hends, x, ?_⟩, fun hboth => ?_⟩
    · obtain ⟨v, hv⟩ := hvalue
      exact ⟨v, hx, by rw [Expression.evaluateIn, hsame, hv]⟩
    · obtain ⟨-, y, v, hy, hv⟩ := hboth
      obtain rfl := Except.ok.inj (hx.symm.trans hy)
      exact ⟨v, by rw [← hsame]; exact hv⟩

/-- The minus of `sum(1)*2-` negates the product.  Where the call is not recognised there is no
value without the minus, and none with it. -/
theorem evaluate_dangling_call :
    (∃ e, Expression.ofTokens (["f", "(", "1", ")", "*", "2"] ++ [Operator.minus.symbol]) = .ok e ∧
      ¬∃ v, e.evaluateIn .words = .ok v) ∧
    ∃ e, Expression.ofTokens (["sum", "(", "1", ")", "*", "2"] ++ [Operator.minus.symbol]) = .ok e ∧
      ∃ v, e.evaluateIn .words = .ok v := by
  have hunknown : ∃ e, Expression.ofTokens
      (["f", "(", "1", ")", "*", "2"] ++ [Operator.minus.symbol]) = .ok e := ⟨_, rfl⟩
  have hknown : ∃ e, Expression.ofTokens
      (["sum", "(", "1", ")", "*", "2"] ++ [Operator.minus.symbol]) = .ok e := ⟨_, rfl⟩
  obtain ⟨e, he⟩ := hunknown
  obtain ⟨k, hk⟩ := hknown
  refine ⟨⟨e, he, fun hvalue => ?_⟩, k, hk, ?_⟩
  · obtain ⟨-, -, x, v, hx, hv⟩ := (evaluate_dangling_iff .words he).mp hvalue
    have herror : (Expression.ofTokens ["f", "(", "1", ")", "*", "2"] >>=
        Expression.evaluateIn .words) = .error (.unrecognizedFunction "f" 1) := by rfl
    rw [hx] at herror
    cases herror.symm.trans hv
  · exact (evaluate_dangling_iff .words hk).mpr ⟨rfl, by decide, _, _, rfl, rfl⟩

/-- **A missing right operand is not always reported**: `5-` has a value. -/
theorem dangling_minus_has_value :
    ∃ (tokens : List String) (op : Operator) (e : Expression) (v : Float),
      Expression.ofTokens (tokens ++ [op.symbol]) = .ok e ∧ e.evaluate = .ok v :=
  ⟨["5"], .minus, _, _, rfl, rfl⟩

end Calculator
