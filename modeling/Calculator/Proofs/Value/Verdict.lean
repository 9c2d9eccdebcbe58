/-
Which texts have a value.

The result of calculating a text is told from its tokens: whether it is a value, and when
the only thing wrong is a call, which call is reported.  A text whose tokens end in an
operator is left out.
-/
import Calculator.Proofs.Text.Blocks
import Calculator.Proofs.Value.Order

namespace Calculator

/-! ### The calls of an expression -/

namespace Spine

/-- **The calls that the tokens tell are those of the tree**, in the same order. -/
theorem callsOf_eq {tokens : List String} {s : Spine} (h : ofTokens tokens = .ok s)
    (hplain : Plain tokens) (hlast : ∀ last ∈ tokens.getLast?, Operator.ofSymbol? last = none)
    (hserves : s.tree.Serves .value) : callsOf tokens = s.tree.calls := by
  have hproper := proper_ofTokens h
  have hgrouped := grouped_ofTokens h hplain
  have hshape := (wellShaped_iff_serves h hplain hlast).mpr hserves
  have hsettled := (steady_iff_settled h hplain).mp hshape.toSteady
  obtain ⟨hcurrent, hhosting⟩ := (serves_tree hproper.above).mp hserves
  have hcalls := calls_ofTokens h hplain hsettled
  obtain ⟨before, last, rfl, hseen⟩ := lastSeen_ofTokens h hplain
  have hend : (before ++ [last]).getLast? = some last := List.getLast?_concat
  rw [callsOf, hcalls, hgrouped.groups, hend, done, calls_tree hproper.above hhosting]
  cases hseen with
  | closer heq hclosed =>
      subst heq
      have hopen : s.current.kind ≠ .openGroup := by
        rw [hclosed]
        exact Kind.noConfusion
      rw [groupsOf_other hopen, unfinished_eq (by decide) (by decide), if_pos hclosed]
  | comma heq hopen =>
      subst heq
      have hclosed : s.current.kind ≠ .closedGroup := by
        rw [hopen]
        exact Kind.noConfusion
      rw [groupsOf_open hopen, if_neg hclosed]
      simp only [List.append_nil, List.append_assoc]
      rfl
  | node hcloser hcomma hkind hgroup hchildren =>
      rw [if_neg hgroup, List.append_nil]
      by_cases hopen : s.current.kind = .openGroup
      · rw [hopen] at hkind
        obtain rfl := Kind.eq_of_spelling hkind rfl
        rw [groupsOf_open hopen, hchildren hopen]
        simp only [List.append_assoc]
        rfl
      · have hne : last ≠ "(" := by
          intro hsame
          subst hsame
          exact hopen (Option.some.inj hkind).symm
        rw [groupsOf_other hopen, unfinished_eq hne hcomma,
          ending_of_value (role_of_serves hcurrent hopen hgroup), List.append_nil]

end Spine

/-! ### Whole texts -/

/-- A parenthesis and the next are never one token. -/
theorem pair_not_mem_tokenize (text : String) : "()" ∉ tokenize text := by
  rw [tokenize_eq]
  intro hmem
  obtain ⟨run, hrun, heq⟩ := List.mem_map.mp hmem
  have hchars : run = ['(', ')'] := by
    have h := congrArg String.toList heq
    simpa using h
  have hchain := List.isChain_of_mem_splitBy (List.mem_of_mem_filter hrun)
  rw [hchars] at hchain
  have hnot : sameRun '(' ')' = false := by decide
  rw [List.isChain_pair, hnot] at hchain
  cases hchain

/-- Which of the tokens that can be read serve as a value. -/
theorem wellShaped_iff {tokens : List String} {s : Spine} (h : Spine.ofTokens tokens = .ok s)
    (hpair : "()" ∉ tokens) (hlast : ∀ last ∈ tokens.getLast?, Operator.ofSymbol? last = none) :
    WellShaped tokens ↔ s.tree.Serves .value := by
  by_cases hfirst : tokens.head? = some ")" ∨ tokens.head? = some ","
  · have hnot : ¬WellShaped tokens := by
      intro hshape
      rcases hfirst with hfirst | hfirst
      · exact hshape.first _ hfirst (by decide)
      · exact hshape.first _ hfirst (by decide)
    refine iff_of_false hnot fun hserves => ?_
    rcases hfirst with hfirst | hfirst
    · rw [Spine.eq_single_of_head h hfirst rfl (Or.inl rfl)] at hserves
      cases hserves with
      | node hadmits => cases hadmits
    · rw [Spine.eq_single_of_head h hfirst rfl (Or.inr rfl)] at hserves
      cases hserves with
      | node hadmits => cases hadmits
  · rw [not_or] at hfirst
    exact Spine.wellShaped_iff_serves h ⟨hpair, hfirst.1, hfirst.2⟩ hlast

/-- **Which texts have a value**: those that are well shaped and make only calls that are
recognised.  If only the calls are at fault, the error names the one whose argument list
ends first. -/
theorem calculate_verdict {α : Type} (m : Arithmetic α) {text : String} {e : Expression}
    (h : Expression.parse text = .ok e)
    (hlast : ∀ last ∈ (tokenize text).getLast?, Operator.ofSymbol? last = none) :
    ((∃ x, calculateIn m text = .ok x) ↔
      WellShaped (tokenize text) ∧ ∀ c ∈ callsOf (tokenize text), c.recognised = true) ∧
    (WellShaped (tokenize text) → ∀ c,
      (callsOf (tokenize text)).find? (fun c => !c.recognised) = some c →
      calculateIn m text = .error (.unrecognizedFunction (lowercase c.name) c.count)) := by
  obtain ⟨s, hs, htree⟩ := Expression.exists_spine h
  have hpair := pair_not_mem_tokenize text
  have hshape := wellShaped_iff hs hpair hlast
  have hcalculate : calculateIn m text = s.tree.evaluate m := by
    rw [calculateIn, h, ← htree]
    rfl
  have hcalls : WellShaped (tokenize text) → callsOf (tokenize text) = s.tree.calls := by
    intro hw
    have hfirst := hw.first
    refine Spine.callsOf_eq hs ⟨hpair, ?_, ?_⟩ hlast (hshape.mp hw)
    · exact fun hf => hfirst _ hf (by decide)
    · exact fun hf => hfirst _ hf (by decide)
  rw [hcalculate]
  refine ⟨?_, ?_⟩
  · rw [Tree.evaluate_eq_ok_iff]
    refine ⟨?_, ?_⟩
    · intro hboth
      obtain ⟨hserves, hrecognised⟩ := hboth
      have hw := hshape.mpr hserves
      exact ⟨hw, by rw [hcalls hw]; exact hrecognised⟩
    · intro hboth
      obtain ⟨hw, hrecognised⟩ := hboth
      rw [hcalls hw] at hrecognised
      exact ⟨hshape.mp hw, hrecognised⟩
  · intro hw c hc
    rw [hcalls hw] at hc
    have hdecided : Decides s.tree.calls (s.tree.evaluate m) := (hshape.mp hw).decided
    unfold Decides at hdecided
    rw [hc] at hdecided
    exact hdecided

/-- Both calls of `Sum(1,Foo(` end with the text, the inner one first. -/
theorem calculate_open_calls :
    let text := "Sum(1,Foo("
    (∃ e, Expression.parse text = .ok e) ∧ WellShaped (tokenize text) ∧
      calculate text = .error (.unrecognizedFunction "foo" 0) := by
  intro text
  have htokens : tokenize text = ["Sum", "(", "1", ",", "Foo", "("] := by decide
  obtain ⟨e, he⟩ : ∃ e, Expression.parse text = .ok e := by
    rw [Expression.parse, htokens]
    exact ⟨_, rfl⟩
  have hshape : WellShaped (tokenize text) := by decide
  have hlast : ∀ last ∈ (tokenize text).getLast?, Operator.ofSymbol? last = none := by decide
  have hcall : (callsOf (tokenize text)).find? (fun c => !c.recognised) = some ⟨"Foo", 0⟩ := by
    decide
  have hresult := (calculate_verdict .words he hlast).2 hshape _ hcall
  exact ⟨⟨e, he⟩, hshape, congrArg (Except.map _) hresult⟩

end Calculator
