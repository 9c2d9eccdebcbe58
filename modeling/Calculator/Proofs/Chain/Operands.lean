/-
Operands that are complete by themselves.

A number is one node, and so is a group once it is closed.  Wherever an operand is waited
for, such tokens are read as that node, and nothing of what stands around them gets inside.
That they are an expression of their own need not be assumed when they are part of one:
whether a token fits is a matter of the token before it, and only a `)` or a `,` counts for
less in front than further behind.
-/
import Calculator.Proofs.Value.Substitution

namespace Calculator

/-! ### Parts of an expression -/

/-- A token counts for the same behind other tokens, unless it is a `)` or a `,` in front. -/
theorem effectiveKind?_add {token : String} {i : Nat}
    (h : 1 ≤ i ∨ (token ≠ ")" ∧ token ≠ ",")) (n : Nat) :
    effectiveKind? (n + i) token = effectiveKind? i token := by
  unfold effectiveKind?
  rcases h with hi | ⟨hcloser, hcomma⟩
  · have hn : 1 ≤ n + i := by omega
    simp [hi, hn]
  · simp [hcloser, hcomma]

/-- Whether a token fits is a matter of the tokens that stand with it in one part. -/
theorem fits_of_append {before rest : List String} (hfront : Continuable rest) {i : Nat}
    (h : Fits (before ++ rest) (before.length + i)) : Fits rest i := by
  obtain ⟨token, kind, htoken, hkind, hbefore⟩ := h
  rw [List.getElem?_append_right (by omega), Nat.add_sub_cancel_left] at htoken
  refine ⟨token, kind, htoken, hkind, fun hi => ?_⟩
  obtain ⟨previous, counted, hprevious, heffective, hmay⟩ := hbefore (by omega)
  rw [List.getElem?_append_right (by omega),
    show before.length + i - 1 - before.length = i - 1 by omega] at hprevious
  refine ⟨previous, counted, hprevious, ?_, hmay⟩
  rw [show before.length + i - 1 = before.length + (i - 1) by omega] at heffective
  rw [← heffective]
  refine (effectiveKind?_add ?_ before.length).symm
  rcases Nat.eq_zero_or_pos (i - 1) with hzero | hpos
  · rw [hzero, ← List.head?_eq_getElem?] at hprevious
    refine Or.inr ⟨?_, ?_⟩
    · rintro rfl
      exact hfront.closer hprevious
    · rintro rfl
      exact hfront.comma hprevious
  · exact Or.inl hpos

/-- All tokens of a list fit. -/
def AllFit (tokens : List String) : Prop :=
  ∀ i < tokens.length, Fits tokens i

theorem allFit_of_ok {tokens : List String} {s : Spine} (h : Spine.ofTokens tokens = .ok s) :
    AllFit tokens := by
  rcases Spine.ofTokens_cases (Spine.ofTokens_ne_nil h) with ⟨hall, -⟩ | ⟨i, -, -, -, herror⟩
  · exact hall
  · rw [h] at herror
    cases herror

/-- **A part of an expression is one of its own**, if it does not begin with a `)` or a `,`. -/
theorem AllFit.exists_spine {before part behind : List String} (hne : part ≠ [])
    (hfront : Continuable part) (h : AllFit (before ++ (part ++ behind))) :
    ∃ s, Spine.ofTokens part = .ok s := by
  have hfront' : Continuable (part ++ behind) := by
    obtain ⟨first, rest, rfl⟩ := List.exists_cons_of_ne_nil hne
    exact ⟨hfront.closer, hfront.comma⟩
  rcases Spine.ofTokens_cases hne with ⟨-, s, hs⟩ | ⟨i, hi, hnot, -, -⟩
  · exact ⟨s, hs⟩
  · refine absurd ((Spine.fits_append hi).mp (fits_of_append hfront' (h (before.length + i) ?_))) hnot
    simp only [List.length_append]
    omega

/-- What stands next to each other fits together. -/
theorem AllFit.mayPrecede {before behind : List String} {token next : String}
    (h : AllFit (before ++ token :: next :: behind)) :
    ∃ previous incoming, effectiveKind? before.length token = some previous ∧
      Kind.of? next = some incoming ∧ previous.mayPrecede incoming = true := by
  obtain ⟨token', kind, htoken, hkind, hbefore⟩ := h (before.length + 1) (by simp)
  obtain ⟨previous, counted, hprevious, heffective, hmay⟩ := hbefore (by omega)
  simp only [Nat.add_sub_cancel] at hprevious heffective
  rw [List.getElem?_append_right (by omega)] at htoken hprevious
  simp only [Nat.sub_self, Nat.add_sub_cancel_left, List.getElem?_cons_zero,
    List.getElem?_cons_succ, Option.some.injEq] at htoken hprevious
  subst htoken hprevious
  exact ⟨counted, kind, heffective, hkind, hmay⟩

/-! ### Values of groups -/

/-- A value in a group begins as an operand does. -/
theorem AllFit.value_first {before inner behind : List String} {opener ender : String}
    (h : AllFit (before ++ opener :: (inner ++ ender :: behind)))
    (hopener : effectiveKind? before.length opener = some .openGroup)
    (hender : Kind.of? ender = some .closer ∨ Kind.of? ender = some .comma) :
    ∃ first ∈ inner.head?,
      Kind.of? first ∈ [some .number, some .openGroup, some .word, some (.operator .minus)] := by
  cases inner with
  | nil =>
      obtain ⟨previous, incoming, hprevious, hincoming, hmay⟩ := h.mayPrecede
      obtain rfl := Option.some.inj (hopener.symm.trans hprevious)
      rcases hender with hk | hk
      all_goals
        obtain rfl := Option.some.inj (hk.symm.trans hincoming)
        cases hmay
  | cons first rest =>
      obtain ⟨previous, incoming, hprevious, hincoming, hmay⟩ := h.mayPrecede
      obtain rfl := Option.some.inj (hopener.symm.trans hprevious)
      refine ⟨first, rfl, ?_⟩
      rw [hincoming]
      cases incoming with
      | number | openGroup | word => decide
      | operator op => cases op <;> first | decide | cases hmay
      | closer | closedGroup | comma => cases hmay

/-- The token `()` stands behind nothing. -/
theorem mayPrecede_closedGroup (previous : Kind) : previous.mayPrecede .closedGroup = false := by
  cases previous <;> rfl

/-- What a `)` or a `,` may stand behind is complete. -/
theorem isOperand_of_mayPrecede {previous incoming : Kind}
    (hends : incoming = .closer ∨ incoming = .comma)
    (h : previous.mayPrecede incoming = true) : previous.isOperand = true := by
  rcases hends with rfl | rfl <;> cases previous <;> first | rfl | cases h

/-- It ends as an operand does. -/
theorem AllFit.value_last {before inner behind : List String} {opener ender : String}
    (h : AllFit (before ++ opener :: (inner ++ ender :: behind))) (hne : inner ≠ [])
    (hender : Kind.of? ender = some .closer ∨ Kind.of? ender = some .comma) :
    ∃ last ∈ inner.getLast?, Kind.of? last ∈ [some .number, some .closer] := by
  obtain ⟨init, last, rfl⟩ : ∃ init last, inner = init ++ [last] :=
    ⟨_, _, (List.dropLast_append_getLast hne).symm⟩
  refine ⟨last, by simp, ?_⟩
  have hsame : before ++ opener :: (init ++ [last] ++ ender :: behind) =
      (before ++ opener :: init) ++ last :: ender :: behind := by simp
  have hpos : 1 ≤ (before ++ opener :: init).length := by
    rw [List.length_append, List.length_cons]
    omega
  rw [hsame] at h
  obtain ⟨counted, incoming, hcounted, hincoming, hmay⟩ := h.mayPrecede
  have hoperand : counted.isOperand = true := by
    refine isOperand_of_mayPrecede ?_ hmay
    exact hender.imp (fun hk => Option.some.inj (hincoming.symm.trans hk))
      (fun hk => Option.some.inj (hincoming.symm.trans hk))
  obtain ⟨token, kind, htoken, hkind, hbefore⟩ := h (before ++ opener :: init).length (by simp)
  rw [List.getElem?_append_right (Nat.le_refl _), Nat.sub_self] at htoken
  obtain rfl : last = token := Option.some.inj htoken
  obtain ⟨-, previous, -, -, hfollows⟩ := hbefore hpos
  by_cases hcloser : last = ")"
  · rw [hcloser]
    decide
  by_cases hcomma : last = ","
  · rw [effectiveKind?, if_neg (by simp [hcloser]), if_pos ⟨hpos, hcomma⟩] at hcounted
    obtain rfl := Option.some.inj hcounted
    cases hoperand
  · rw [effectiveKind?, if_neg (by simp [hcloser]), if_neg (by simp [hcomma]), hkind] at hcounted
    obtain rfl := Option.some.inj hcounted
    cases kind with
    | number => rw [hkind]; decide
    | closedGroup =>
        rw [mayPrecede_closedGroup] at hfollows
        cases hfollows
    | operator | openGroup | closer | word | comma => cases hoperand

/-- A value in a group of an expression stands for itself if its own groups match. -/
theorem AllFit.closedOperand {before inner behind : List String} {opener ender : String}
    (h : AllFit (before ++ opener :: (inner ++ ender :: behind)))
    (hopener : effectiveKind? before.length opener = some .openGroup)
    (hender : Kind.of? ender = some .closer ∨ Kind.of? ender = some .comma)
    (hdepth : (balance inner).depth = 0) (hmissing : (balance inner).missing = 0) :
    ClosedOperand inner where
  first := h.value_first hopener hender
  last := by
    refine h.value_last (fun hnil => ?_) hender
    obtain ⟨first, hfirst, -⟩ := h.value_first hopener hender
    rw [hnil] at hfirst
    cases hfirst
  closed := hdepth
  inside := hmissing

/-- By itself it is an expression as well. -/
theorem AllFit.exists_value {before inner behind : List String} {opener ender : String}
    (h : AllFit (before ++ opener :: (inner ++ ender :: behind))) (hclosed : ClosedOperand inner) :
    ∃ s, Spine.ofTokens inner = .ok s := by
  have hbegins := hclosed.toOperandEnds.begins
  have hne : inner ≠ [] := by
    obtain ⟨first, rest, kind, rfl, -⟩ := hbegins
    exact List.cons_ne_nil first rest
  have hpart : before ++ opener :: (inner ++ ender :: behind) =
      (before ++ [opener]) ++ (inner ++ ender :: behind) := by simp
  rw [hpart] at h
  exact h.exists_spine hne hbegins.continuable

/-- A `(` counts for an open group wherever it stands. -/
theorem effectiveKind?_open (i : Nat) : effectiveKind? i "(" = some .openGroup :=
  (effectiveKind?_of_ne (by rfl) Kind.noConfusion Kind.noConfusion).1

/-! ### Operands -/

/-- The tokens are a number literal, or a group around tokens whose own groups match and
that have no comma outside of these. -/
inductive IsOperand : List String → Prop
  | number {n : String} (h : Kind.of? n = some .number) : IsOperand [n]
  | group {inner : List String} (hdepth : (balance inner).depth = 0)
      (hmissing : (balance inner).missing = 0) : IsOperand ("(" :: (inner ++ [")"]))

/-- The tree of the tokens, if they are an expression. -/
def treeOf (tokens : List String) : Tree :=
  match Expression.ofTokens tokens with
  | .ok e => e.tree
  | .error _ => default

namespace Spine

/-- Wherever an operand is waited for, the tokens are read as one complete node. -/
structure ReadsAs (tokens : List String) (f : Frame) : Prop where
  operand : f.kind.isOperand = true
  reads : ∀ above, Awaiting above → ∀ rest,
    readBelow above (tokens ++ rest) = rest.foldlM step ⟨f, above⟩

/-- By themselves they are an expression, and the node is its tree. -/
theorem ReadsAs.exists_tree {tokens : List String} {f : Frame} (h : ReadsAs tokens f) :
    ∃ e, Expression.ofTokens tokens = .ok e ∧ e.tree = f.tree := by
  have hread := h.reads [] trivial []
  rw [List.append_nil] at hread
  exact Expression.ofTokens_of_spine hread

theorem ReadsAs.treeOf_eq {tokens : List String} {f : Frame} (h : ReadsAs tokens f) :
    treeOf tokens = f.tree := by
  obtain ⟨e, he, htree⟩ := h.exists_tree
  rw [treeOf, he]
  exact htree

/-- The cursor stands on it, whatever comes behind. -/
theorem ReadsAs.stands {tokens : List String} {f : Frame} (h : ReadsAs tokens f)
    {above : List Frame} (hawaiting : Awaiting above) (rest : List String) :
    ∃ s, readBelow above (tokens ++ rest) = rest.foldlM step s ∧
      Stands s (treeOf tokens) above rest := by
  refine ⟨⟨f, above⟩, h.reads above hawaiting rest, ?_⟩
  rw [h.treeOf_eq]
  exact stands_self h.operand above rest

theorem readsAs_number {n : String} (h : Kind.of? n = some .number) :
    ReadsAs [n] ⟨n, .number, []⟩ where
  operand := rfl
  reads := fun _ hawaiting rest => readBelow_cons hawaiting h rfl rest

theorem readsAs_group {inner : List String} (h : ClosedOperand inner) {s : Spine}
    (hs : ofTokens inner = .ok s) :
    ReadsAs ("(" :: (inner ++ [")"])) ⟨"()", .closedGroup, [s.tree]⟩ where
  operand := rfl
  reads := by
    intro above hawaiting rest
    rw [List.cons_append, readBelow_group hawaiting, List.append_assoc]
    exact readBelow_group_closed h hs above rest

end Spine

/-- **An operand that is part of an expression is read as one node.** -/
theorem IsOperand.readsAs {tokens before behind : List String} (h : IsOperand tokens)
    (hfit : AllFit (before ++ (tokens ++ behind))) : ∃ f, Spine.ReadsAs tokens f := by
  cases h with
  | number hnumber => exact ⟨_, Spine.readsAs_number hnumber⟩
  | @group inner hdepth hmissing =>
      rw [List.cons_append, List.append_assoc] at hfit
      have hclosed := hfit.closedOperand (effectiveKind?_open _) (Or.inl rfl) hdepth hmissing
      obtain ⟨s, hs⟩ := hfit.exists_value hclosed
      exact ⟨_, Spine.readsAs_group hclosed hs⟩

end Calculator
