/-
Which token lists are expressions: a matter of neighbours.

Whether a token may come next is decided by the node the cursor is on, and the cursor
has climbed, jumped to a group, or stands on a group nobody wrote.  All of that leaves
no trace here.  The kind and the text of the current frame are functions of the last
token alone: of the token itself, or of the group that a `)` has just closed or that a
`,` has just returned to.

So a list of tokens is an expression when every token has a kind and every two
neighbours fit together, and otherwise the first place where that fails gives the
error.  Brackets need not match for it.
-/
import Calculator.Proofs.Spine.Proper
import Calculator.Proofs.Spine.Reading

namespace Calculator

/-! ### What a token sees of the one before -/

/-- The kind of the token at place `i` as the next token sees it.  A `)` has closed a group
by then, and a `,` has returned to an open one, unless nothing was there before. -/
def effectiveKind? (i : Nat) (token : String) : Option Kind :=
  if 1 ≤ i ∧ token = ")" then some .closedGroup
  else if 1 ≤ i ∧ token = "," then some .openGroup
  else Kind.of? token

/-- The text of the token at place `i` as the next token sees it. -/
def effectiveText (i : Nat) (token : String) : String :=
  if 1 ≤ i ∧ token = ")" then "()" else if 1 ≤ i ∧ token = "," then "(" else token

/-- The tokens end as an operand does. -/
def EndsOperand (tokens : List String) : Prop :=
  ∃ last ∈ tokens.getLast?, Kind.of? last ∈ [some .number, some .closer, some .closedGroup]

instance (tokens : List String) : Decidable (EndsOperand tokens) :=
  inferInstanceAs (Decidable (∃ last ∈ _, _))

/-- May a token of kind `incoming` stand after one that counts as `previous`? -/
def Kind.mayPrecede (previous incoming : Kind) : Bool :=
  match previous, incoming with
  | .number, .operator _ | .number, .closer | .number, .comma | .number, .word => true
  | .closedGroup, .operator _ | .closedGroup, .closer | .closedGroup, .comma
  | .closedGroup, .word => true
  | .number, .openGroup => true
  | .operator _, .number | .operator _, .openGroup | .operator _, .word
  | .operator _, .operator .minus => true
  | .openGroup, .number | .openGroup, .openGroup | .openGroup, .word
  | .openGroup, .operator .minus => true
  | .word, .openGroup => true
  | _, _ => false

/-- The token at place `i` has a kind, and it may stand after the one before, if any. -/
def Fits (tokens : List String) (i : Nat) : Prop :=
  ∃ token kind, tokens[i]? = some token ∧ Kind.of? token = some kind ∧
    (1 ≤ i → ∃ previous before, tokens[i - 1]? = some previous ∧
      effectiveKind? (i - 1) previous = some before ∧ before.mayPrecede kind = true)

/-- The error that the token at place `i` gives if it does not fit. -/
def misfit (tokens : List String) (i : Nat) : Error :=
  let token := tokens.getD i ""
  match Kind.of? token with
  | none => .invalidToken token
  | some _ => .invalidSequence (effectiveText (i - 1) (tokens.getD (i - 1) "")) token

theorem fits_iff (tokens : List String) (i : Nat) : Fits tokens i ↔
    (tokens[i]?.bind Kind.of?).any (fun kind => i = 0 ||
      (tokens[i - 1]?.bind (effectiveKind? (i - 1))).any (·.mayPrecede kind)) = true := by
  simp only [Fits, Option.any_eq_true, Option.bind_eq_some_iff, Bool.or_eq_true,
    decide_eq_true_eq]
  refine ⟨?_, ?_⟩
  · intro hex
    obtain ⟨token, kind, htoken, hkind, hbefore⟩ := hex
    refine ⟨kind, ⟨token, htoken, hkind⟩, ?_⟩
    rcases Nat.eq_zero_or_pos i with hzero | hpos
    · exact Or.inl hzero
    · obtain ⟨previous, before, hprevious, heff, hmay⟩ := hbefore hpos
      exact Or.inr ⟨before, ⟨previous, hprevious, heff⟩, hmay⟩
  · intro hex
    obtain ⟨kind, ⟨token, htoken, hkind⟩, hbefore⟩ := hex
    refine ⟨token, kind, htoken, hkind, fun hpos => ?_⟩
    rcases hbefore with hzero | ⟨before, ⟨previous, hprevious, heff⟩, hmay⟩
    · omega
    · exact ⟨previous, before, hprevious, heff, hmay⟩

instance (tokens : List String) (i : Nat) : Decidable (Fits tokens i) :=
  decidable_of_iff _ (fits_iff tokens i).symm

theorem placement_isSome (previous incoming : Kind) :
    (Placement.of? previous incoming).isSome = previous.mayPrecede incoming := by
  unfold Placement.of? Kind.mayPrecede
  split <;> simp_all

theorem effectiveKind?_of_ne {i : Nat} {token : String} {kind : Kind}
    (h : Kind.of? token = some kind) (hcloser : kind ≠ .closer) (hcomma : kind ≠ .comma) :
    effectiveKind? i token = some kind ∧ effectiveText i token = token := by
  have hne : token ≠ ")" ∧ token ≠ "," := by
    refine ⟨?_, ?_⟩
    · intro hsame
      subst hsame
      exact hcloser (Option.some.inj h).symm
    · intro hsame
      subst hsame
      exact hcomma (Option.some.inj h).symm
  simp [effectiveKind?, effectiveText, hne.1, hne.2, h]

/-! ### The current frame is known from the last token -/

namespace Spine

/-- The current frame is what the last token counts as. -/
def Reflects (tokens : List String) (s : Spine) : Prop :=
  ∃ token, tokens[tokens.length - 1]? = some token ∧
    effectiveKind? (tokens.length - 1) token = some s.current.kind ∧
    effectiveText (tokens.length - 1) token = s.current.value

theorem reflects_place {tokens : List String} {s : Spine} {token : String} {kind : Kind}
    {placement : Placement} (hne : tokens ≠ []) (hproper : s.Proper)
    (hkind : Kind.of? token = some kind)
    (hplace : Placement.of? s.current.kind kind = some placement) :
    Reflects (tokens ++ [token]) (s.place token kind placement) := by
  have hpos : 1 ≤ tokens.length := List.length_pos_iff.mpr hne
  refine ⟨token, by simp, ?_⟩
  rw [show (tokens ++ [token]).length - 1 = tokens.length by simp]
  -- A token that makes a node is the current frame itself.
  have hmade : ∀ k, k ≠ .closer → k ≠ .comma → Kind.of? token = some k →
      effectiveKind? tokens.length token = some k ∧
        effectiveText tokens.length token = token :=
    fun k hcloser hcomma hk => effectiveKind?_of_ne hk hcloser hcomma
  cases placement with
  | rightOf op =>
      obtain ⟨-, rfl⟩ := Placement.of?_eq_rightOf hplace
      exact hmade _ Kind.noConfusion Kind.noConfusion hkind
  | below =>
      rcases Placement.of?_eq_below hplace with ⟨-, hbegins⟩ | ⟨-, rfl⟩
      · refine hmade kind ?_ ?_ hkind
        · intro hsame
          subst hsame
          cases hbegins
        · intro hsame
          subst hsame
          cases hbegins
      · exact hmade _ Kind.noConfusion Kind.noConfusion hkind
  | factor =>
      rcases Placement.of?_eq_factor hplace with ⟨-, rfl | rfl⟩ | ⟨-, rfl⟩
      all_goals exact hmade _ Kind.noConfusion Kind.noConfusion hkind
  | close =>
      obtain ⟨hoperand, rfl⟩ := Placement.of?_eq_close hplace
      obtain rfl := Kind.eq_of_spelling hkind rfl
      have hvalue := (hproper.enclose hoperand).2
      refine ⟨by simp [effectiveKind?, hpos, place, close, Frame.closed], ?_⟩
      show effectiveText tokens.length ")" = s.enclose.current.value ++ ")"
      rw [hvalue]
      simp [effectiveText, hpos]
  | separate =>
      obtain ⟨hoperand, rfl⟩ := Placement.of?_eq_separate hplace
      obtain rfl := Kind.eq_of_spelling hkind rfl
      have hvalue := (hproper.enclose hoperand).2
      refine ⟨?_, ?_⟩
      · show effectiveKind? tokens.length "," = some s.enclose.current.kind
        rw [kind_enclose s]
        simp [effectiveKind?, hpos]
      · show effectiveText tokens.length "," = s.enclose.current.value
        rw [hvalue]
        simp [effectiveText, hpos]

/-- **The current frame is a function of the last token.** -/
theorem reflects_ofTokens {tokens : List String} {s : Spine} (h : ofTokens tokens = .ok s) :
    Reflects tokens s := by
  refine ofTokens_induction (P := Reflects) ?_ ?_ tokens s h
  · intro token kind hkind
    refine ⟨token, rfl, ?_, ?_⟩
    · simpa [effectiveKind?] using hkind
    · simp [effectiveText]
  · intro tokens s token kind placement hread _ hkind hplace
    exact reflects_place (ofTokens_ne_nil hread) (proper_ofTokens hread) hkind hplace

/-- Tokens end as an operand does exactly if the current frame is one, unless they are a `)`
alone. -/
theorem endsOperand_iff {tokens : List String} {s : Spine} (h : ofTokens tokens = .ok s)
    (hcloser : s.current.kind ≠ .closer) :
    EndsOperand tokens ↔ s.current.kind.isOperand = true := by
  obtain ⟨last, hlast, hkind, -⟩ := reflects_ofTokens h
  rw [← List.getLast?_eq_getElem?] at hlast
  have hends : EndsOperand tokens ↔
      Kind.of? last ∈ [some .number, some .closer, some .closedGroup] := by
    simp [EndsOperand, hlast]
  rw [hends]
  unfold effectiveKind? at hkind
  split at hkind
  · rename_i hclosed
    rw [hclosed.2, ← Option.some.inj hkind]
    decide
  · split at hkind
    · rename_i hcomma
      rw [hcomma.2, ← Option.some.inj hkind]
      decide
    · rw [hkind]
      cases hk : s.current.kind <;> simp_all [Kind.isOperand]

/-! ### One token more -/

/-- Whether a token fits is a matter of the tokens up to it. -/
theorem fits_append {tokens rest : List String} {i : Nat} (h : i < tokens.length) :
    Fits (tokens ++ rest) i ↔ Fits tokens i := by
  unfold Fits
  rw [List.getElem?_append_left h, List.getElem?_append_left (by omega : i - 1 < tokens.length)]

theorem misfit_append {tokens rest : List String} {i : Nat} (h : i < tokens.length) :
    misfit (tokens ++ rest) i = misfit tokens i := by
  simp only [misfit, List.getD_eq_getElem?_getD, List.getElem?_append_left h,
    List.getElem?_append_left (by omega : i - 1 < tokens.length)]

/-- A token that is added to what was read fits, or gives its error. -/
theorem step_eq_misfit {tokens : List String} {s : Spine} (h : ofTokens tokens = .ok s)
    (token : String) :
    (Fits (tokens ++ [token]) tokens.length ∧ ∃ next, s.step token = .ok next) ∨
      (¬Fits (tokens ++ [token]) tokens.length ∧
        s.step token = .error (misfit (tokens ++ [token]) tokens.length)) := by
  obtain ⟨last, hlast, hkind, htext⟩ := reflects_ofTokens h
  have hpos : 1 ≤ tokens.length := List.length_pos_iff.mpr (ofTokens_ne_nil h)
  have hlast' : (tokens ++ [token])[tokens.length - 1]? = some last := by
    rw [List.getElem?_append_left (by omega), hlast]
  have htoken : (tokens ++ [token])[tokens.length]? = some token := by simp
  have hmisfit : misfit (tokens ++ [token]) tokens.length =
      match Kind.of? token with
      | none => .invalidToken token
      | some _ => .invalidSequence s.current.value token := by
    simp only [misfit, List.getD_eq_getElem?_getD, htoken, hlast', Option.getD_some, htext]
  rw [hmisfit]
  unfold step Kind.classify
  cases hk : Kind.of? token with
  | none =>
      refine Or.inr ⟨?_, rfl⟩
      intro hex
      obtain ⟨token', kind, htoken', hkind', -⟩ := hex
      rw [htoken] at htoken'
      obtain rfl := Option.some.inj htoken'
      rw [hk] at hkind'
      cases hkind'
  | some kind =>
      have hfits : Fits (tokens ++ [token]) tokens.length ↔
          s.current.kind.mayPrecede kind = true := by
        refine ⟨?_, ?_⟩
        · intro hex
          obtain ⟨token', kind', htoken', hkind', hbefore⟩ := hex
          rw [htoken] at htoken'
          obtain rfl := Option.some.inj htoken'
          obtain ⟨previous, before, hprevious, heff, hmay⟩ := hbefore hpos
          rw [hlast'] at hprevious
          obtain rfl := Option.some.inj hprevious
          rw [hk] at hkind'
          rw [hkind] at heff
          obtain rfl := Option.some.inj hkind'
          obtain rfl := Option.some.inj heff
          exact hmay
        · intro hmay
          exact ⟨token, kind, htoken, hk, fun _ => ⟨last, _, hlast', hkind, hmay⟩⟩
      have hsome := placement_isSome s.current.kind kind
      rw [hfits, ← hsome]
      simp only [bind, Except.bind]
      cases Placement.of? s.current.kind kind with
      | none => exact Or.inr ⟨by simp, rfl⟩
      | some placement => exact Or.inl ⟨rfl, _, rfl⟩

theorem start_eq_misfit (token : String) :
    (Fits [token] 0 ∧ ∃ s, start token = .ok s) ∨
      (¬Fits [token] 0 ∧ start token = .error (misfit [token] 0)) := by
  have hfits : Fits [token] 0 ↔ ∃ kind, Kind.of? token = some kind := by
    simp [Fits]
  rw [hfits]
  unfold start Kind.classify misfit
  cases hk : Kind.of? token with
  | none => exact Or.inr ⟨by simp, by simp [hk, bind, Except.bind]⟩
  | some kind => exact Or.inl ⟨⟨kind, rfl⟩, _, rfl⟩

/-- **Tokens that all fit are read, and otherwise the first that does not is the error.** -/
theorem ofTokens_cases {tokens : List String} (hne : tokens ≠ []) :
    ((∀ i < tokens.length, Fits tokens i) ∧ ∃ s, ofTokens tokens = .ok s) ∨
      ∃ i < tokens.length, ¬Fits tokens i ∧ (∀ j < i, Fits tokens j) ∧
        ofTokens tokens = .error (misfit tokens i) := by
  induction tokens using List.reverseRecOn with
  | nil => exact absurd rfl hne
  | append_singleton tokens token ih =>
      by_cases hnil : tokens = []
      · subst hnil
        have hstart : ofTokens [token] = start token := by
          show (start token >>= fun s => pure s) = start token
          rw [bind_pure]
        rw [List.nil_append, hstart]
        rcases start_eq_misfit token with ⟨hfits, hok⟩ | ⟨hmisfit, herror⟩
        · refine Or.inl ⟨fun i hi => ?_, hok⟩
          obtain rfl : i = 0 := by simpa using hi
          exact hfits
        · exact Or.inr ⟨0, by simp, hmisfit, by simp, herror⟩
      · rw [ofTokens_concat hnil]
        rcases ih hnil with ⟨hall, s, hs⟩ | ⟨i, hi, hmisfit, hbefore, herror⟩
        · have hall' : ∀ i < tokens.length, Fits (tokens ++ [token]) i :=
            fun i hi => (fits_append hi).mpr (hall i hi)
          rw [hs]
          rcases step_eq_misfit hs token with ⟨hfits, hok⟩ | ⟨hmisfit, herror⟩
          · refine Or.inl ⟨fun i hi => ?_, hok⟩
            rw [List.length_append, List.length_singleton] at hi
            rcases Nat.lt_succ_iff_lt_or_eq.mp hi with hlt | rfl
            · exact hall' i hlt
            · exact hfits
          · exact Or.inr ⟨tokens.length, by simp, hmisfit, hall', herror⟩
        · refine Or.inr ⟨i, by simp; omega, ?_, fun j hj => ?_, ?_⟩
          · rwa [fits_append hi]
          · exact (fits_append (by omega)).mpr (hbefore j hj)
          · rw [herror, misfit_append hi]
            rfl

end Spine

/-! ### The verdict -/

/-- **Neighbours decide**: no tokens are an error of their own; otherwise the tokens are an
expression exactly if each of them fits, and the first that does not is the error. -/
theorem ofTokens_verdict (tokens : List String) :
    (Expression.ofTokens tokens = .error .emptyExpression ↔ tokens = []) ∧
    ((∃ e, Expression.ofTokens tokens = .ok e) ↔
      tokens ≠ [] ∧ ∀ i < tokens.length, Fits tokens i) ∧
    ∀ i < tokens.length, ¬Fits tokens i → (∀ j < i, Fits tokens j) →
      Expression.ofTokens tokens = .error (misfit tokens i) := by
  have hmisfit : ∀ i, misfit tokens i ≠ .emptyExpression := by
    intro i
    unfold misfit
    simp only
    split <;> exact Error.noConfusion
  refine ⟨⟨?_, ?_⟩, ⟨?_, ?_⟩, ?_⟩
  · intro h
    by_contra hne
    rw [Expression.ofTokens_eq_error_iff] at h
    rcases Spine.ofTokens_cases hne with ⟨-, s, hs⟩ | ⟨i, -, -, -, herror⟩
    · rw [hs] at h
      cases h
    · rw [herror] at h
      exact hmisfit i (Except.error.inj h)
  · intro hsame
    subst hsame
    rfl
  · intro hex
    obtain ⟨e, he⟩ := hex
    obtain ⟨s, hs, -⟩ := Expression.exists_spine he
    have hne := Spine.ofTokens_ne_nil hs
    refine ⟨hne, ?_⟩
    rcases Spine.ofTokens_cases hne with ⟨hall, -⟩ | ⟨i, -, -, -, herror⟩
    · exact hall
    · rw [hs] at herror
      cases herror
  · intro hboth
    obtain ⟨hne, hall⟩ := hboth
    rcases Spine.ofTokens_cases hne with ⟨-, s, hs⟩ | ⟨i, hi, hnot, -, -⟩
    · obtain ⟨e, he, -⟩ := Expression.ofTokens_of_spine hs
      exact ⟨e, he⟩
    · exact absurd (hall i hi) hnot
  · intro i hi hnot hbefore
    have hne : tokens ≠ [] := by
      intro hsame
      subst hsame
      simp at hi
    rw [Expression.ofTokens_eq_error_iff]
    rcases Spine.ofTokens_cases hne with ⟨hall, -⟩ | ⟨j, hj, hnotj, hbeforej, herror⟩
    · exact absurd (hall i hi) hnot
    · -- Both are the least place that does not fit.
      obtain rfl : i = j := by
        rcases Nat.lt_trichotomy i j with hlt | heq | hgt
        · exact absurd (hbeforej i hlt) hnot
        · exact heq
        · exact absurd (hbefore j hgt) hnotj
      exact herror

/-- A second group right after a group is refused, under the name that the first one has by
then. -/
theorem ofTokens_group_after_group :
    ¬Fits ["(", "1", ")", "("] 3 ∧ (∀ j < 3, Fits ["(", "1", ")", "("] j) ∧
      Expression.ofTokens ["(", "1", ")", "("] = .error (.invalidSequence "()" "(") := by
  have hnot : ¬Fits ["(", "1", ")", "("] 3 := by decide
  have hbefore : ∀ j < 3, Fits ["(", "1", ")", "("] j := by decide
  exact ⟨hnot, hbefore, (ofTokens_verdict ["(", "1", ")", "("]).2.2 3 (by decide) hnot hbefore⟩

end Calculator
