/-
Nothing is lost, doubled or moved.

The tree of an expression, written out again, is the list of tokens it was read from, up
to two additions.  Where a product is implied its symbol stands between the factors, and
every `)` or `,` that found no open group has its `(` in front of everything.  How many
of those there are is known from the parentheses and commas alone.

The invariant of reading is `Written`: the text of the spine is the text of the tokens
so far, and as many groups are open as a count of parentheses says.  A step adds its own
token to the text, so the only question in each of its cases is what else it adds.
-/
import Calculator.Proofs.Neighbours
import Calculator.Proofs.Text.Depth

namespace Calculator

/-! ### What is added to the tokens -/

/-- Is there a product between the two tokens although no symbol is written? -/
def implied (a b : String) : Bool :=
  match Kind.of? a, Kind.of? b with
  | some .number, some .openGroup | some .number, some .word | some .closer, some .word => true
  | _, _ => false

theorem implied_iff {a b : String} {x y : Kind} (ha : Kind.of? a = some x)
    (hb : Kind.of? b = some y) : implied a b = true ↔
      (x = .number ∧ (y = .openGroup ∨ y = .word)) ∨ (x = .closer ∧ y = .word) := by
  unfold implied
  rw [ha, hb]
  cases x <;> cases y <;> simp

/-- The same for tokens that need not be plain: a pair of parentheses that is one token counts
as the `)` it ends with. -/
def juxtaposed (a b : String) : Bool :=
  implied a b || (a = "()" && implied ")" b)

theorem juxtaposed_iff {a b : String} {x y : Kind} (ha : Kind.of? a = some x)
    (hb : Kind.of? b = some y) : juxtaposed a b = true ↔
      (x = .number ∧ (y = .openGroup ∨ y = .word)) ∨
        ((x = .closer ∨ x = .closedGroup) ∧ y = .word) := by
  have hpair : a = "()" ↔ x = .closedGroup := by
    refine ⟨?_, ?_⟩
    · rintro rfl
      exact (Option.some.inj ha).symm
    · rintro rfl
      exact Kind.eq_of_spelling ha rfl
  have hcloser : Kind.of? ")" = some .closer := rfl
  simp only [juxtaposed, Bool.or_eq_true, Bool.and_eq_true, decide_eq_true_eq,
    implied_iff ha hb, implied_iff hcloser hb, hpair]
  cases x <;> simp

/-- The tokens with a `*` wherever a product is implied. -/
def withProducts : List String → List String
  | [] => []
  | [token] => [token]
  | a :: b :: rest =>
      if implied a b then a :: "*" :: withProducts (b :: rest) else a :: withProducts (b :: rest)

theorem withProducts_concat {tokens : List String} {last : String}
    (hlast : tokens.getLast? = some last) (token : String) :
    withProducts (tokens ++ [token]) =
      withProducts tokens ++ if implied last token then ["*", token] else [token] := by
  induction tokens with
  | nil => cases hlast
  | cons a rest ih =>
      cases rest with
      | nil =>
          obtain rfl : a = last := Option.some.inj hlast
          simp only [List.cons_append, List.nil_append, withProducts]
          split <;> rfl
      | cons b rest =>
          have hrest : (b :: rest).getLast? = some last := by
            rw [← hlast, List.getLast?_cons_cons]
          simp only [List.cons_append] at ih ⊢
          rw [withProducts, withProducts, ih hrest]
          split <;> simp

/-! ### What the last token tells -/

namespace Spine

/-- What plain tokens end in, by what their current frame is. -/
theorem Reflects.last {tokens : List String} {s : Spine} (h : Reflects tokens s)
    (hplain : Plain tokens) : ∃ last, tokens.getLast? = some last ∧
      ((last = ")" ∧ s.current.kind = .closedGroup) ∨
        (last = "," ∧ s.current.kind = .openGroup) ∨
        (Kind.of? last = some s.current.kind ∧ last = s.current.value ∧ last ≠ "," ∧
          s.current.kind ≠ .closer ∧ s.current.kind ≠ .closedGroup)) := by
  obtain ⟨last, hlast, hkind, htext⟩ := h
  refine ⟨last, by rw [List.getLast?_eq_getElem?, hlast], ?_⟩
  -- Only the first token of all counts as itself when it is a `)` or a `,`.
  have hfirst : ∀ text, tokens.head? ≠ some text → last = text → 1 ≤ tokens.length - 1 := by
    rintro text hne rfl
    refine Nat.one_le_iff_ne_zero.mpr fun hzero => hne ?_
    rw [List.head?_eq_getElem?, ← hlast, hzero]
  by_cases hcloser : last = ")"
  · refine Or.inl ⟨hcloser, ?_⟩
    rw [effectiveKind?, if_pos ⟨hfirst _ hplain.closer hcloser, hcloser⟩] at hkind
    exact (Option.some.inj hkind).symm
  · by_cases hcomma : last = ","
    · refine Or.inr (Or.inl ⟨hcomma, ?_⟩)
      rw [effectiveKind?, if_neg (fun h => hcloser h.2),
        if_pos ⟨hfirst _ hplain.comma hcomma, hcomma⟩] at hkind
      exact (Option.some.inj hkind).symm
    · rw [effectiveKind?, if_neg (fun h => hcloser h.2), if_neg (fun h => hcomma h.2)] at hkind
      rw [effectiveText, if_neg (fun h => hcloser h.2), if_neg (fun h => hcomma h.2)] at htext
      refine Or.inr (Or.inr ⟨hkind, htext, hcomma, ?_, ?_⟩)
      · intro hk
        rw [hk] at hkind
        exact hcloser (Kind.eq_of_spelling hkind rfl)
      · intro hk
        rw [hk] at hkind
        obtain rfl := Kind.eq_of_spelling hkind rfl
        exact hplain.pair (List.mem_of_getElem? hlast)

/-- A product is implied exactly where the table of placements makes a factor. -/
theorem Reflects.factor_iff {tokens : List String} {s : Spine} (h : Reflects tokens s)
    (hplain : Plain tokens) {token : String} {kind : Kind} {placement : Placement}
    (hkind : Kind.of? token = some kind)
    (hplace : Placement.of? s.current.kind kind = some placement) :
    ∃ last, tokens.getLast? = some last ∧ (implied last token = true ↔ placement = .factor) := by
  obtain ⟨last, hlast, hcases⟩ := h.last hplain
  refine ⟨last, hlast, ?_⟩
  rw [Placement.eq_factor_iff hplace]
  rcases hcases with ⟨rfl, hcurrent⟩ | ⟨rfl, hcurrent⟩ | ⟨hcurrent, -, -, hcloser, hclosed⟩
  · have hlast : Kind.of? ")" = some .closer := rfl
    simp [implied_iff hlast hkind, hcurrent]
  · have hlast : Kind.of? "," = some .comma := rfl
    simp [implied_iff hlast hkind, hcurrent]
  · simp [implied_iff hcurrent hkind, hcloser, hclosed]

/-- Where two tokens are next to each other without a symbol, the table of placements makes a
factor of the second one. -/
theorem Reflects.juxtaposed_iff {tokens : List String} {s : Spine} (h : Reflects tokens s)
    {token : String} {kind : Kind} {placement : Placement} (hkind : Kind.of? token = some kind)
    (hplace : Placement.of? s.current.kind kind = some placement) :
    ∃ last, tokens.getLast? = some last ∧
      (juxtaposed last token = true ↔ placement = .factor) := by
  obtain ⟨last, hlast, hcurrent, -⟩ := h
  refine ⟨last, by rw [List.getLast?_eq_getElem?, hlast], ?_⟩
  rw [Placement.eq_factor_iff hplace]
  unfold effectiveKind? at hcurrent
  split at hcurrent
  · rename_i hcloser
    obtain ⟨-, rfl⟩ := hcloser
    have hlast : Kind.of? ")" = some .closer := rfl
    simp [Calculator.juxtaposed_iff hlast hkind, ← Option.some.inj hcurrent]
  · split at hcurrent
    · rename_i hcomma
      obtain ⟨-, rfl⟩ := hcomma
      have hlast : Kind.of? "," = some .comma := rfl
      simp [Calculator.juxtaposed_iff hlast hkind, ← Option.some.inj hcurrent]
    · -- Behind a `)` that comes first nothing can be placed.
      have hcloser : s.current.kind ≠ .closer := by
        intro hsame
        rw [hsame] at hplace
        cases hplace
      simp [Calculator.juxtaposed_iff hcurrent hkind, hcloser]

/-- A token that hangs from the one before is under the cursor, without children. -/
theorem current_of_last {tokens : List String} {s : Spine} (h : ofTokens tokens = .ok s)
    {last : String} {kind : Kind} (hlast : tokens.getLast? = some last)
    (hkind : Kind.of? last = some kind) (hoperator : ∀ op, kind ≠ .operator op)
    (hcloser : kind ≠ .closer) (hcomma : kind ≠ .comma) : s.current = ⟨last, kind, []⟩ := by
  refine ofTokens_induction (P := fun tokens s => tokens.getLast? = some last →
    s.current = ⟨last, kind, []⟩) ?_ ?_ tokens s h hlast
  · intro token k hk hlast
    obtain rfl : token = last := Option.some.inj hlast
    rw [Option.some.inj (hkind.symm.trans hk)]
  · intro tokens s token k placement _ _ hk hplace hlast
    obtain rfl : token = last := by simpa using hlast
    obtain rfl := Option.some.inj (hkind.symm.trans hk)
    cases placement with
    | rightOf op => exact absurd (Placement.of?_eq_rightOf hplace).2 (hoperator op)
    | below | factor => rfl
    | close => exact absurd (Placement.of?_eq_close hplace).2 hcloser
    | separate => exact absurd (Placement.of?_eq_separate hplace).2 hcomma

/-! ### One step -/

/-- The text of the spine is that of the tokens, and as many groups are open. -/
structure Written (tokens : List String) (s : Spine) : Prop where
  depth : s.opens = (balance tokens).depth
  text : s.text = List.replicate (balance tokens).missing "(" ++ withProducts tokens

section Step

variable {tokens : List String} {s : Spine} {token last : String} {kind : Kind}

/-- A token that becomes a node only has to write itself. -/
theorem Written.text_add (h : Written tokens s) {next : Spine}
    (hlast : tokens.getLast? = some last) (hkind : Kind.of? token = some kind)
    (hcloser : kind ≠ .closer) (hcomma : kind ≠ .comma)
    (htext : next.text = s.text ++ if implied last token then ["*", token] else [token]) :
    next.text = List.replicate (balance (tokens ++ [token])).missing "(" ++
      withProducts (tokens ++ [token]) := by
  rw [balance_concat, Balance.step_eq hkind hcloser hcomma, htext, h.text,
    withProducts_concat hlast, List.append_assoc]

/-- A token that needs an open group has one put in front where there is none. -/
theorem Written.linear_enclose (h : Written tokens s) (hproper : s.Proper)
    (hoperand : s.current.kind.isOperand = true) : s.enclose.tree.linear =
      List.replicate ((balance tokens).missing + if (balance tokens).depth = 0 then 1 else 0) "(" ++
        withProducts tokens := by
  rw [hproper.enclose_text hoperand, h.depth, h.text]
  by_cases hzero : (balance tokens).depth = 0
  · rw [if_pos hzero, if_pos hzero, List.replicate_succ]
    rfl
  · rw [if_neg hzero, if_neg hzero]
    rfl

/-- The parenthesis that is put in front is the one that is counted as missing. -/
theorem missing_concat (tokens : List String) (hends : token = ")" ∨ token = ",") :
    (balance (tokens ++ [token])).missing =
      (balance tokens).missing + if (balance tokens).depth = 0 then 1 else 0 := by
  rw [balance_concat]
  rcases hends with rfl | rfl <;> by_cases hzero : (balance tokens).depth = 0 <;>
    simp [Balance.step, hzero]

/-- **Every placement writes its token, and nothing else changes.** -/
theorem Written.place (h : Written tokens s) (hproper : s.Proper) (hreflects : Reflects tokens s)
    (hplain : Plain tokens) {placement : Placement} (hkind : Kind.of? token = some kind)
    (hplace : Placement.of? s.current.kind kind = some placement) :
    Written (tokens ++ [token]) (s.place token kind placement) := by
  obtain ⟨last, hlast, hfactor⟩ := hreflects.factor_iff hplain hkind hplace
  have hproduct : placement ≠ .factor → implied last token = false := by
    intro hne
    rw [← Bool.not_eq_true, hfactor]
    exact hne
  refine ⟨opens_place h.depth hkind hplace, ?_⟩
  cases placement with
  | rightOf op =>
      obtain ⟨hoperand, rfl⟩ := Placement.of?_eq_rightOf hplace
      have hrises := rises_leftOperand s op (not_open_of_isOperand hoperand)
      have hpending : ∀ f ∈ (s.leftOperand op).above, f.Pending :=
        fun f hf => hproper.above f (hrises.above_subset hf)
      refine h.text_add hlast hkind Kind.noConfusion Kind.noConfusion ?_
      rw [Spine.place, text_operate hpending, hrises.tree_eq, hproper.text_eq hoperand,
        hproduct (by simp)]
      rfl
  | below =>
      obtain ⟨hcurrent, hcloser, hcomma, hgroup⟩ := Placement.kinds_of_below hplace
      refine h.text_add hlast hkind hcloser hcomma ?_
      rw [Spine.place, text_hang hcurrent hkind hgroup, hproduct (by simp)]
      rfl
  | factor =>
      obtain ⟨hoperand, hcloser, hcomma, hgroup⟩ := Placement.kinds_of_factor hplace
      refine h.text_add hlast hkind hcloser hcomma ?_
      rw [Spine.place, multiply, text_hang rfl hkind hgroup, text_operate hproper.above,
        hproper.text_eq hoperand, if_pos (hfactor.mpr rfl), List.append_assoc]
      rfl
  | close =>
      obtain ⟨hoperand, rfl⟩ := Placement.of?_eq_close hplace
      obtain rfl := Kind.eq_of_spelling hkind rfl
      rw [Spine.place, text_close (hproper.enclose hoperand).1, h.linear_enclose hproper hoperand,
        missing_concat tokens (Or.inl rfl), withProducts_concat hlast, hproduct (by simp),
        List.append_assoc]
      rfl
  | separate =>
      obtain ⟨hoperand, rfl⟩ := Placement.of?_eq_separate hplace
      obtain rfl := Kind.eq_of_spelling hkind rfl
      have hchildren := children_enclose (not_open_of_isOperand hoperand)
      rw [Spine.place, text_enclose (hproper.enclose hoperand).1 hchildren,
        h.linear_enclose hproper hoperand, missing_concat tokens (Or.inr rfl),
        withProducts_concat hlast, hproduct (by simp), List.append_assoc]
      rfl

end Step

theorem written_ofTokens {tokens : List String} {s : Spine} (h : ofTokens tokens = .ok s)
    (hplain : Plain tokens) : Written tokens s := by
  refine ofTokens_induction (P := fun tokens s => Plain tokens → Written tokens s)
    ?_ ?_ tokens s h hplain
  · intro token kind hkind hplain
    obtain ⟨hcloser, hcomma, hgroup⟩ := hplain.kind_ne hkind
    have hbalance : balance [token] = _ := Balance.step_eq hkind hcloser hcomma {}
    refine ⟨opens_single hkind hplain.continuable, ?_⟩
    rw [hbalance, text, Frame.text_leaf hkind hgroup]
    rfl
  · intro tokens s token kind placement hread ih hkind hplace hplain
    have hplain' := hplain.of_concat (ofTokens_ne_nil hread)
    exact (ih hplain').place (proper_ofTokens hread) (reflects_ofTokens hread) hplain' hkind hplace

/-- A leaf that is neither an operator nor a comma is complete as it is. -/
theorem leaf_complete {token : String} {kind : Kind} (hkind : Kind.of? token = some kind)
    (hoperator : ∀ op, kind ≠ .operator op) (hcloser : kind ≠ .closer) (hcomma : kind ≠ .comma)
    (hgroup : kind ≠ .closedGroup) :
    (Frame.tree ⟨token, kind, []⟩).linear = [token] ∧ (Frame.tree ⟨token, kind, []⟩).Ragged := by
  have hvalue := delimits_eq_false hkind
  cases kind with
  | number => exact ⟨rfl, .whole (.leaf rfl (hvalue Kind.noConfusion hcloser hcomma))⟩
  | operator op => exact absurd rfl (hoperator op)
  | openGroup =>
      obtain rfl := Kind.eq_of_spelling hkind rfl
      exact ⟨rfl, .opened⟩
  | closer => exact absurd rfl hcloser
  | closedGroup => exact absurd rfl hgroup
  | word => exact ⟨rfl, .whole (.leaf rfl (hvalue Kind.noConfusion hcloser hcomma))⟩
  | comma => exact absurd rfl hcomma

/-- Where the tokens could end, completing the frames writes nothing more. -/
theorem complete_ofTokens {tokens : List String} {s : Spine} (h : ofTokens tokens = .ok s)
    (hplain : Plain tokens) (hlast : ∀ last ∈ tokens.getLast?,
      Operator.ofSymbol? last = none ∧ last ≠ ",") :
    s.tree.linear = s.text ∧ s.tree.Ragged := by
  have hproper := proper_ofTokens h
  have hneat := neat_ofTokens h hplain.continuable
  obtain ⟨last, hgetLast, hcases⟩ := (reflects_ofTokens h).last hplain
  obtain ⟨hsymbol, hne⟩ := hlast last hgetLast
  rcases hcases with ⟨-, hkind⟩ | ⟨heq, -⟩ | ⟨hkind, -, -, hcloser, hgroup⟩
  · have hoperand : s.current.kind.isOperand = true := by
      rw [hkind]
      rfl
    exact ⟨(hproper.text_eq hoperand).symm,
      hneat.ragged hproper (.whole (hneat.operand hoperand))⟩
  · exact absurd heq hne
  · have hoperator : ∀ op, s.current.kind ≠ .operator op := by
      intro op hop
      rw [hop] at hkind
      rw [Operator.ofSymbol?_eq_some_iff.mpr (Kind.eq_of_spelling hkind rfl)] at hsymbol
      cases hsymbol
    have hcomma : s.current.kind ≠ .comma := by
      intro hk
      rw [hk] at hkind
      exact hne (Kind.eq_of_spelling hkind rfl)
    have hcurrent := current_of_last h hgetLast hkind hoperator hcloser hcomma
    obtain ⟨hlinear, hragged⟩ := leaf_complete hkind hoperator hcloser hcomma hgroup
    rw [← hcurrent] at hlinear hragged
    refine ⟨?_, hneat.ragged hproper hragged⟩
    rw [linear_tree hproper.above, hlinear, text, hcurrent, Frame.text_leaf hkind hgroup]

end Spine

/-! ### Whole expressions -/

/-- **Nothing is lost**: the tree of an expression writes the tokens it was read from, with
the products that are implied and with the parentheses that are missing in front, and each
`)` and `,` belongs to the group that a reader of the text would give it to. -/
theorem linear_tree_ofTokens {tokens : List String} {e : Expression}
    (h : Expression.ofTokens tokens = .ok e) (hpair : "()" ∉ tokens)
    (hfirst : tokens.head? ≠ some ")" ∧ tokens.head? ≠ some ",")
    (hlast : ∀ last ∈ tokens.getLast?, Operator.ofSymbol? last = none ∧ last ≠ ",") :
    e.tree.linear = List.replicate (balance tokens).missing "(" ++ withProducts tokens ∧
      e.tree.owners 0 = matching [] 0 e.tree.linear := by
  have hplain : Plain tokens := ⟨hpair, hfirst.1, hfirst.2⟩
  obtain ⟨s, hs, htree⟩ := Expression.exists_spine h
  obtain ⟨hlinear, hragged⟩ := Spine.complete_ofTokens hs hplain hlast
  rw [htree]
  exact ⟨hlinear.trans (Spine.written_ofTokens hs hplain).text, hragged.owners_eq⟩

/-- Two groups and an argument list that were never opened stand in front, and the product
before the call is written. -/
theorem linear_three_missing :
    let tokens := ["1", ")", "cos", "(", "2", ")", ")", ",", "3"]
    ∃ e, Expression.ofTokens tokens = .ok e ∧
      e.tree.linear = ["(", "(", "(", "1", ")", "*", "cos", "(", "2", ")", ")", ",", "3"] ∧
      e.tree.owners 0 = matching [] 0 e.tree.linear := by
  intro tokens
  obtain ⟨e, he⟩ : ∃ e, Expression.ofTokens tokens = .ok e := ⟨_, rfl⟩
  obtain ⟨hlinear, howners⟩ :=
    linear_tree_ofTokens he (by decide) ⟨by decide, by decide⟩ (by decide)
  refine ⟨e, he, ?_, howners⟩
  rw [hlinear]
  decide

end Calculator
