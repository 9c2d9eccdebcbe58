/-
How many groups are open.

The number of open groups is known from the parentheses and commas alone, without a tree:
a `(` opens one, a `)` closes one if there is one, and a `,` needs one to be open.  The
balance of a text is this count, with the number of groups that were needed and missing.
-/
import Calculator.Proofs.Text.Brackets

namespace Calculator

/-! ### In a text -/

/-- How many groups are open, and how many were closed or used without having been opened. -/
structure Balance where
  depth : Nat := 0
  missing : Nat := 0

/-- The balance after one token more.  A comma without an open group opens one. -/
def Balance.step (b : Balance) (token : String) : Balance :=
  if token = "(" then { b with depth := b.depth + 1 }
  else if token = ")" then
    if b.depth = 0 then { b with missing := b.missing + 1 } else { b with depth := b.depth - 1 }
  else if token = "," then
    if b.depth = 0 then ⟨1, b.missing + 1⟩ else b
  else b

/-- The balance of the tokens, read from left to right. -/
def balance (tokens : List String) : Balance :=
  tokens.foldl Balance.step {}

theorem balance_concat (tokens : List String) (token : String) :
    balance (tokens ++ [token]) = (balance tokens).step token := by
  simp [balance]

/-- A token that ends nothing opens a group or leaves the balance as it is. -/
theorem Balance.step_eq {token : String} {kind : Kind} (hkind : Kind.of? token = some kind)
    (hcloser : kind ≠ .closer) (hcomma : kind ≠ .comma) (b : Balance) :
    b.step token = { b with depth := b.depth + if kind = .openGroup then 1 else 0 } := by
  by_cases hopen : kind = .openGroup
  · rw [hopen] at hkind
    obtain rfl := Kind.eq_of_spelling hkind rfl
    rw [if_pos hopen]
    rfl
  · have hdelimits := delimits_eq_false hkind hopen hcloser hcomma
    simp only [delimits, Bool.or_eq_false_iff, decide_eq_false_iff_not] at hdelimits
    rw [Balance.step, if_neg hdelimits.1.1, if_neg hdelimits.1.2, if_neg hdelimits.2,
      if_neg hopen]
    rfl

/-- Once a group was missing, nothing makes up for it. -/
theorem Balance.missing_le_step (b : Balance) (token : String) :
    b.missing ≤ (b.step token).missing := by
  unfold Balance.step
  repeat' split
  all_goals simp

/-- A `)` or a `,` finds an open group unless one is missing. -/
theorem Balance.depth_pos {b : Balance} {token : String} (h : (b.step token).missing = b.missing)
    (hends : token = ")" ∨ token = ",") : 0 < b.depth := by
  refine Nat.pos_of_ne_zero fun hzero => ?_
  rcases hends with rfl | rfl <;> simp [Balance.step, hzero] at h

/-! ### In a spine -/

namespace Spine

theorem opens_hang (s : Spine) (token : String) (kind : Kind) :
    (s.hang token kind).opens = s.opens + if kind = .openGroup then 1 else 0 := by
  simp [opens, hang, List.countP_cons, Frame.isOpen]

theorem opens_operate {s : Spine} (hclosed : s.current.kind ≠ .openGroup) (token : String)
    (op : Operator) : (s.operate token op).opens = s.opens := by
  simp [opens, operate, Frame.isOpen, hclosed]

theorem opens_close (s : Spine) : s.close.opens = s.enclose.opens - 1 := by
  simp [opens, close, Frame.isOpen, Frame.closed, kind_enclose]

/-- **Every placement opens and closes as many groups as its token.** -/
theorem opens_place {tokens : List String} {s : Spine} {token : String} {kind : Kind}
    {placement : Placement} (h : s.opens = (balance tokens).depth)
    (hkind : Kind.of? token = some kind)
    (hplace : Placement.of? s.current.kind kind = some placement) :
    (s.place token kind placement).opens = (balance (tokens ++ [token])).depth := by
  rw [balance_concat]
  cases placement with
  | rightOf op =>
      obtain ⟨hoperand, rfl⟩ := Placement.of?_eq_rightOf hplace
      have hclosed := not_open_of_isOperand hoperand
      rw [Balance.step_eq hkind Kind.noConfusion Kind.noConfusion, ← h, Spine.place,
        opens_operate (leftOperand_not_open s op hclosed), (rises_leftOperand s op hclosed).opens_eq]
      rfl
  | below =>
      obtain ⟨-, hcloser, hcomma, -⟩ := Placement.kinds_of_below hplace
      rw [Balance.step_eq hkind hcloser hcomma, ← h]
      exact opens_hang s token kind
  | factor =>
      obtain ⟨hoperand, hcloser, hcomma, -⟩ := Placement.kinds_of_factor hplace
      rw [Balance.step_eq hkind hcloser hcomma, ← h, Spine.place, multiply, opens_hang,
        opens_operate (not_open_of_isOperand hoperand)]
  | close =>
      obtain ⟨-, rfl⟩ := Placement.of?_eq_close hplace
      obtain rfl := Kind.eq_of_spelling hkind rfl
      rw [Spine.place, opens_close, opens_enclose, h]
      by_cases hzero : (balance tokens).depth = 0 <;> simp [Balance.step, hzero]
      omega
  | separate =>
      obtain ⟨-, rfl⟩ := Placement.of?_eq_separate hplace
      obtain rfl := Kind.eq_of_spelling hkind rfl
      rw [Spine.place, opens_enclose, h]
      by_cases hzero : (balance tokens).depth = 0 <;> simp [Balance.step, hzero]
      omega

theorem opens_single {token : String} {kind : Kind} (hkind : Kind.of? token = some kind)
    (hcontinuable : Continuable [token]) :
    opens ⟨⟨token, kind, []⟩, []⟩ = (balance [token]).depth := by
  obtain ⟨hcloser, hcomma⟩ := hcontinuable.kind_ne hkind
  have hbalance : balance [token] = _ := Balance.step_eq hkind hcloser hcomma {}
  rw [hbalance]
  simp [opens, Frame.isOpen, List.countP_cons]

/-- **As many groups are open as the tokens say.** -/
theorem opens_ofTokens {tokens : List String} {s : Spine} (h : ofTokens tokens = .ok s)
    (hcontinuable : Continuable tokens) : s.opens = (balance tokens).depth := by
  refine ofTokens_induction (P := fun tokens s => Continuable tokens →
    s.opens = (balance tokens).depth) ?_ ?_ tokens s h hcontinuable
  · intro token kind hkind hcontinuable
    exact opens_single hkind hcontinuable
  · intro tokens s token kind placement hread ih hkind hplace hcontinuable
    exact opens_place (ih (hcontinuable.of_concat (ofTokens_ne_nil hread))) hkind hplace

end Spine

end Calculator
