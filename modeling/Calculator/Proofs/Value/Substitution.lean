/-
Parts of a text that stand between parentheses.

The parentheses keep such a part to itself.  If its own parentheses match and it has no
comma outside of them, the frames below its `(` are not touched until the `)` comes, and
from then on the part is one complete child.  What comes behind it can only be told its
value.

That is a value of the arithmetic, and not the double that it stands for.  Two NaNs whose
signs differ are two values, and a median around the parentheses tells them apart.
-/
import Calculator.Proofs.Function.Slice
import Calculator.Proofs.Value.Parentheses

namespace Calculator

/-- Every `(` of the tokens is closed by them, and every `)` and `,` is inside a group that
they opened. -/
structure ClosedOperand (tokens : List String) : Prop extends OperandEnds tokens where
  closed : (balance tokens).depth = 0
  inside : (balance tokens).missing = 0

instance (tokens : List String) : Decidable (ClosedOperand tokens) :=
  decidable_of_iff (OperandEnds tokens ∧ (balance tokens).depth = 0 ∧
    (balance tokens).missing = 0) ⟨fun h => ⟨h.1, h.2.1, h.2.2⟩, fun h => ⟨h.1, h.2, h.3⟩⟩

theorem Begins.of_concat {tokens : List String} {token : String} (h : Begins (tokens ++ [token]))
    (hne : tokens ≠ []) : Begins tokens := by
  obtain ⟨first, rest, kind, heq, hkind⟩ := h
  obtain ⟨first', rest', rfl⟩ := List.exists_cons_of_ne_nil hne
  obtain ⟨rfl, -⟩ := List.cons.inj heq
  exact ⟨first', rest', kind, rfl, hkind⟩

namespace Spine

/-- Behind a `(` there is an open group without values, if it may stand there. -/
theorem ofTokens_opening (before : List String) :
    (∃ e, ∀ rest, ofTokens (before ++ "(" :: rest) = .error e) ∨
      ∃ above, ∀ rest, ofTokens (before ++ "(" :: rest) =
        readBelow (⟨"(", .openGroup, []⟩ :: above) rest := by
  by_cases hnil : before = []
  · subst hnil
    exact Or.inr ⟨[], readBelow_group (show Awaiting [] from trivial)⟩
  · have hread : ∀ rest, ofTokens (before ++ "(" :: rest) =
        ofTokens before >>= fun s => ("(" :: rest).foldlM step s :=
      fun rest => readBelow_append hnil [] ("(" :: rest)
    cases hs : ofTokens before with
    | error e => exact Or.inl ⟨e, fun rest => by rw [hread, hs]; rfl⟩
    | ok s =>
        have hstep : ∀ rest, ofTokens (before ++ "(" :: rest) =
            s.step "(" >>= fun next => rest.foldlM step next := by
          intro rest
          rw [hread, hs]
          rfl
        cases hnext : s.step "(" with
        | error e => exact Or.inl ⟨e, fun rest => by rw [hstep, hnext]; rfl⟩
        | ok next =>
            obtain ⟨kind, placement, hkind, hplace, rfl⟩ := step_eq_ok_iff.mp hnext
            obtain rfl : kind = .openGroup := (Option.some.inj hkind).symm
            refine Or.inr ?_
            cases placement with
            | below => exact ⟨s.current :: s.above, fun rest => by rw [hstep, hnext]; rfl⟩
            | factor =>
                exact ⟨(s.operate _ .times).current :: s.above,
                  fun rest => by rw [hstep, hnext]; rfl⟩
            | rightOf op => cases (Placement.of?_eq_rightOf hplace).2
            | close => cases (Placement.of?_eq_close hplace).2
            | separate => cases (Placement.of?_eq_separate hplace).2

/-- Tokens that need no group from outside are read in a group as they are read alone. -/
theorem readBelow_inside {tokens : List String} {s : Spine} (h : ofTokens tokens = .ok s)
    (hbegins : Begins tokens) (hinside : (balance tokens).missing = 0) {g : Frame}
    (hopen : g.kind = .openGroup) (above : List Frame) :
    readBelow (g :: above) tokens = .ok (s.atop (g :: above)) := by
  have hawaiting : Awaiting (g :: above) := by
    rw [Awaiting, hopen]
    rfl
  refine ofTokens_induction (P := fun tokens s => Begins tokens → (balance tokens).missing = 0 →
    readBelow (g :: above) tokens = .ok (s.atop (g :: above))) ?_ ?_ tokens s h hbegins hinside
  · intro token kind hkind hbegins _
    obtain ⟨first, rest, kind', heq, hkind', hbegins⟩ := hbegins
    obtain ⟨rfl, rfl⟩ := List.cons.inj heq
    obtain rfl := Option.some.inj (hkind.symm.trans hkind')
    rw [readBelow_cons hawaiting hkind hbegins]
    rfl
  · intro tokens s token kind placement hread ih hkind hplace hbegins hinside
    have hne := ofTokens_ne_nil hread
    have hbegins := hbegins.of_concat hne
    have hopens := opens_ofTokens hread hbegins.continuable
    rw [balance_concat] at hinside
    have hle := (balance tokens).missing_le_step token
    have hbefore := ih hbegins (by omega)
    have hplaced : ((s.atop (g :: above)).place token kind placement) =
        (s.place token kind placement).atop (g :: above) := by
      refine place_atop (barred_cons hopen above) token kind fun hneeds => ?_
      rw [hopens]
      have hkept : ((balance tokens).step token).missing = (balance tokens).missing := by
        omega
      refine Balance.depth_pos hkept ?_
      rcases hneeds with rfl | rfl
      · obtain ⟨-, rfl⟩ := Placement.of?_eq_close hplace
        exact Or.inl (Kind.eq_of_spelling hkind rfl)
      · obtain ⟨-, rfl⟩ := Placement.of?_eq_separate hplace
        exact Or.inr (Kind.eq_of_spelling hkind rfl)
    rw [readBelow_append hne, hbefore, ← hplaced]
    have hstep : (s.atop (g :: above)).step token =
        .ok ((s.atop (g :: above)).place token kind placement) :=
      step_of_placement hkind hplace
    show [token].foldlM step (s.atop (g :: above)) = _
    rw [foldlM_cons_of_step hstep]
    rfl

/-- Behind the `)` the tokens are one complete child. -/
theorem readBelow_group_closed {tokens : List String} (h : ClosedOperand tokens) {s : Spine}
    (hs : ofTokens tokens = .ok s) (above : List Frame) (rest : List String) :
    readBelow (⟨"(", .openGroup, []⟩ :: above) (tokens ++ ")" :: rest) =
      rest.foldlM step ⟨⟨"()", .closedGroup, [s.tree]⟩, above⟩ := by
  have hbegins := h.toOperandEnds.begins
  have hoperand := h.toOperandEnds.isOperand hs
  have hread := readBelow_inside hs hbegins h.inside (g := ⟨"(", .openGroup, []⟩) rfl above
  have hopens : s.opens = 0 := by
    rw [opens_ofTokens hs hbegins.continuable, h.closed]
  have hcloser : Kind.of? ")" = some .closer := rfl
  have hplace : Placement.of? (s.atop (⟨"(", .openGroup, []⟩ :: above)).current.kind .closer =
      some .close := Placement.of?_closer hoperand
  rw [readBelow_append (ofTokens_ne_nil hs), hread]
  show (")" :: rest).foldlM step (s.atop _) = _
  rw [foldlM_cons_of_step (step_of_placement hcloser hplace), place, close,
    enclose_atop_of_opens_eq_zero hopens rfl]
  rfl

theorem related_replace {α : Type} {m : Arithmetic α} {a b : List String}
    (ha : ClosedOperand a) (hb : ClosedOperand b) {s t : Spine} (hs : ofTokens a = .ok s)
    (ht : ofTokens b = .ok t) (hvalue : s.tree.evaluate m = t.tree.evaluate m)
    (before behind : List String) :
    Related (Agree m) (ofTokens (before ++ "(" :: (a ++ ")" :: behind)))
      (ofTokens (before ++ "(" :: (b ++ ")" :: behind))) := by
  rcases ofTokens_opening before with ⟨e, he⟩ | ⟨above, habove⟩
  · rw [he, he]
    exact .error e
  · rw [habove, habove, readBelow_group_closed ha hs, readBelow_group_closed hb ht]
    refine lockstep_agree.foldlM behind ⟨⟨rfl, rfl, .cons hvalue .nil⟩, ?_⟩
    exact List.forall₂_same.mpr fun f _ => .refl m f

end Spine

/-- **A part between parentheses counts only with its value**: another part with the same
value gives the same result in its place, whatever comes before and behind. -/
theorem evaluate_replace {α : Type} (m : Arithmetic α) {a b : List String} {x y : Expression}
    {v : α} (ha : ClosedOperand a) (hb : ClosedOperand b)
    (hx : Expression.ofTokens a = .ok x) (hy : Expression.ofTokens b = .ok y)
    (hxv : x.evaluateIn m = .ok v) (hyv : y.evaluateIn m = .ok v) (before behind : List String) :
    (Expression.ofTokens (before ++ ["("] ++ a ++ [")"] ++ behind) >>= Expression.evaluateIn m) =
      (Expression.ofTokens (before ++ ["("] ++ b ++ [")"] ++ behind) >>=
        Expression.evaluateIn m) := by
  obtain ⟨s, hs, hxtree⟩ := Expression.exists_spine hx
  obtain ⟨t, ht, hytree⟩ := Expression.exists_spine hy
  have hvalue : s.tree.evaluate m = t.tree.evaluate m := by
    rw [← hxtree, ← hytree]
    exact hxv.trans hyv.symm
  have hrelated := Spine.related_replace ha hb hs ht hvalue before behind
  simp only [List.append_assoc, List.singleton_append]
  rw [Expression.evaluate_ofTokens, Expression.evaluate_ofTokens]
  exact hrelated.bind_eq fun _ _ _ h => h.evaluate_eq

/-- Neither part can be told from the other, as the argument of a median or as an argument list
that the word behind it takes away from its call.  Their value is a NaN with its sign set, which is
the least of the three arguments.  With the sign turned round it is another value, and the
greatest. -/
theorem evaluate_replace_in_call :
    let a := ["0", "/", "0"]
    let b := ["(", "0", "/", "0", ")"]
    let value := fun tokens => Expression.ofTokens tokens >>= Expression.evaluateIn .words
    let median := fun part => ["median", "("] ++ ["("] ++ part ++ [")"] ++ [",", "1", ",", "2"]
    let taken := fun part => ["mean"] ++ ["("] ++ part ++ [")"] ++ ["sin", "("]
    ClosedOperand a ∧ ClosedOperand b ∧
      value a = .ok 0xFFF8000000000000 ∧ value b = .ok 0xFFF8000000000000 ∧
      value (median a) = value (median b) ∧ value (median b) = .ok (Float.toBits 1) ∧
      value (median ("-" :: b)) = .ok (Float.toBits 2) ∧ value (taken a) = value (taken b) := by
  intro a b value median taken
  have ha : ClosedOperand a := by decide
  have hb : ClosedOperand b := by decide
  obtain ⟨x, y, hx, hy, hxv, hyv⟩ : ∃ x y, Expression.ofTokens a = .ok x ∧
      Expression.ofTokens b = .ok y ∧ x.evaluateIn .words = .ok 0xFFF8000000000000 ∧
      y.evaluateIn .words = .ok 0xFFF8000000000000 := ⟨_, _, rfl, rfl, rfl, rfl⟩
  have hleast : Arithmetic.words.sort [0xFFF8000000000000, Float.toBits 1, Float.toBits 2] =
      [0xFFF8000000000000, Float.toBits 1, Float.toBits 2] :=
    Arithmetic.words.sort_eq (by decide) (List.Perm.refl _)
  have hgreatest : Arithmetic.words.sort [0x7FF8000000000000, Float.toBits 1, Float.toBits 2] =
      [Float.toBits 1, Float.toBits 2, 0x7FF8000000000000] :=
    Arithmetic.words.sort_eq (by decide) (by decide)
  have hmedian : value (median b) = (Arithmetic.words.call "median"
      [0xFFF8000000000000, Float.toBits 1, Float.toBits 2]).value := rfl
  have hturned : value (median ("-" :: b)) = (Arithmetic.words.call "median"
      [0x7FF8000000000000, Float.toBits 1, Float.toBits 2]).value := rfl
  refine ⟨ha, hb, rfl, rfl, ?_, ?_, ?_, ?_⟩
  · exact evaluate_replace .words ha hb hx hy hxv hyv ["median", "("] [",", "1", ",", "2"]
  · rw [hmedian, Arithmetic.call_median _ (by decide), Arithmetic.median, hleast]
    rfl
  · rw [hturned, Arithmetic.call_median _ (by decide), Arithmetic.median, hgreatest]
    rfl
  · exact evaluate_replace .words ha hb hx hy hxv hyv ["mean"] ["sin", "("]

end Calculator
