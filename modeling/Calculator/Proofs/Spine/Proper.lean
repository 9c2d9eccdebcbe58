/-
The shape of a spine.

Above the cursor there are only nodes that wait for a child: operators that have at
most a left operand, open groups, and words without an argument list.  `Proper` says
so, and every placement keeps it.

All walks up are made of one step, by which a frame becomes the last child of the frame
above it.  `Rises` is a walk of any length; it never completes an open group, since a
climb stops below one and the search for a group stops at it.  What a single step keeps
is kept by every walk, so facts about climbing are proved by induction on `Rises`.
-/
import Calculator.Proofs.Spine.Basic
import Calculator.Proofs.Tokens

namespace Calculator

/-- The node waits for a child: for an operand, for a value, or for an argument list. -/
def Frame.Pending (f : Frame) : Prop :=
  match f.kind with
  | .operator op => f.value = op.symbol ∧ f.children.length ≤ 1
  | .openGroup => f.value = "("
  | .word => f.children = []
  | _ => False

/-- What waits for a child is neither complete nor a token that can never be placed. -/
theorem Frame.Pending.kind_cases {f : Frame} (h : f.Pending) :
    (∃ op, f.kind = .operator op) ∨ f.kind = .openGroup ∨ f.kind = .word := by
  unfold Frame.Pending at h
  cases hk : f.kind <;> simp_all

theorem Frame.Pending.kind_ne {f : Frame} (h : f.Pending) :
    f.kind ≠ .number ∧ f.kind ≠ .closedGroup := by
  rcases h.kind_cases with ⟨op, hk⟩ | hk | hk <;> rw [hk] <;> exact ⟨nofun, nofun⟩

namespace Spine

/-! ### Walks -/

/-- A walk up the spine; every frame it leaves becomes the last child of the next. -/
inductive Rises : Spine → Spine → Prop
  | refl (s : Spine) : Rises s s
  | up {f g : Frame} {above : List Frame} {t : Spine} (hclosed : f.kind ≠ .openGroup)
      (rest : Rises ⟨g.take f.tree, above⟩ t) : Rises ⟨f, g :: above⟩ t

theorem Rises.trans {s t u : Spine} (hst : Rises s t) (htu : Rises t u) : Rises s u := by
  induction hst with
  | refl s => exact htu
  | up hclosed _ ih => exact .up hclosed (ih htu)

theorem Rises.above_subset {s t : Spine} (h : Rises s t) : t.above ⊆ s.above := by
  induction h with
  | refl s => exact List.Subset.refl _
  | up _ _ ih => exact fun f hf => List.mem_cons_of_mem _ (ih hf)

/-- A walk ends on the frame where it began, or on one above that gained a child. -/
theorem Rises.current {s t : Spine} (h : Rises s t) :
    t = s ∨ ∃ g ∈ s.above, ∃ c, t.current = g.take c := by
  induction h with
  | refl s => exact Or.inl rfl
  | @up f g above t _ _ ih =>
      refine Or.inr ?_
      rcases ih with rfl | ⟨k, hk, c, hc⟩
      · exact ⟨g, List.mem_cons_self, f.tree, rfl⟩
      · exact ⟨k, List.mem_cons_of_mem _ hk, c, hc⟩

theorem rises_climb {precedence : Nat} (hpos : 0 < precedence) (f : Frame)
    (above : List Frame) (hclosed : f.kind ≠ .openGroup) :
    Rises ⟨f, above⟩ (climb precedence f above) := by
  induction above generalizing f with
  | nil => exact .refl _
  | cons g above ih =>
      unfold climb
      split
      · rename_i hle
        refine .up hclosed (ih (g.take f.tree) ?_)
        intro hopen
        rw [Frame.kind_take] at hopen
        rw [hopen] at hle
        simp only [Kind.precedence] at hle
        omega
      · exact .refl _

theorem rises_wholeCall (s : Spine) : Rises s s.wholeCall := by
  unfold wholeCall
  split
  · rename_i f g above
    split
    · rename_i hcall
      refine .up ?_ (.refl _)
      rw [hcall.1]
      exact Kind.noConfusion
    · exact .refl _
  · exact .refl _

/-- An operator finds its left operand by a walk. -/
theorem rises_leftOperand (s : Spine) (op : Operator) (hclosed : s.current.kind ≠ .openGroup) :
    Rises s (s.leftOperand op) :=
  (rises_climb op.precedence_pos s.current s.above hclosed).trans (rises_wholeCall _)

/-- The innermost open group is reached by a walk; where there is none, the walk goes to
the top, and the new group is put around it. -/
theorem enclosing_cases (f : Frame) (above : List Frame) :
    (Rises ⟨f, above⟩ (enclosing f above) ∧ (enclosing f above).current.kind = .openGroup) ∨
    ((∀ g ∈ f :: above, g.kind ≠ .openGroup) ∧ ∃ t, Rises ⟨f, above⟩ ⟨t, []⟩ ∧
      enclosing f above = ⟨⟨"(", .openGroup, [t.tree]⟩, []⟩) := by
  induction above generalizing f with
  | nil =>
      unfold enclosing
      split
      · rename_i hopen
        exact Or.inl ⟨.refl _, hopen⟩
      · rename_i hclosed
        exact Or.inr ⟨by simpa using hclosed, f, .refl _, rfl⟩
  | cons g above ih =>
      unfold enclosing
      split
      · rename_i hopen
        exact Or.inl ⟨.refl _, hopen⟩
      · rename_i hclosed
        rcases ih (g.take f.tree) with ⟨hrises, hopen⟩ | ⟨hnone, t, hrises, heq⟩
        · exact Or.inl ⟨.up hclosed hrises, hopen⟩
        · refine Or.inr ⟨?_, t, .up hclosed hrises, heq⟩
          intro k hk
          simp only [List.mem_cons, forall_eq_or_imp, Frame.kind_take] at hk hnone
          rcases hk with rfl | rfl | hk
          · exact hclosed
          · exact hnone.1
          · exact hnone.2 k hk

/-- What is moved to is an open group. -/
theorem kind_enclose (s : Spine) : s.enclose.current.kind = .openGroup := by
  rcases enclosing_cases s.current s.above with ⟨-, hopen⟩ | ⟨-, t, -, heq⟩
  · exact hopen
  · rw [Spine.enclose, heq]

/-- The group that is moved to has at least the value that was just read. -/
theorem children_enclose {s : Spine} (hclosed : s.current.kind ≠ .openGroup) :
    s.enclose.current.children ≠ [] := by
  rcases enclosing_cases s.current s.above with ⟨hrises, hopen⟩ | ⟨-, t, -, heq⟩
  · rcases hrises.current with hsame | ⟨g, -, c, hc⟩
    · rw [hsame] at hopen
      exact absurd hopen hclosed
    · show (enclosing s.current s.above).current.children ≠ []
      rw [hc]
      simp
  · rw [Spine.enclose, heq]
    simp

/-! ### Proper spines -/

/-- Only nodes that wait for a child are above the cursor, and the node of the cursor waits
for one unless it is a complete operand or a token that can never be placed. -/
structure Proper (s : Spine) : Prop where
  above : ∀ f ∈ s.above, f.Pending
  current : s.current.Pending ∨ s.current.kind.isOperand = true ∨
    s.current.kind = .closer ∨ s.current.kind = .comma

/-- A node that was just made waits for a child, unless its token never takes one. -/
theorem leaf_pending {token : String} {kind : Kind} (h : Kind.of? token = some kind) :
    Frame.Pending ⟨token, kind, []⟩ ∨ kind.isOperand = true ∨ kind = .closer ∨ kind = .comma := by
  cases kind with
  | number => exact Or.inr (Or.inl rfl)
  | operator op => exact Or.inl ⟨Kind.eq_of_spelling h rfl, Nat.zero_le 1⟩
  | openGroup => exact Or.inl (Kind.eq_of_spelling h rfl)
  | closer => exact Or.inr (Or.inr (Or.inl rfl))
  | closedGroup => exact Or.inr (Or.inl rfl)
  | word => exact Or.inl rfl
  | comma => exact Or.inr (Or.inr (Or.inr rfl))

theorem Proper.current_pending {s : Spine} (h : s.Proper)
    (hkind : s.current.kind.awaits = true ∨ s.current.kind = .word) : s.current.Pending := by
  rcases h.current with hp | hoperand | hcloser | hcomma
  · exact hp
  · rcases hkind with hk | hk
    · cases hc : s.current.kind <;> simp_all [Kind.awaits, Kind.isOperand]
    · rw [hk] at hoperand
      cases hoperand
  · rw [hcloser] at hkind
    rcases hkind with hk | hk <;> cases hk
  · rw [hcomma] at hkind
    rcases hkind with hk | hk <;> cases hk

/-- An open group that a walk ends on has been written `(`. -/
theorem Proper.value_of_rises {s t : Spine} (h : s.Proper) (hrises : Rises s t)
    (hoperand : s.current.kind.isOperand = true) (hopen : t.current.kind = .openGroup) :
    t.current.value = "(" := by
  rcases hrises.current with rfl | ⟨g, hg, c, hc⟩
  · rw [hopen] at hoperand
    cases hoperand
  · have hpending := h.above g hg
    rw [hc, Frame.kind_take] at hopen
    rw [hc, Frame.value_take]
    simpa only [Frame.Pending, hopen] using hpending

theorem not_open_of_isOperand {kind : Kind} (h : kind.isOperand = true) : kind ≠ .openGroup := by
  intro hsame
  subst hsame
  cases h

theorem Proper.enclose {s : Spine} (h : s.Proper) (hoperand : s.current.kind.isOperand = true) :
    s.enclose.Proper ∧ s.enclose.current.value = "(" := by
  rcases enclosing_cases s.current s.above with ⟨hrises, hopen⟩ | ⟨-, t, hrises, heq⟩
  · have hvalue := h.value_of_rises hrises hoperand hopen
    refine ⟨⟨fun f hf => h.above f (hrises.above_subset hf), Or.inl ?_⟩, hvalue⟩
    rw [Frame.Pending, kind_enclose s]
    exact hvalue
  · rw [Spine.enclose, heq]
    exact ⟨⟨by simp, Or.inl rfl⟩, rfl⟩

/-- **Every placement keeps a spine proper.** -/
theorem Proper.place {s : Spine} (h : s.Proper) {token : String} {kind : Kind}
    {placement : Placement} (hkind : Kind.of? token = some kind)
    (hplace : Placement.of? s.current.kind kind = some placement) :
    (s.place token kind placement).Proper := by
  cases placement with
  | rightOf op =>
      obtain ⟨hoperand, rfl⟩ := Placement.of?_eq_rightOf hplace
      have hrises := rises_leftOperand s op (not_open_of_isOperand hoperand)
      refine ⟨fun f hf => h.above f (hrises.above_subset hf), Or.inl ?_⟩
      exact ⟨Kind.eq_of_spelling hkind rfl, Nat.le_refl 1⟩
  | below =>
      have hpending : s.current.Pending := by
        refine h.current_pending ?_
        rcases Placement.of?_eq_below hplace with ⟨ha, -⟩ | ⟨hw, -⟩
        · exact Or.inl ha
        · exact Or.inr hw
      refine ⟨?_, leaf_pending hkind⟩
      intro f hf
      rcases List.mem_cons.mp hf with rfl | hf
      · exact hpending
      · exact h.above f hf
  | factor =>
      refine ⟨?_, leaf_pending hkind⟩
      intro f hf
      rcases List.mem_cons.mp hf with rfl | hf
      · exact ⟨rfl, Nat.le_refl 1⟩
      · exact h.above f hf
  | close =>
      have henclose := h.enclose (Placement.of?_eq_close hplace).1
      exact ⟨henclose.1.above, Or.inr (Or.inl rfl)⟩
  | separate => exact (h.enclose (Placement.of?_eq_separate hplace).1).1

/-- **Whatever was read is a proper spine.** -/
theorem proper_ofTokens {tokens : List String} {s : Spine} (h : ofTokens tokens = .ok s) :
    s.Proper := by
  refine ofTokens_induction (P := fun _ s => s.Proper) ?_ ?_ tokens s h
  · intro token kind hkind
    exact ⟨by simp, leaf_pending hkind⟩
  · intro tokens s token kind placement _ hproper hkind hplace
    exact hproper.place hkind hplace

end Spine

end Calculator
