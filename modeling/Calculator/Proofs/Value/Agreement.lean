/-
What a value depends on.

The value of a tree depends on a subtree only through what the subtree is there for.  A
subtree that is to have a value may be replaced by another with the same value, and an
argument list by another group with the same arguments; `Tree.Agree` says this for each
role.  In particular it makes no difference to a value whether a group is closed.

Frames agree if their complete children do, and spines if their frames do.  Whatever role
a frame is going to have, agreeing frames will then serve in it alike, so placing a token
keeps spines in agreement although it may hang a group below a product that had been the
argument list of a call.
-/
import Calculator.Proofs.Spine.Lockstep
import Calculator.Proofs.Value.Calls

namespace Calculator

/-! ### Trees -/

namespace Tree

variable {α : Type} {m : Arithmetic α}

/-- In the role the trees have the same result. -/
def Agree (m : Arithmetic α) : Role → Tree → Tree → Prop
  | .value, t, u => t.evaluate m = u.evaluate m
  | .arguments, t, u => t.kind.isGroup = u.kind.isGroup ∧
      (t.kind.isGroup = true → evaluateAll m t.children = evaluateAll m u.children)

theorem Agree.refl (m : Arithmetic α) (role : Role) (t : Tree) : Agree m role t t := by
  cases role with
  | value => exact Eq.refl (t.evaluate m)
  | arguments => exact ⟨rfl, fun _ => rfl⟩

theorem evaluateAll_congr {children others : List Tree}
    (h : List.Forall₂ (Agree m .value) children others) :
    evaluateAll m children = evaluateAll m others := by
  induction h with
  | nil => rfl
  | @cons t u children others ht _ ih =>
      have ht : t.evaluate m = u.evaluate m := ht
      rw [evaluateAll_cons, evaluateAll_cons, ht, ih]

theorem evaluate_operator_congr {value : String} {op : Operator} {children others : List Tree}
    (h : List.Forall₂ (Agree m .value) children others) :
    (node value (.operator op) children).evaluate m =
      (node value (.operator op) others).evaluate m := by
  match h with
  | .nil => rfl
  | .cons (a := t) (b := u) ht .nil =>
      have ht : t.evaluate m = u.evaluate m := ht
      cases op with
      | minus => rw [evaluate_negative, evaluate_negative, ht]
      | plus | times | divide | power => rfl
  | .cons (a := t) (b := u) ht (.cons (a := t') (b := u') ht' .nil) =>
      have ht : t.evaluate m = u.evaluate m := ht
      have ht' : t'.evaluate m = u'.evaluate m := ht'
      rw [evaluate_binary, evaluate_binary, ht, ht']
  | .cons _ (.cons _ (.cons _ hrest)) =>
      have hlength := hrest.length_eq
      cases op <;> simp [evaluate, hlength]

theorem evaluate_word_congr {value : String} {children others : List Tree}
    (h : List.Forall₂ (Agree m .arguments) children others) :
    (node value .word children).evaluate m = (node value .word others).evaluate m := by
  match h with
  | .nil => rfl
  | .cons (a := .node text kind arguments) (b := .node text' kind' arguments') ht .nil =>
      obtain ⟨hgroup, hlist⟩ := ht
      have hgroup : kind.isGroup = kind'.isGroup := hgroup
      have hlist : kind.isGroup = true → evaluateAll m arguments = evaluateAll m arguments' := hlist
      rw [evaluate_call, evaluate_call, ← hgroup]
      by_cases hkind : kind.isGroup = true
      · rw [if_pos hkind, if_pos hkind, hlist hkind]
      · rw [if_neg hkind, if_neg hkind]
  | .cons (a := .node _ _ _) (b := .node _ _ _) _ (.cons _ _) => rfl

/-- The value of a group does not depend on whether it is closed. -/
theorem evaluate_group {value : String} {kind : Kind} (hkind : kind.isGroup = true)
    (children : List Tree) :
    (node value kind children).evaluate m = (node "()" .closedGroup children).evaluate m := by
  cases kind with
  | openGroup | closedGroup =>
      match children with
      | [] => rfl
      | [inner] => rfl
      | _ :: _ :: _ => rfl
  | number | operator | closer | word | comma => cases hkind

theorem evaluate_group_congr {value other : String} {kind kind' : Kind}
    (hkind : kind.isGroup = true) (hkind' : kind'.isGroup = true) {children others : List Tree}
    (h : List.Forall₂ (Agree m .value) children others) :
    (node value kind children).evaluate m = (node other kind' others).evaluate m := by
  rw [evaluate_group hkind, evaluate_group hkind']
  match h with
  | .nil => rfl
  | .cons (a := t) (b := u) ht .nil =>
      have ht : t.evaluate m = u.evaluate m := ht
      rw [evaluate_single rfl, evaluate_single rfl, ht]
  | .cons _ (.cons _ hrest) => simp [evaluate, hrest.length_eq]

theorem agree_group {value other : String} {kind kind' : Kind} (hkind : kind.isGroup = true)
    (hkind' : kind'.isGroup = true) {children others : List Tree}
    (h : List.Forall₂ (Agree m .value) children others) (role : Role) :
    Agree m role (node value kind children) (node other kind' others) := by
  cases role with
  | value => exact evaluate_group_congr hkind hkind' h
  | arguments => exact ⟨hkind.trans hkind'.symm, fun _ => evaluateAll_congr h⟩

/-- **A node has the same result in every role** if its children have, in theirs. -/
theorem agree_node {value : String} {kind : Kind} {children others : List Tree}
    (h : List.Forall₂ (Agree m kind.asks) children others) (role : Role) :
    Agree m role (node value kind children) (node value kind others) := by
  by_cases hgroup : kind.isGroup = true
  · have hasks : kind.asks = .value := by cases kind <;> simp_all [Kind.isGroup, Kind.asks]
    rw [hasks] at h
    exact agree_group hgroup hgroup h role
  · cases role with
    | arguments => exact ⟨rfl, fun hfalse => absurd hfalse hgroup⟩
    | value =>
        cases kind with
        | number => simp [Agree, evaluate]
        | operator op => exact evaluate_operator_congr h
        | openGroup | closedGroup => exact absurd rfl hgroup
        | word => exact evaluate_word_congr h
        | closer | comma => simp [Agree, evaluate]

end Tree

/-! ### Frames -/

/-- The frames are the same but for complete children that agree. -/
structure Frame.Agree {α : Type} (m : Arithmetic α) (f g : Frame) : Prop where
  value : f.value = g.value
  kind : f.kind = g.kind
  children : List.Forall₂ (Tree.Agree m f.kind.asks) f.children g.children

namespace Frame

variable {α : Type} {m : Arithmetic α} {f g : Frame}

theorem Agree.refl (m : Arithmetic α) (f : Frame) : f.Agree m f where
  value := rfl
  kind := rfl
  children := List.forall₂_same.mpr fun t _ => Tree.Agree.refl m _ t

/-- Agreeing frames serve alike in every role. -/
theorem Agree.tree (h : f.Agree m g) (role : Role) : Tree.Agree m role f.tree g.tree := by
  rw [Frame.tree, Frame.tree, ← h.value, ← h.kind]
  exact Tree.agree_node h.children role

theorem Agree.take (h : f.Agree m g) {t u : Tree} (ht : ∀ role, Tree.Agree m role t u) :
    (f.take t).Agree m (g.take u) where
  value := h.value
  kind := h.kind
  children := List.rel_append h.children (.cons (ht _) .nil)

theorem Agree.closed (h : f.Agree m g) (hopen : f.kind = .openGroup) :
    f.closed.Agree m g.closed where
  value := congrArg (· ++ ")") h.value
  kind := rfl
  children := by
    have hchildren := h.children
    rw [hopen] at hchildren
    exact hchildren

end Frame

/-! ### Spines -/

namespace Spine

variable {α : Type} {m : Arithmetic α}

/-- The spines have agreeing frames. -/
structure Agree (m : Arithmetic α) (s t : Spine) : Prop where
  current : s.current.Agree m t.current
  above : List.Forall₂ (Frame.Agree m) s.above t.above

/-- Completing agreeing frames around subtrees that agree makes trees that agree. -/
theorem agree_fold {f g : Frame} (h : ∀ role, Tree.Agree m role f.tree g.tree)
    {above others : List Frame} (habove : List.Forall₂ (Frame.Agree m) above others) (role : Role) :
    Tree.Agree m role (fold f above) (fold g others) := by
  induction habove generalizing f g with
  | nil => exact h role
  | cons hframe _ ih => exact ih (hframe.take h).tree

variable {s t : Spine}

/-- **Spines that agree have the same value.** -/
theorem Agree.evaluate_eq (h : s.Agree m t) : s.tree.evaluate m = t.tree.evaluate m :=
  agree_fold h.current.tree h.above .value

theorem agree_climb (precedence : Nat) {f g : Frame} (h : f.Agree m g) {above others : List Frame}
    (habove : List.Forall₂ (Frame.Agree m) above others) :
    (climb precedence f above).Agree m (climb precedence g others) := by
  induction habove generalizing f g with
  | nil => exact ⟨h, .nil⟩
  | @cons k l above others hframe hrest ih =>
      rw [climb, climb, ← hframe.kind]
      by_cases hle : precedence ≤ k.kind.precedence
      · rw [if_pos hle, if_pos hle]
        exact ih (hframe.take h.tree)
      · rw [if_neg hle, if_neg hle]
        exact ⟨h, .cons hframe hrest⟩

theorem Agree.wholeCall (h : s.Agree m t) : s.wholeCall.Agree m t.wholeCall := by
  obtain ⟨f, above⟩ := s
  obtain ⟨g, others⟩ := t
  obtain ⟨hcurrent, habove⟩ := h
  have hcurrent : f.Agree m g := hcurrent
  cases habove with
  | nil => exact ⟨hcurrent, .nil⟩
  | @cons k l above others hframe hrest =>
      rw [Spine.wholeCall, Spine.wholeCall, ← hcurrent.kind, ← hframe.kind]
      by_cases hcall : f.kind = .closedGroup ∧ k.kind = .word
      · rw [if_pos hcall, if_pos hcall]
        exact ⟨hframe.take hcurrent.tree, hrest⟩
      · rw [if_neg hcall, if_neg hcall]
        exact ⟨hcurrent, .cons hframe hrest⟩

theorem Agree.operate (h : s.Agree m t) (token : String) (op : Operator) :
    (s.operate token op).Agree m (t.operate token op) where
  current := ⟨rfl, rfl, .cons (h.current.tree .value) .nil⟩
  above := h.above

theorem Agree.hang (h : s.Agree m t) (token : String) (kind : Kind) :
    (s.hang token kind).Agree m (t.hang token kind) where
  current := Frame.Agree.refl m _
  above := .cons h.current h.above

theorem agree_enclosing {f g : Frame} (h : f.Agree m g) {above others : List Frame}
    (habove : List.Forall₂ (Frame.Agree m) above others) :
    (enclosing f above).Agree m (enclosing g others) := by
  induction habove generalizing f g with
  | nil =>
      rw [enclosing, enclosing, ← h.kind]
      by_cases hopen : f.kind = .openGroup
      · rw [if_pos hopen, if_pos hopen]
        exact ⟨h, .nil⟩
      · rw [if_neg hopen, if_neg hopen]
        exact ⟨⟨rfl, rfl, .cons (h.tree .value) .nil⟩, .nil⟩
  | @cons k l above others hframe hrest ih =>
      rw [enclosing, enclosing, ← h.kind]
      by_cases hopen : f.kind = .openGroup
      · rw [if_pos hopen, if_pos hopen]
        exact ⟨h, .cons hframe hrest⟩
      · rw [if_neg hopen, if_neg hopen]
        exact ih (hframe.take h.tree)

theorem Agree.enclose (h : s.Agree m t) : s.enclose.Agree m t.enclose :=
  agree_enclosing h.current h.above

/-- **Spines that agree go on in agreement.** -/
theorem lockstep_agree : Lockstep (Agree m) where
  current := fun h => ⟨h.current.value, h.current.kind⟩
  place := by
    intro s t token kind placement h _
    cases placement with
    | rightOf op => exact (agree_climb _ h.current h.above).wholeCall.operate token op
    | below => exact h.hang token kind
    | factor => exact (h.operate _ .times).hang token kind
    | close => exact ⟨h.enclose.current.closed (kind_enclose s), h.enclose.above⟩
    | separate => exact h.enclose

/-! ### Groups around everything -/

theorem fold_append (f : Frame) (above base : List Frame) :
    fold f (above ++ base) = fold (fold f above).frame base := by
  induction above generalizing f with
  | nil => rfl
  | cons g above ih => exact ih (g.take f.tree)

/-- Closing a group changes no value. -/
theorem evaluate_close (s : Spine) : s.close.tree.evaluate m = s.tree.evaluate m := by
  rcases Nat.eq_zero_or_pos s.opens with hzero | hpos
  · rw [Spine.close, enclose_of_opens_eq_zero hzero]
    show (Tree.node "()" .closedGroup [s.tree]).evaluate m = s.tree.evaluate m
    rw [Tree.evaluate]
  · rw [← (rises_enclose hpos).tree_eq]
    refine agree_fold (fun role => ?_) (List.forall₂_same.mpr fun f _ => .refl m f) .value
    have hgroup : s.enclose.current.kind.isGroup = true := by
      rw [kind_enclose s]
      rfl
    exact Tree.agree_group rfl hgroup (List.forall₂_same.mpr fun t _ => .refl m .value t) role

end Spine

end Calculator
