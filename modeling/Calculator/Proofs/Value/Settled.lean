/-
Whether what was read can still have a value.

A complete operand is part of a tree, and the question is whether that tree serves as a
value.  Behind anything else a child has to come, and the question is whether the frames
are prepared for it: whether each of them serves, with one child more, as what it is there
for.  `Settled` asks the one or the other.  Behind a comma it asks the first, because
there the tokens could end.

Which tokens make a difference to it can be told from the placements.  Most of them do
not.  A value behind a comma needs an argument list around it, and a factor behind a group
needs that the group is none.  These are the two conditions on steady tokens.
-/
import Calculator.Proofs.Value.Groups

namespace Calculator

/-! ### Roles -/

theorem Tree.serves_node_iff {role : Role} {value : String} {kind : Kind}
    {children : List Tree} (hkind : kind ≠ .number) :
    (Tree.node value kind children).Serves role ↔
      role.admits kind children.length = true ∧ ∀ c ∈ children, c.Serves kind.asks := by
  refine ⟨?_, ?_⟩
  · intro h
    cases h with
    | number => exact absurd rfl hkind
    | node hadmits hchildren => exact ⟨hadmits, hchildren⟩
  · intro hboth
    obtain ⟨hadmits, hchildren⟩ := hboth
    exact .node hadmits hchildren

/-- A number has a value, and is no argument list. -/
theorem Tree.serves_number_iff {role : Role} {token : String}
    (hkind : Kind.of? token = some .number) (children : List Tree) :
    (Tree.node token .number children).Serves role ↔ role = .value := by
  have hliteral : (Decimal.ofLiteral? token.toList).isSome = true := by
    unfold Kind.of? at hkind
    split at hkind
    · assumption
    · repeat' split at hkind
      all_goals cases hkind
  refine ⟨?_, ?_⟩
  · intro h
    cases h with
    | number => rfl
    | node hadmits => cases role <;> cases hadmits
  · intro hsame
    subst hsame
    exact .number hliteral

/-- The frame serves as this with one child more, if the child does its part. -/
structure Frame.Hosts (f : Frame) (role : Role) : Prop where
  admits : role.admits f.kind (f.children.length + 1) = true
  children : ∀ c ∈ f.children, c.Serves f.kind.asks

theorem Frame.serves_take {f : Frame} (hpending : f.Pending) (t : Tree) (role : Role) :
    (f.take t).tree.Serves role ↔ f.Hosts role ∧ t.Serves f.kind.asks := by
  have hkind : (f.take t).kind ≠ .number := hpending.kind_ne.1
  rw [Frame.tree, Tree.serves_node_iff hkind]
  simp only [Frame.children_take, Frame.kind_take, List.length_append, List.length_singleton,
    List.mem_append, List.mem_singleton]
  refine ⟨?_, ?_⟩
  · intro hboth
    obtain ⟨hadmits, hchildren⟩ := hboth
    exact ⟨⟨hadmits, fun c hc => hchildren c (Or.inl hc)⟩, hchildren t (Or.inr rfl)⟩
  · intro hboth
    obtain ⟨⟨hadmits, hchildren⟩, ht⟩ := hboth
    refine ⟨hadmits, ?_⟩
    rintro c (hc | rfl)
    · exact hchildren c hc
    · exact ht

namespace Spine

/-- What the child of the innermost frame is there for. -/
def role : List Frame → Role
  | [] => .value
  | f :: _ => f.kind.asks

/-- Every frame serves as what it is there for, if the child of the innermost one does. -/
def Hosting : List Frame → Prop
  | [] => True
  | f :: above => f.Hosts (role above) ∧ Hosting above

theorem role_eq_arguments_iff (above : List Frame) :
    role above = .arguments ↔ (callerOf above).isSome = true := by
  cases above with
  | nil => simp [role, callerOf]
  | cons f above => cases hk : f.kind <;> simp [role, callerOf, Kind.asks, hk]

theorem role_cases (above : List Frame) : role above = .value ∨ role above = .arguments := by
  cases role above
  · exact Or.inl rfl
  · exact Or.inr rfl

/-- Completing the frames makes a value exactly if they are prepared for the child. -/
theorem serves_tree {s : Spine} (h : ∀ f ∈ s.above, f.Pending) :
    s.tree.Serves .value ↔ s.current.tree.Serves (role s.above) ∧ Hosting s.above := by
  obtain ⟨f, above⟩ := s
  induction above generalizing f with
  | nil => simp [Spine.tree, fold, role, Hosting]
  | cons g above ih =>
      have hpending : g.Pending := h g List.mem_cons_self
      have hrest : ∀ k ∈ above, k.Pending := fun k hk => h k (List.mem_cons_of_mem _ hk)
      refine (ih (g.take f.tree) hrest).trans ?_
      rw [Frame.serves_take hpending]
      show (_ ∧ _) ∧ _ ↔ _ ∧ _ ∧ _
      refine ⟨?_, ?_⟩
      · intro hboth
        obtain ⟨⟨hhosts, hf⟩, habove⟩ := hboth
        exact ⟨hf, hhosts, habove⟩
      · intro hboth
        obtain ⟨hf, hhosts, habove⟩ := hboth
        exact ⟨⟨hhosts, hf⟩, habove⟩

/-! ### What can still have a value -/

/-- The tokens could end here: behind an operand, or in a group that has a value. -/
def Complete (s : Spine) : Prop :=
  s.current.kind.isOperand = true ∨ (s.current.kind = .openGroup ∧ s.current.children ≠ [])

/-- What was read has a value but for its calls, or lacks only one child for that. -/
def Settled (s : Spine) : Prop :=
  (s.Complete → s.tree.Serves .value) ∧ (¬s.Complete → Hosting (s.current :: s.above))

theorem settled_of_complete {s : Spine} (h : s.Complete) :
    s.Settled ↔ s.tree.Serves .value := by
  refine ⟨?_, ?_⟩
  · exact fun hs => hs.1 h
  · exact fun hs => ⟨fun _ => hs, fun hn => absurd h hn⟩

theorem settled_of_waiting {s : Spine} (h : ¬s.Complete) :
    s.Settled ↔ Hosting (s.current :: s.above) := by
  refine ⟨?_, ?_⟩
  · exact fun hs => hs.2 h
  · exact fun hs => ⟨fun hc => absurd hc h, fun _ => hs⟩

theorem not_complete {s : Spine} (hoperand : s.current.kind.isOperand = false)
    (hchildren : s.current.kind = .openGroup → s.current.children = []) : ¬s.Complete := by
  rintro (h | ⟨hopen, hne⟩)
  · rw [hoperand] at h
    cases h
  · exact hne (hchildren hopen)

/-- An operator is prepared for its right operand if what is in front of it has a value
and it does not come in the place of an argument list. -/
theorem hosting_operate {t : Spine} (hpending : ∀ f ∈ t.above, f.Pending) (token : String)
    (op : Operator) :
    Hosting ((t.operate token op).current :: t.above) ↔
      t.tree.Serves .value ∧ role t.above = .value := by
  rw [serves_tree hpending]
  show Frame.Hosts _ _ ∧ _ ↔ _
  rcases role_cases t.above with hrole | hrole
  · rw [hrole]
    refine ⟨?_, ?_⟩
    · intro hboth
      obtain ⟨⟨-, hchildren⟩, habove⟩ := hboth
      exact ⟨⟨hchildren _ List.mem_cons_self, habove⟩, rfl⟩
    · intro hboth
      obtain ⟨⟨ht, habove⟩, -⟩ := hboth
      refine ⟨⟨rfl, ?_⟩, habove⟩
      intro c hc
      rw [List.mem_singleton.mp hc]
      exact ht
  · rw [hrole]
    refine ⟨?_, ?_⟩
    · intro hboth
      obtain ⟨⟨hadmits, -⟩, -⟩ := hboth
      cases hadmits
    · intro hboth
      obtain ⟨-, hvalue⟩ := hboth
      cases hvalue

/-- Only a group serves as an argument list. -/
theorem role_of_admits {r : Role} {kind : Kind} {n : Nat} (h : r.admits kind n = true)
    (hopen : kind ≠ .openGroup) (hclosed : kind ≠ .closedGroup) : r = .value := by
  cases r with
  | value => rfl
  | arguments => cases kind <;> simp_all [Role.admits]

theorem role_of_serves {f : Frame} {r : Role} (h : f.tree.Serves r)
    (hopen : f.kind ≠ .openGroup) (hclosed : f.kind ≠ .closedGroup) : r = .value := by
  obtain ⟨value, kind, children⟩ := f
  cases h with
  | number => rfl
  | node hadmits => exact role_of_admits hadmits hopen hclosed

/-- The left operand of an operator is no argument list by itself. -/
theorem role_wholeCall (s : Spine) (hclosed : s.wholeCall.current.kind = .closedGroup) :
    role s.wholeCall.above = .value := by
  obtain ⟨f, above⟩ := s
  cases above with
  | nil => rfl
  | cons g above =>
      by_cases hcall : f.kind = .closedGroup ∧ g.kind = .word
      · have heq : wholeCall ⟨f, g :: above⟩ = ⟨g.take f.tree, above⟩ := if_pos hcall
        rw [heq, Frame.kind_take, hcall.2] at hclosed
        cases hclosed
      · have heq : wholeCall ⟨f, g :: above⟩ = ⟨f, g :: above⟩ := if_neg hcall
        rw [heq] at hclosed ⊢
        have hword : g.kind ≠ .word := fun hword => hcall ⟨hclosed, hword⟩
        cases hk : g.kind <;> simp_all [role, Kind.asks]

/-! ### One step -/

section Step

variable {s : Spine} {token : String} {kind : Kind}

theorem complete_of_isOperand (h : s.current.kind.isOperand = true) : s.Complete :=
  Or.inl h

/-- An operator asks for nothing that was not asked of the operand before it. -/
theorem settled_rightOf (hproper : s.Proper) (hoperand : s.current.kind.isOperand = true)
    (op : Operator) : ((s.leftOperand op).operate token op).Settled ↔ s.Settled := by
  have hcurrent := not_open_of_isOperand hoperand
  have hrises := rises_leftOperand s op hcurrent
  have hpending : ∀ f ∈ (s.leftOperand op).above, f.Pending :=
    fun f hf => hproper.above f (hrises.above_subset hf)
  have hopen := leftOperand_not_open s op hcurrent
  rw [settled_of_complete (complete_of_isOperand hoperand), ← hrises.tree_eq,
    settled_of_waiting (not_complete rfl Kind.noConfusion)]
  refine (hosting_operate hpending token op).trans ⟨And.left, fun hserves => ⟨hserves, ?_⟩⟩
  by_cases hclosed : (s.leftOperand op).current.kind = .closedGroup
  · exact role_wholeCall _ hclosed
  · exact role_of_serves ((serves_tree hpending).mp hserves).1 hopen hclosed

/-- A token that hangs from a frame is prepared for if the frame is. -/
theorem settled_hang {f : Frame} {above : List Frame} (hpending : ∀ g ∈ f :: above, g.Pending)
    (hkind : Kind.of? token = some kind)
    (hfits : (f.kind.asks = .value ∧ kind.begins = true) ∨
      (f.kind.asks = .arguments ∧ kind = .openGroup)) :
    (Spine.hang ⟨f, above⟩ token kind).Settled ↔ Hosting (f :: above) := by
  by_cases hnumber : kind = .number
  · subst hnumber
    have hasks : f.kind.asks = .value := by
      rcases hfits with ⟨hasks, -⟩ | ⟨-, hopen⟩
      · exact hasks
      · cases hopen
    rw [settled_of_complete (complete_of_isOperand rfl), serves_tree hpending]
    show (Tree.node token .number []).Serves f.kind.asks ∧ _ ↔ _
    rw [Tree.serves_number_iff hkind]
    exact ⟨And.right, fun h => ⟨hasks, h⟩⟩
  · have hwaits : kind.isOperand = false ∧ f.kind.asks.admits kind 1 = true := by
      rcases hfits with ⟨hasks, hbegins⟩ | ⟨hasks, rfl⟩
      · rw [hasks]
        cases kind <;> simp_all [Kind.begins, Kind.isOperand, Role.admits]
        rename_i op
        cases op <;> simp_all
      · rw [hasks]
        exact ⟨rfl, rfl⟩
    rw [settled_of_waiting (not_complete hwaits.1 fun _ => rfl)]
    show Frame.Hosts _ _ ∧ _ ↔ _
    exact ⟨And.right, fun h => ⟨⟨hwaits.2, by simp [Spine.hang]⟩, h⟩⟩

/-- A factor takes the place of what is before it, which must not be an argument list. -/
theorem settled_factor (hproper : s.Proper) (hkind : Kind.of? token = some kind)
    (hplace : Placement.of? s.current.kind kind = some .factor) :
    (s.multiply token kind).Settled ↔ s.Settled ∧ role s.above = .value := by
  have hoperand := (Placement.kinds_of_factor hplace).1
  have hbegins : kind.begins = true := by
    rcases Placement.of?_eq_factor hplace with ⟨-, rfl | rfl⟩ | ⟨-, rfl⟩ <;> rfl
  have hpending : ∀ g ∈ (s.operate "*" .times).current :: s.above, g.Pending := by
    intro g hg
    rcases List.mem_cons.mp hg with rfl | hg
    · exact ⟨rfl, Nat.le_refl 1⟩
    · exact hproper.above g hg
  rw [settled_of_complete (complete_of_isOperand hoperand),
    ← hosting_operate hproper.above "*" .times]
  exact settled_hang hpending hkind (Or.inl ⟨rfl, hbegins⟩)

/-- Opening a group around everything changes no value. -/
theorem serves_enclose (s : Spine) :
    s.enclose.tree.Serves .value ↔ s.tree.Serves .value := by
  rcases enclosing_cases s.current s.above with ⟨hrises, -⟩ | ⟨-, t, hrises, heq⟩
  · rw [Spine.enclose, hrises.tree_eq]
  · have htree : s.tree = t.tree := hrises.tree_eq.symm
    rw [Spine.enclose, heq, htree]
    show (Tree.node "(" .openGroup [t.tree]).Serves .value ↔ _
    rw [Tree.serves_node_iff Kind.noConfusion]
    simp [Role.admits, Kind.asks]

theorem settled_enclose (hoperand : s.current.kind.isOperand = true) :
    s.enclose.Settled ↔ s.Settled := by
  have hchildren := children_enclose (not_open_of_isOperand hoperand)
  rw [settled_of_complete (complete_of_isOperand hoperand),
    settled_of_complete (Or.inr ⟨kind_enclose s, hchildren⟩), serves_enclose s]

/-- Neither does closing one. -/
theorem settled_close (hproper : s.Proper) (hoperand : s.current.kind.isOperand = true) :
    s.close.Settled ↔ s.Settled := by
  obtain ⟨henclose, -⟩ := hproper.enclose hoperand
  have hclosed : s.close.Complete := Or.inl rfl
  rw [settled_of_complete hclosed, settled_of_complete (complete_of_isOperand hoperand),
    ← serves_enclose s, serves_tree (s := s.close) henclose.above,
    serves_tree henclose.above]
  have hsame : s.close.current.tree.Serves (role s.enclose.above) ↔
      s.enclose.current.tree.Serves (role s.enclose.above) := by
    show (Tree.node _ .closedGroup s.enclose.current.children).Serves _ ↔ _
    rw [Tree.serves_node_iff Kind.noConfusion, Frame.tree, kind_enclose s,
      Tree.serves_node_iff Kind.noConfusion]
    cases role s.enclose.above <;> rfl
  exact and_congr_left fun _ => hsame

/-- Behind a comma a value has to come only in an argument list. -/
theorem hosting_group (hproper : s.Proper) (hopen : s.current.kind = .openGroup)
    (hchildren : s.current.children ≠ []) :
    Hosting (s.current :: s.above) ↔ s.tree.Serves .value ∧ role s.above = .arguments := by
  have hpos := List.length_pos_iff.mpr hchildren
  rw [serves_tree hproper.above, Frame.tree,
    Tree.serves_node_iff (by rw [hopen]; exact Kind.noConfusion)]
  show Frame.Hosts _ _ ∧ _ ↔ _
  rcases role_cases s.above with hrole | hrole
  · rw [hrole]
    refine ⟨?_, ?_⟩
    · intro hboth
      obtain ⟨⟨hadmits, -⟩, -⟩ := hboth
      rw [hopen] at hadmits
      have hlen := of_decide_eq_true hadmits
      omega
    · intro hboth
      obtain ⟨-, hfalse⟩ := hboth
      cases hfalse
  · rw [hrole, hopen]
    refine ⟨?_, ?_⟩
    · intro hboth
      obtain ⟨⟨-, hall⟩, habove⟩ := hboth
      rw [hopen] at hall
      exact ⟨⟨⟨rfl, hall⟩, habove⟩, rfl⟩
    · intro hboth
      obtain ⟨⟨⟨-, hall⟩, habove⟩, -⟩ := hboth
      exact ⟨⟨by rw [hopen]; rfl, by rw [hopen]; exact hall⟩, habove⟩

end Step

end Spine

end Calculator
