/-
How a spine lies in an arena.

A layout is a spine with the numbers of its nodes: on the path from the cursor to the
top every node is stored with its complete children and, after them, the next node of
the path.  All the numbers of a layout together are the numbers of the arena, each of
them once, so no node is shared and none is lost.

Only four things ever happen to a draft: the cursor steps up, a node is hung from it,
a node is put in its place, its group is closed.  Each of them is one lemma here, and
nothing after this file looks at the links between nodes again.
-/
import Mathlib.Data.List.Nodup
import Calculator.Proofs.Arena.Numbered
import Calculator.Proofs.Spine.Basic

namespace Calculator

/-- A frame with the numbers of its node and of its children. -/
structure NumberedFrame where
  id : Nat
  value : String
  kind : Kind
  children : List Numbered := []

namespace NumberedFrame

/-- The tree of a frame that gets no more children. -/
def tree (f : NumberedFrame) : Numbered :=
  .node f.id f.value f.kind f.children

/-- The frame with one more child. -/
def take (f : NumberedFrame) (t : Numbered) : NumberedFrame :=
  { f with children := f.children ++ [t] }

/-- The numbers of the node and of everything that hangs from it. -/
def ids (f : NumberedFrame) : List Nat :=
  f.id :: Numbered.idsAll f.children

/-- The frame without the numbers. -/
def erase (f : NumberedFrame) : Frame :=
  ⟨f.value, f.kind, Numbered.eraseAll f.children⟩

@[simp] theorem id_tree (f : NumberedFrame) : f.tree.id = f.id := rfl

@[simp] theorem ids_tree (f : NumberedFrame) : f.tree.ids = f.ids := rfl

@[simp] theorem erase_tree (f : NumberedFrame) : f.tree.erase = f.erase.tree := rfl

@[simp] theorem id_take (f : NumberedFrame) (t : Numbered) : (f.take t).id = f.id := rfl

@[simp] theorem ids_take (f : NumberedFrame) (t : Numbered) : (f.take t).ids = f.ids ++ t.ids := by
  simp [ids, take, Numbered.idsAll_append]

@[simp] theorem erase_take (f : NumberedFrame) (t : Numbered) :
    (f.take t).erase = f.erase.take t.erase := by
  simp [erase, take, Frame.take, Numbered.eraseAll_eq_map]

end NumberedFrame

/-! ### Nodes after an operation -/

namespace Arena

theorem node_pushBelow {a : Arena} {parent : Nat} (h : parent < a.size) (value : String)
    (kind : Kind) (id : Nat) :
    (a.pushBelow parent value kind).node id =
      if id = a.size then { value, kind, parent := some parent }
      else if id = parent then { a.node id with children := (a.node id).children ++ [a.size] }
      else a.node id := by
  have hne : a.size ≠ parent := by omega
  by_cases hnew : id = a.size
  · subst hnew
    simp [pushBelow, addChild, node_update, node_push, hne.symm]
  · by_cases hparent : id = parent
    · subst hparent
      simp [pushBelow, addChild, node_update, node_push, hnew, hne, Nat.lt_succ_of_lt h]
    · simp [pushBelow, addChild, node_update, node_push, hnew, hparent, Ne.symm hnew,
        Ne.symm hparent]

theorem node_pushAbove {a : Arena} {below : Nat} (h : below < a.size)
    (hparent : ∀ parent, (a.node below).parent = some parent → parent < a.size ∧ parent ≠ below)
    (value : String) (kind : Kind) (id : Nat) :
    (a.pushAbove below value kind).node id =
      if id = a.size then ⟨value, kind, [below], (a.node below).parent⟩
      else if id = below then { a.node id with parent := some a.size }
      else if (a.node below).parent = some id then
        { a.node id with children := (a.node id).children.replace below a.size }
      else a.node id := by
  have hpush : (a.push value kind).node below = a.node below := by
    rw [node_push, if_neg (by omega)]
  have hne : a.size ≠ below := by omega
  unfold pushAbove insertAbove
  rw [hpush]
  cases hp : (a.node below).parent with
  | none =>
      by_cases hnew : id = a.size
      · subst hnew
        simp [addChild, node_update, node_push, hne.symm]
      · by_cases hbelow : id = below
        · subst hbelow
          simp [addChild, node_update, node_push, hnew, hne, Nat.lt_succ_of_lt h]
        · simp [addChild, node_update, node_push, hnew, hbelow, Ne.symm hnew, Ne.symm hbelow]
  | some parent =>
      obtain ⟨hlt, hpb⟩ := hparent parent hp
      have hps : parent ≠ a.size := by omega
      by_cases hnew : id = a.size
      · subst hnew
        simp [addChild, node_update, node_push, hne.symm, hps]
      · by_cases hbelow : id = below
        · subst hbelow
          simp [addChild, node_update, node_push, hnew, hne, hpb, Nat.lt_succ_of_lt h]
        · by_cases hpid : parent = id
          · subst hpid
            simp [addChild, node_update, node_push, hnew, hbelow, Ne.symm hnew,
              Ne.symm hbelow, Nat.lt_succ_of_lt hlt]
          · simp [addChild, node_update, node_push, hnew, hbelow, Ne.symm hnew,
              Ne.symm hbelow, hpid]

theorem node_close (a : Arena) (id other : Nat) :
    (a.close id).node other =
      if other = id ∧ id < a.size then
        { a.node other with value := (a.node other).value ++ ")", kind := .closedGroup }
      else a.node other := by
  simp only [close, node_update, eq_comm]

/-! ### Paths -/

/-- The frames are the nodes of a path that ends at the top, each stored with its complete
children and then with the node of the path below it. -/
def Path (a : Arena) : Option Nat → List NumberedFrame → Prop
  | _, [] => True
  | below, f :: above =>
      a.node f.id = ⟨f.value, f.kind, f.children.map Numbered.id ++ below.toList,
        above.head?.map NumberedFrame.id⟩ ∧
      (∀ c ∈ f.children, a.Holds (some f.id) c) ∧ a.Path (some f.id) above

/-- A path is where its nodes are the same. -/
theorem Path.congr {a b : Arena} {below : Option Nat} {frames : List NumberedFrame}
    (h : a.Path below frames)
    (hsame : ∀ i ∈ frames.flatMap NumberedFrame.ids, b.node i = a.node i) :
    b.Path below frames := by
  induction frames generalizing below with
  | nil => trivial
  | cons f above ih =>
      obtain ⟨here, children, rest⟩ := h
      simp only [List.flatMap_cons, List.mem_append] at hsame
      refine ⟨?_, ?_, ih rest (fun i hi => hsame i (Or.inr hi))⟩
      · rw [hsame f.id (Or.inl List.mem_cons_self), here]
      · intro c hc
        refine (children c hc).congr (fun i hi => hsame i (Or.inl ?_))
        exact List.mem_cons_of_mem _ (Numbered.ids_subset_idsAll hc hi)

end Arena

/-! ### Layouts -/

/-- How a draft lies in its arena: the frame of the cursor and the frames above it. -/
structure Draft.LaidOut (d : Draft) (f : NumberedFrame) (above : List NumberedFrame) : Prop where
  cursor : d.cursor = f.id
  path : d.arena.Path none (f :: above)
  /-- Every number of the arena is the number of exactly one node. -/
  numbers : ((f :: above).flatMap NumberedFrame.ids).Perm (List.range d.arena.size)

namespace Draft.LaidOut

variable {d : Draft} {f g : NumberedFrame} {above : List NumberedFrame}

theorem nodup (h : d.LaidOut f above) : ((f :: above).flatMap NumberedFrame.ids).Nodup :=
  h.numbers.nodup_iff.mpr List.nodup_range

theorem lt_size (h : d.LaidOut f above) {i : Nat}
    (hi : i ∈ (f :: above).flatMap NumberedFrame.ids) : i < d.arena.size :=
  List.mem_range.mp (h.numbers.mem_iff.mp hi)

theorem cursor_lt (h : d.LaidOut f above) : f.id < d.arena.size :=
  h.lt_size (by simp [NumberedFrame.ids])

/-- The node the cursor is on is the current frame. -/
theorem current_eq (h : d.LaidOut f above) :
    d.current = ⟨f.value, f.kind, f.children.map Numbered.id,
      above.head?.map NumberedFrame.id⟩ := by
  rw [Draft.current, h.cursor, h.path.1]
  simp

/-- The numbers below the current frame and above it are not its own. -/
theorem ne_of_mem (h : d.LaidOut f above) {i : Nat}
    (hi : i ∈ Numbered.idsAll f.children ∨ i ∈ above.flatMap NumberedFrame.ids) : i ≠ f.id := by
  have hnodup := h.nodup
  simp only [List.flatMap_cons, NumberedFrame.ids, List.cons_append, List.nodup_cons,
    List.mem_append] at hnodup
  intro hsame
  subst hsame
  exact hnodup.1 hi

/-- Every number that is in use is below the size. -/
theorem ne_size (h : d.LaidOut f above) {i : Nat}
    (hi : i ∈ Numbered.idsAll f.children ∨ i ∈ above.flatMap NumberedFrame.ids) :
    i ≠ d.arena.size := by
  refine Nat.ne_of_lt (h.lt_size ?_)
  simp only [List.flatMap_cons, NumberedFrame.ids, List.cons_append, List.mem_cons,
    List.mem_append]
  exact Or.inr hi

/-- **The cursor steps up**: the frame it was on becomes a complete child. -/
theorem up (h : d.LaidOut f (g :: above)) :
    LaidOut ⟨d.arena, g.id⟩ (g.take f.tree) above := by
  obtain ⟨-, ⟨here, children, there, siblings, rest⟩, numbers⟩ := h
  refine ⟨rfl, ⟨?_, ?_, rest⟩, ?_⟩
  · simpa [NumberedFrame.take] using there
  · intro c hc
    rcases List.mem_append.mp hc with hc | hc
    · exact siblings c hc
    · obtain rfl := List.mem_singleton.mp hc
      exact .node (by simpa using here) children
  · refine List.Perm.trans ?_ numbers
    simp only [List.flatMap_cons, NumberedFrame.ids_take, NumberedFrame.ids_tree]
    rw [← List.append_assoc]
    exact List.Perm.append_right _ List.perm_append_comm

/-- **A node is hung from the cursor** and becomes the current frame. -/
theorem hang (h : d.LaidOut f above) (value : String) (kind : Kind) :
    (d.hang value kind).LaidOut ⟨d.arena.size, value, kind, []⟩ (f :: above) := by
  have hnode := Arena.node_pushBelow h.cursor_lt value kind
  have hfree : ∀ i, (i ∈ Numbered.idsAll f.children ∨ i ∈ above.flatMap NumberedFrame.ids) →
      (d.arena.pushBelow f.id value kind).node i = d.arena.node i := by
    intro i hi
    rw [hnode, if_neg (h.ne_size hi), if_neg (h.ne_of_mem hi)]
  obtain ⟨here, children, rest⟩ := h.path
  have hcursor : d.hang value kind = ⟨d.arena.pushBelow f.id value kind, d.arena.size⟩ := by
    rw [Draft.hang, h.cursor]
  rw [hcursor]
  refine ⟨rfl, ⟨?_, by simp, ?_, ?_, ?_⟩, ?_⟩
  · rw [hnode, if_pos rfl]
    rfl
  · rw [hnode, if_neg (Nat.ne_of_lt h.cursor_lt), if_pos rfl, here]
    simp
  · intro c hc
    exact (children c hc).congr
      (fun i hi => hfree i (Or.inl (Numbered.ids_subset_idsAll hc hi)))
  · exact rest.congr (fun i hi => hfree i (Or.inr hi))
  · simp only [Arena.size_pushBelow, List.range_succ, List.flatMap_cons, NumberedFrame.ids,
      Numbered.idsAll, List.singleton_append]
    refine (List.Perm.cons _ ?_).trans (List.perm_append_singleton _ _).symm
    simpa [NumberedFrame.ids] using h.numbers

/-- **A node is put in the place of the cursor**, takes the frame as its child and becomes
the current one. -/
theorem pushAbove (h : d.LaidOut f above) (value : String) (kind : Kind) :
    LaidOut ⟨d.arena.pushAbove f.id value kind, d.arena.size⟩
      ⟨d.arena.size, value, kind, [f.tree]⟩ above := by
  obtain ⟨here, children, rest⟩ := h.path
  have hparent : (d.arena.node f.id).parent = above.head?.map NumberedFrame.id := by
    rw [here]
  have hmem : ∀ g ∈ above, g.id ∈ above.flatMap NumberedFrame.ids := fun g hg =>
    List.mem_flatMap.mpr ⟨g, hg, List.mem_cons_self⟩
  have hnode := Arena.node_pushAbove h.cursor_lt (by
    intro parent hp
    rw [hparent] at hp
    obtain ⟨g, hg, rfl⟩ := Option.map_eq_some_iff.mp hp
    have hg' := hmem g (List.mem_of_mem_head? hg)
    refine ⟨h.lt_size ?_, h.ne_of_mem (Or.inr hg')⟩
    simp only [List.flatMap_cons, List.mem_append]
    exact Or.inr hg') value kind
  refine ⟨rfl, ⟨?_, ?_, ?_⟩, ?_⟩
  · rw [hnode, if_pos rfl, hparent]
    rfl
  · intro c hc
    obtain rfl := List.mem_singleton.mp hc
    refine .node ?_ ?_
    · rw [hnode, if_neg (Nat.ne_of_lt h.cursor_lt), if_pos rfl, here]
      simp
    · intro c hc
      refine (children c hc).congr (fun i hi => ?_)
      have hi' := Numbered.ids_subset_idsAll hc hi
      rw [hnode, if_neg (h.ne_size (Or.inl hi')), if_neg (h.ne_of_mem (Or.inl hi')), if_neg]
      -- The parent of the cursor is on the path, and no child of the cursor is.
      rw [hparent]
      intro hp
      obtain ⟨g, hg, rfl⟩ := Option.map_eq_some_iff.mp hp
      have hnodup := h.nodup
      rw [List.flatMap_cons, List.nodup_append] at hnodup
      exact hnodup.2.2 g.id (List.mem_cons_of_mem _ hi') g.id
        (hmem g (List.mem_of_mem_head? hg)) rfl
  · cases above with
    | nil => trivial
    | cons g above =>
        obtain ⟨there, siblings, rest⟩ := rest
        have hnodup := h.nodup
        simp only [List.flatMap_cons, NumberedFrame.ids, List.cons_append, List.nodup_cons,
          List.nodup_append, List.mem_append, not_or, List.mem_cons] at hnodup
        obtain ⟨⟨hf, hfg, hfs, hfa⟩, -, ⟨⟨hgs, hga⟩, -⟩, -⟩ := hnodup
        have hfree : ∀ i, (i ∈ Numbered.idsAll g.children ∨
            i ∈ above.flatMap NumberedFrame.ids) →
            (d.arena.pushAbove f.id value kind).node i = d.arena.node i := by
          intro i hi
          have hi' : i ∈ (g :: above).flatMap NumberedFrame.ids := by
            simp only [List.flatMap_cons, NumberedFrame.ids, List.cons_append, List.mem_cons,
              List.mem_append]
            exact Or.inr hi
          rw [hnode, if_neg (h.ne_size (Or.inr hi')), if_neg (h.ne_of_mem (Or.inr hi')), if_neg]
          rw [hparent]
          simp only [List.head?_cons, Option.map_some, Option.some.injEq]
          intro hsame
          subst hsame
          exact hi.elim hgs hga
        refine ⟨?_, ?_, ?_⟩
        · have hg := hmem g List.mem_cons_self
          have hnot : f.id ∉ g.children.map Numbered.id := by
            intro hc
            obtain ⟨c, hc, hid⟩ := List.mem_map.mp hc
            exact hfs (hid ▸ Numbered.ids_subset_idsAll hc c.id_mem_ids)
          have hreplace : (g.children.map Numbered.id ++ [f.id]).replace f.id d.arena.size =
              g.children.map Numbered.id ++ [d.arena.size] := by
            rw [List.replace_append_right hnot]
            simp
          rw [hnode, if_neg (h.ne_size (Or.inr hg)), if_neg (h.ne_of_mem (Or.inr hg)),
            if_pos (by rw [hparent]; rfl), there]
          simp only [Option.toList_some, hreplace]
        · intro c hc
          exact (siblings c hc).congr
            (fun i hi => hfree i (Or.inl (Numbered.ids_subset_idsAll hc hi)))
        · exact rest.congr (fun i hi => hfree i (Or.inr hi))
  · simp only [Arena.size_pushAbove, List.range_succ, List.flatMap_cons, NumberedFrame.ids,
      Numbered.idsAll_singleton, NumberedFrame.ids_tree, List.cons_append]
    refine (List.Perm.cons _ ?_).trans (List.perm_append_singleton _ _).symm
    simpa [NumberedFrame.ids] using h.numbers

/-- **The group the cursor is on is closed**. -/
theorem close (h : d.LaidOut f above) :
    LaidOut ⟨d.arena.close f.id, f.id⟩
      { f with value := f.value ++ ")", kind := .closedGroup } above := by
  obtain ⟨here, children, rest⟩ := h.path
  have hfree : ∀ i, (i ∈ Numbered.idsAll f.children ∨ i ∈ above.flatMap NumberedFrame.ids) →
      (d.arena.close f.id).node i = d.arena.node i := by
    intro i hi
    rw [Arena.node_close, if_neg (fun hc => h.ne_of_mem hi hc.1)]
  refine ⟨rfl, ⟨?_, ?_, ?_⟩, ?_⟩
  · rw [Arena.node_close, if_pos ⟨rfl, h.cursor_lt⟩, here]
  · intro c hc
    exact (children c hc).congr
      (fun i hi => hfree i (Or.inl (Numbered.ids_subset_idsAll hc hi)))
  · exact rest.congr (fun i hi => hfree i (Or.inr hi))
  · rw [Arena.size_close]
    exact h.numbers

end Draft.LaidOut

end Calculator
