/-
Where the cursor is.

Walking up from the cursor stays on the right edge of the tree.  Everything that is not
finished is met on the way: the groups that are open, and nodes that wait for a child.
So a `)` that looks for its group finds it by walking up, and what an operator climbs
over is complete but for its last child.

All of this is known of spines.  What is added here is that the nodes above the cursor
are the frames of the spine, and that the rest of the arena is in their complete
children.
-/
import Calculator.Proofs.Arena.Rooted
import Calculator.Proofs.Spine.Reading
import Calculator.Proofs.Text.Depth

namespace Calculator

/-- Walking up from the cursor stays on the right edge of the tree, and meets all that is
unfinished and nothing that is finished. -/
structure Draft.OnEdge (d : Draft) : Prop where
  /-- The cursor and the nodes above it are the last children of their parents. -/
  last_child : ∀ id parent, Relation.ReflTransGen d.arena.HangsFrom d.cursor id →
    d.arena.HangsFrom id parent → (d.arena.node parent).children.getLast? = some id
  /-- An open group is the cursor or above it. -/
  open_reached : ∀ id < d.arena.size, (d.arena.node id).kind = .openGroup →
    Relation.ReflTransGen d.arena.HangsFrom d.cursor id
  /-- Above the cursor there is no complete operand, and nothing that cannot be placed. -/
  above_unfinished : ∀ id, Relation.TransGen d.arena.HangsFrom d.cursor id →
    (d.arena.node id).kind ∉ [.closedGroup, .number, .closer, .comma]

/-- How many nodes of the arena are open groups. -/
def Arena.openGroups (a : Arena) : Nat :=
  (List.range a.size).countP fun id => (a.node id).kind = .openGroup

/-- How many groups are open behind the tokens.  A `)` or `,` that is the first token neither
closes nor opens any. -/
def openDepth (tokens : List String) : Nat :=
  if tokens.head? = some ")" ∨ tokens.head? = some "," then 0 else (balance tokens).depth

/-! ### Walks along a path -/

namespace Arena.Path

variable {a : Arena} {below : Option Nat} {f : NumberedFrame} {above : List NumberedFrame}

theorem hangsFrom_iff (h : a.Path below (f :: above)) (parent : Nat) :
    a.HangsFrom f.id parent ↔ ∃ g ∈ above.head?, g.id = parent := by
  rw [HangsFrom, h.1]
  exact Option.map_eq_some_iff

/-- A walk up from the first frame visits the frames. -/
theorem reaches_iff (h : a.Path below (f :: above)) (id : Nat) :
    Relation.ReflTransGen a.HangsFrom f.id id ↔ id ∈ (f :: above).map NumberedFrame.id := by
  induction above generalizing below f with
  | nil =>
      rw [Relation.ReflTransGen.cases_head_iff]
      simp [h.hangsFrom_iff, eq_comm]
  | cons g above ih =>
      have hstep : ∀ parent, a.HangsFrom f.id parent ↔ g.id = parent := by
        simp [h.hangsFrom_iff]
      rw [Relation.ReflTransGen.cases_head_iff, List.map_cons, List.mem_cons, ← ih h.2.2]
      simp only [hstep, exists_eq_left']
      exact or_congr_left eq_comm

/-- One step up from the first frame are the frames above it. -/
theorem strictly_reaches_iff (h : a.Path below (f :: above)) (id : Nat) :
    Relation.TransGen a.HangsFrom f.id id ↔ id ∈ above.map NumberedFrame.id := by
  rw [Relation.TransGen.head'_iff]
  cases above with
  | nil => simp [h.hangsFrom_iff]
  | cons g above =>
      simp only [h.hangsFrom_iff, List.head?_cons, Option.mem_some_iff, exists_eq_left',
        reaches_iff h.2.2]

theorem kind_eq (h : a.Path below (f :: above)) :
    ∀ g ∈ f :: above, (a.node g.id).kind = g.kind := by
  induction above generalizing below f with
  | nil =>
      intro g hg
      rw [List.mem_singleton.mp hg, h.1]
  | cons k above ih =>
      intro g hg
      rcases List.mem_cons.mp hg with rfl | hg
      · rw [h.1]
      · exact ih h.2.2 g hg

/-- Every frame but the last of the path is the last child of the one above it. -/
theorem last_child (h : a.Path below (f :: above)) :
    ∀ g ∈ f :: above, ∀ parent, a.HangsFrom g.id parent →
      (a.node parent).children.getLast? = some g.id := by
  induction above generalizing below f with
  | nil =>
      intro g hg parent hparent
      obtain rfl := List.mem_singleton.mp hg
      rw [h.hangsFrom_iff] at hparent
      simp at hparent
  | cons k above ih =>
      intro g hg parent hparent
      rcases List.mem_cons.mp hg with rfl | hg
      · rw [h.hangsFrom_iff] at hparent
        obtain ⟨k', hk, rfl⟩ := hparent
        obtain rfl := Option.some.inj hk
        rw [h.2.2.1]
        simp
      · exact ih h.2.2 g hg parent hparent

/-- The children that a frame has completed are held. -/
theorem holds (h : a.Path below (f :: above)) :
    ∀ g ∈ f :: above, ∀ c ∈ g.children, a.Holds (some g.id) c := by
  induction above generalizing below f with
  | nil =>
      intro g hg
      rw [List.mem_singleton.mp hg]
      exact h.2.1
  | cons k above ih =>
      intro g hg
      rcases List.mem_cons.mp hg with rfl | hg
      · exact h.2.1
      · exact ih h.2.2 g hg

end Arena.Path

/-! ### Open groups -/

theorem Tree.Sealed.closed_children {t : Tree} (h : t.Sealed) :
    t.kind ≠ .openGroup ∧ ∀ c ∈ t.children, c.Sealed := by
  cases h with
  | leaf hkind =>
      refine ⟨?_, by simp [Tree.children]⟩
      rintro rfl
      cases hkind
  | @take f t _ hkind _ hchildren ht =>
      refine ⟨hkind, ?_⟩
      intro c hc
      rcases List.mem_append.mp hc with hc | hc
      · exact hchildren c hc
      · rw [List.mem_singleton.mp hc]
        exact ht
  | closed hchildren => exact ⟨Kind.noConfusion, hchildren⟩

/-- In a complete operand no group is open. -/
theorem Arena.Holds.closed {a : Arena} {parent : Option Nat} {t : Numbered}
    (h : a.Holds parent t) (hsealed : t.erase.Sealed) :
    ∀ i ∈ t.ids, (a.node i).kind ≠ .openGroup := by
  induction h with
  | @node parent id value kind children here below ih =>
      obtain ⟨hkind, hchildren⟩ := hsealed.closed_children
      intro i hi
      rcases List.mem_cons.mp hi with rfl | hi
      · rw [here]
        exact hkind
      · rw [Numbered.idsAll_eq_flatMap] at hi
        obtain ⟨c, hc, hi⟩ := List.mem_flatMap.mp hi
        refine ih c hc (hchildren c.erase ?_) i hi
        show c.erase ∈ Numbered.eraseAll children
        rw [Numbered.eraseAll_eq_map]
        exact List.mem_map_of_mem hc

namespace Spine

/-- A first token that ends something is the only one. -/
theorem continuable_or_single {tokens : List String} {s : Spine} (h : ofTokens tokens = .ok s) :
    Continuable tokens ∨ ∃ token kind, s = ⟨⟨token, kind, []⟩, []⟩ ∧ kind ≠ .openGroup ∧
      (tokens.head? = some ")" ∨ tokens.head? = some ",") := by
  by_cases hcloser : tokens.head? = some ")"
  · exact Or.inr ⟨_, _, eq_single_of_head h hcloser rfl (Or.inl rfl), nofun, Or.inl hcloser⟩
  · by_cases hcomma : tokens.head? = some ","
    · exact Or.inr ⟨_, _, eq_single_of_head h hcomma rfl (Or.inr rfl), nofun, Or.inr hcomma⟩
    · exact Or.inl ⟨hcloser, hcomma⟩

/-- What a frame has completed is sealed. -/
theorem sealed_children {tokens : List String} {s : Spine} (h : ofTokens tokens = .ok s) :
    ∀ f ∈ s.current :: s.above, ∀ t ∈ f.children, t.Sealed := by
  rcases continuable_or_single h with hcontinuable | ⟨token, kind, rfl, -⟩
  · exact fun f hf => ((neat_ofTokens h hcontinuable).frames f hf).children
  · simp

theorem opens_eq_openDepth {tokens : List String} {s : Spine} (h : ofTokens tokens = .ok s) :
    s.opens = openDepth tokens := by
  rcases continuable_or_single h with hcontinuable | ⟨token, kind, rfl, hkind, hfirst⟩
  · rw [openDepth, if_neg, opens_ofTokens h hcontinuable]
    rintro (hcloser | hcomma)
    · exact hcontinuable.closer hcloser
    · exact hcontinuable.comma hcomma
  · rw [openDepth, if_pos hfirst]
    simp [opens, Frame.isOpen, hkind]

end Spine

/-! ### The cursor -/

namespace Draft.LaidOut

variable {d : Draft} {f : NumberedFrame} {above : List NumberedFrame}

/-- Every node of the arena is a frame, or in a child that a frame has completed. -/
theorem frame_or_child (h : d.LaidOut f above) {id : Nat} (hid : id < d.arena.size) :
    ∃ g ∈ f :: above, id = g.id ∨ ∃ c ∈ g.children, id ∈ c.ids := by
  have hmem := h.numbers.mem_iff.mpr (List.mem_range.mpr hid)
  obtain ⟨g, hg, hid⟩ := List.mem_flatMap.mp hmem
  rw [NumberedFrame.ids, Numbered.idsAll_eq_flatMap, List.mem_cons, List.mem_flatMap] at hid
  exact ⟨g, hg, hid⟩

/-- No group is open in what the frames have completed. -/
theorem closed_below (h : d.LaidOut f above)
    (hsealed : ∀ g ∈ (f :: above).map NumberedFrame.erase, ∀ t ∈ g.children, t.Sealed) :
    ∀ g ∈ f :: above, ∀ c ∈ g.children, ∀ i ∈ c.ids, (d.arena.node i).kind ≠ .openGroup := by
  intro g hg c hc
  refine (h.path.holds g hg c hc).closed (hsealed g.erase (List.mem_map_of_mem hg) c.erase ?_)
  rw [NumberedFrame.erase, Numbered.eraseAll_eq_map]
  exact List.mem_map_of_mem hc

/-- If all that is complete is closed, the open groups are the open frames. -/
theorem openGroups_eq (h : d.LaidOut f above)
    (hclosed : ∀ g ∈ f :: above, ∀ c ∈ g.children, ∀ i ∈ c.ids,
      (d.arena.node i).kind ≠ .openGroup) :
    d.arena.openGroups = (f :: above).countP fun g => g.kind = .openGroup := by
  have hframe : ∀ g ∈ f :: above, g.ids.countP (fun i => (d.arena.node i).kind = .openGroup) =
      if g.kind = .openGroup then 1 else 0 := by
    intro g hg
    have hchildren : (Numbered.idsAll g.children).countP
        (fun i => (d.arena.node i).kind = .openGroup) = 0 := by
      rw [List.countP_eq_zero, Numbered.idsAll_eq_flatMap]
      intro i hi
      obtain ⟨c, hc, hi⟩ := List.mem_flatMap.mp hi
      simpa using hclosed g hg c hc i hi
    rw [NumberedFrame.ids, List.countP_cons, hchildren, h.path.kind_eq g hg]
    simp
  rw [Arena.openGroups, ← h.numbers.countP_eq]
  clear h hclosed
  generalize f :: above = frames at hframe
  induction frames with
  | nil => rfl
  | cons g frames ih =>
      rw [List.flatMap_cons, List.countP_append, hframe g List.mem_cons_self,
        ih fun k hk => hframe k (List.mem_cons_of_mem _ hk), List.countP_cons, Nat.add_comm]
      simp

end Draft.LaidOut

/-- **The cursor is on the right edge of the tree** whatever has been read, and as many groups
of the arena are open as a count of parentheses and commas says. -/
theorem onEdge_ofTokens {tokens : List String} {d : Draft} (h : Draft.ofTokens tokens = .ok d) :
    d.OnEdge ∧ d.arena.openGroups = openDepth tokens := by
  obtain ⟨s, hs, f, above, hlaid, rfl⟩ := Draft.exists_spine h
  have hproper := Spine.proper_ofTokens hs
  have hclosed := hlaid.closed_below (Spine.sealed_children hs)
  refine ⟨{ last_child := ?_, open_reached := ?_, above_unfinished := ?_ }, ?_⟩
  · intro id parent hid hparent
    rw [hlaid.cursor, hlaid.path.reaches_iff] at hid
    obtain ⟨g, hg, rfl⟩ := List.mem_map.mp hid
    exact hlaid.path.last_child g hg parent hparent
  · intro id hid hopen
    rw [hlaid.cursor, hlaid.path.reaches_iff]
    obtain ⟨g, hg, rfl | ⟨c, hc, hmem⟩⟩ := hlaid.frame_or_child hid
    · exact List.mem_map_of_mem hg
    · exact absurd hopen (hclosed g hg c hc id hmem)
  · intro id hid
    rw [hlaid.cursor, hlaid.path.strictly_reaches_iff] at hid
    obtain ⟨g, hg, rfl⟩ := List.mem_map.mp hid
    have hpending := hproper.above g.erase (List.mem_map_of_mem hg)
    rw [hlaid.path.kind_eq g (List.mem_cons_of_mem _ hg)]
    rcases hpending.kind_cases with ⟨op, hk⟩ | hk | hk
    all_goals
      rw [show g.kind = _ from hk]
      simp
  · rw [hlaid.openGroups_eq hclosed, ← Spine.opens_eq_openDepth hs]
    show _ = ((f :: above).map NumberedFrame.erase).countP Frame.isOpen
    rw [List.countP_map]
    rfl

/-- In `1,cos((2)` two of three groups are open, the first of them around everything. -/
theorem onEdge_two_open :
    let tokens := ["1", ",", "cos", "(", "(", "2", ")"]
    ∃ d, Draft.ofTokens tokens = .ok d ∧ d.OnEdge ∧ d.arena.openGroups = 2 := by
  intro tokens
  obtain ⟨d, hd⟩ : ∃ d, Draft.ofTokens tokens = .ok d := ⟨_, rfl⟩
  obtain ⟨hedge, hopen⟩ := onEdge_ofTokens hd
  have hdepth : openDepth tokens = 2 := by decide
  exact ⟨d, hd, hedge, hopen.trans hdepth⟩

end Calculator
