/-
What a step does to the nodes of a draft.

A draft is changed on the lineage of its cursor and nowhere else.  The operand of an
operator and the group of a `)` are found on it, a new node is put in front of it or
between two of its nodes, and what is left of it is a suffix of what it was.  So a node
that is beside the lineage once is beside it for good, and nothing about it ever changes.

Drafts are related to spines here only to know that the nodes on a lineage are different
and all there; the equations are about numbered nodes.
-/
import Calculator.Proofs.Links
import Calculator.Proofs.Spine.Proper

namespace Calculator

/-! ### Reading token by token -/

namespace Draft

theorem step_eq_ok_iff {d next : Draft} {token : String} :
    d.step token = .ok next ↔ ∃ kind placement, Kind.of? token = some kind ∧
      Placement.of? d.current.kind kind = some placement ∧
      next = d.place token kind placement := by
  unfold step Kind.classify
  cases hkind : Kind.of? token with
  | none => simp [bind, Except.bind]
  | some kind =>
      cases hplace : Placement.of? d.current.kind kind with
      | none => simp [bind, Except.bind, hplace, throw, throwThe, MonadExceptOf.throw]
      | some placement =>
          simp [bind, Except.bind, hplace, pure, Except.pure, eq_comm]

theorem start_eq_ok_iff {d : Draft} {token : String} :
    start token = .ok d ↔ ∃ kind, Kind.of? token = some kind ∧ d = single token kind := by
  unfold start Kind.classify
  cases hkind : Kind.of? token with
  | none => simp [bind, Except.bind]
  | some kind => simp [bind, Except.bind, pure, Except.pure, eq_comm]

/-- The tokens behind the first ones are added to the draft of those. -/
theorem ofTokens_append {before : List String} (hne : before ≠ []) (after : List String) :
    ofTokens (before ++ after) = (ofTokens before).bind (after.foldlM step) := by
  obtain ⟨first, rest, rfl⟩ := List.exists_cons_of_ne_nil hne
  show (start first >>= fun d => (rest ++ after).foldlM step d) =
    (start first >>= fun d => rest.foldlM step d).bind (after.foldlM step)
  cases start first with
  | error e => rfl
  | ok d =>
      show (rest ++ after).foldlM step d = (rest.foldlM step d).bind (after.foldlM step)
      rw [List.foldlM_append]
      rfl

/-- The first of some more tokens is added, and then the others. -/
theorem foldlM_cons_eq_ok {d next : Draft} {token : String} {rest : List String}
    (h : (token :: rest).foldlM step d = .ok next) :
    ∃ middle, d.step token = .ok middle ∧ rest.foldlM step middle = .ok next := by
  rw [List.foldlM_cons] at h
  cases hstep : d.step token with
  | error e =>
      rw [hstep] at h
      cases h
  | ok middle =>
      rw [hstep] at h
      exact ⟨middle, rfl, h⟩

/-- Tokens that are read have first ones that are read. -/
theorem ofTokens_append_eq_ok {before after : List String} {next : Draft} (hne : before ≠ [])
    (h : ofTokens (before ++ after) = .ok next) :
    ∃ d, ofTokens before = .ok d ∧ after.foldlM step d = .ok next := by
  rw [ofTokens_append hne] at h
  cases hd : ofTokens before with
  | error e =>
      rw [hd] at h
      cases h
  | ok d =>
      rw [hd] at h
      exact ⟨d, rfl, h⟩

/-- A step keeps that a draft shows a spine. -/
theorem Shows.step {d next : Draft} {s : Spine} {token : String} (h : d.Shows s)
    (hstep : d.step token = .ok next) : ∃ t, s.step token = .ok t ∧ next.Shows t := by
  have halike := step_alike h token
  rw [hstep] at halike
  generalize s.step token = x at halike
  cases halike with
  | ok shows => exact ⟨_, rfl, shows⟩

/-- **What holds of the first token and is kept by every placement holds of whatever was
read.** -/
theorem ofTokens_induction {P : List String → Draft → Prop}
    (single : ∀ token kind, Kind.of? token = some kind → P [token] (single token kind))
    (more : ∀ tokens d s token kind placement, ofTokens tokens = .ok d →
      Spine.ofTokens tokens = .ok s → d.Shows s → P tokens d → Kind.of? token = some kind →
      Placement.of? s.current.kind kind = some placement →
      P (tokens ++ [token]) (d.place token kind placement)) :
    ∀ tokens d, ofTokens tokens = .ok d → P tokens d := by
  intro tokens
  induction tokens using List.reverseRecOn with
  | nil =>
      intro d h
      cases h
  | append_singleton tokens token ih =>
      intro d h
      by_cases hnil : tokens = []
      · subst hnil
        have hstart : start token = .ok d := by
          rw [← h]
          show start token = start token >>= fun d => pure d
          rw [bind_pure]
        obtain ⟨kind, hkind, rfl⟩ := start_eq_ok_iff.mp hstart
        exact single token kind hkind
      · obtain ⟨prev, hprev, hrun⟩ := ofTokens_append_eq_ok hnil h
        obtain ⟨s, hs, hshows⟩ := exists_spine hprev
        obtain ⟨next, hstep, hnext⟩ := foldlM_cons_eq_ok hrun
        obtain rfl : next = d := Except.ok.inj hnext
        obtain ⟨kind, placement, hkind, hplace, rfl⟩ := step_eq_ok_iff.mp hstep
        exact more tokens prev s token kind placement hprev hs hshows (ih prev hprev) hkind
          (hshows.current_eq.2 ▸ hplace)

end Draft

/-- An expression is a draft that was read to the end. -/
theorem Expression.ofTokens_eq_ok_iff {tokens : List String} {e : Expression} :
    Expression.ofTokens tokens = .ok e ↔ ∃ d, Draft.ofTokens tokens = .ok d ∧ e = d.finish := by
  unfold Expression.ofTokens
  cases Draft.ofTokens tokens with
  | error err => simp [bind, Except.bind]
  | ok d => simp [bind, Except.bind, pure, Except.pure, eq_comm]

/-! ### Lineages -/

namespace Arena

theorem mem_lineage_self (a : Arena) (id : Nat) : id ∈ a.lineage id :=
  List.mem_of_mem_head? (Option.mem_def.mpr (a.head?_lineage id))

theorem operandEndingIn_mem_lineage (a : Arena) (precedence id : Nat) :
    a.operandEndingIn precedence id ∈ a.lineage id := by
  rcases List.mem_cons.mp (List.getLastD_mem_cons (a := id)) with hsame | hmem
  · rw [operandEndingIn, hsame]
    exact a.mem_lineage_self id
  · exact List.mem_of_mem_tail (List.takeWhile_subset _ hmem)

theorem top_mem_lineage (a : Arena) (id : Nat) : a.top id ∈ a.lineage id := by
  rcases List.mem_cons.mp (List.getLastD_mem_cons (l := a.lineage id) (a := id)) with hsame | hmem
  · rw [top, hsame]
    exact a.mem_lineage_self id
  · exact hmem

end Arena

namespace Draft

variable {d : Draft} {s : Spine} {a : Arena} {x : Nat}

/-- A node of the lineage shows a spine as well, and its lineage is the rest. -/
theorem LaidOut.of_mem_lineage {above : List NumberedFrame} {f : NumberedFrame}
    (h : LaidOut ⟨a, f.id⟩ f above) (hx : x ∈ a.lineage f.id) :
    (∃ t, Shows ⟨a, x⟩ t) ∧ a.lineage x <:+ a.lineage f.id := by
  induction above generalizing f with
  | nil =>
      have hlineage : a.lineage f.id = [f.id] := h.lineage_eq
      rw [hlineage, List.mem_singleton] at hx
      rw [hx]
      exact ⟨⟨_, _, _, h, rfl⟩, List.suffix_refl _⟩
  | cons g above ih =>
      have hcons : a.lineage f.id = f.id :: a.lineage g.id := h.lineage_cons
      rw [hcons, List.mem_cons] at hx
      rcases hx with rfl | hx
      · exact ⟨⟨_, _, _, h, rfl⟩, List.suffix_refl _⟩
      · obtain ⟨hshows, hsuffix⟩ := ih (f := g.take f.tree) h.up hx
        rw [hcons]
        exact ⟨hshows, hsuffix.trans (List.suffix_cons _ _)⟩

namespace Shows

theorem of_mem_lineage (h : d.Shows s) (hx : x ∈ d.arena.lineage d.cursor) :
    (∃ t, Shows ⟨d.arena, x⟩ t) ∧ d.arena.lineage x <:+ d.arena.lineage d.cursor := by
  obtain ⟨f, above, hlaid, -⟩ := h
  obtain ⟨a, cursor⟩ := d
  obtain rfl : cursor = f.id := hlaid.cursor
  exact hlaid.of_mem_lineage hx

/-- Behind a node its lineage goes on with that of its parent. -/
theorem lineage_eq (h : Shows ⟨a, x⟩ s) :
    a.lineage x = x :: (a.node x).parent.toList.flatMap a.lineage := by
  obtain ⟨f, above, hlaid, -⟩ := h
  obtain rfl : x = f.id := hlaid.cursor
  have hparent : (a.node f.id).parent = above.head?.map NumberedFrame.id :=
    congrArg Node.parent hlaid.current_eq
  rw [hparent]
  cases above with
  | nil => exact hlaid.lineage_eq
  | cons g above =>
      have hcons : a.lineage f.id = f.id :: a.lineage g.id := hlaid.lineage_cons
      simpa using hcons

theorem nodup_lineage (h : Shows ⟨a, x⟩ s) : (a.lineage x).Nodup := by
  obtain ⟨f, above, hlaid, -⟩ := h
  obtain rfl : x = f.id := hlaid.cursor
  have hlineage : a.lineage f.id = (f :: above).map NumberedFrame.id := hlaid.lineage_eq
  rw [hlineage]
  refine (List.Sublist.nodup ?_ hlaid.nodup)
  generalize f :: above = frames
  induction frames with
  | nil => exact List.Sublist.refl _
  | cons g frames ih =>
      exact (List.singleton_sublist.mpr List.mem_cons_self).append ih

theorem lineage_of_parent (h : Shows ⟨a, x⟩ s) {parent : Nat} (hparent : a.HangsFrom x parent) :
    a.lineage x = x :: a.lineage parent := by
  rw [h.lineage_eq, hparent]
  simp

/-- No node is further up its own lineage. -/
theorem not_mem_tail (h : Shows ⟨a, x⟩ s) : x ∉ (a.lineage x).tail := by
  have hnodup := h.nodup_lineage
  rw [h.lineage_eq] at hnodup ⊢
  exact (List.nodup_cons.mp hnodup).1

/-- The parent of a node is further up its lineage. -/
theorem parent_mem (h : Shows ⟨a, x⟩ s) {parent : Nat} (hparent : a.HangsFrom x parent) :
    parent ∈ (a.lineage x).tail := by
  rw [h.lineage_of_parent hparent]
  exact a.mem_lineage_self parent

theorem parent_ne (h : Shows ⟨a, x⟩ s) {parent : Nat} (hparent : a.HangsFrom x parent) :
    parent ≠ x := by
  rintro rfl
  exact h.not_mem_tail (h.parent_mem hparent)

/-- What is further up the lineage of a node of a lineage is further up there as well. -/
theorem tail_subset (h : d.Shows s) (hx : x ∈ d.arena.lineage d.cursor) :
    (d.arena.lineage x).tail ⊆ (d.arena.lineage d.cursor).tail := by
  obtain ⟨-, hsuffix⟩ := h.of_mem_lineage hx
  have hlineage : d.arena.lineage d.cursor = d.cursor :: _ := lineage_eq h
  rw [hlineage] at hsuffix ⊢
  rcases List.suffix_cons_iff.mp hsuffix with hsame | hrest
  · rw [hsame]
    exact List.Subset.refl _
  · exact fun i hi => hrest.subset (List.mem_of_mem_tail hi)

theorem wholeCall_mem (h : Shows ⟨a, x⟩ s) : a.wholeCall x ∈ a.lineage x := by
  unfold Arena.wholeCall
  split
  · rename_i parent _ hparent
    split
    · exact List.mem_of_mem_tail (h.parent_mem hparent)
    · exact a.mem_lineage_self x
  · exact a.mem_lineage_self x

theorem leftOperand_mem (h : d.Shows s) (op : Operator) :
    d.leftOperand op ∈ d.arena.lineage d.cursor := by
  have hclimb := d.arena.operandEndingIn_mem_lineage op.precedence d.cursor
  obtain ⟨⟨t, ht⟩, hsuffix⟩ := h.of_mem_lineage hclimb
  exact hsuffix.subset ht.wholeCall_mem

/-! ### One node more -/

/-- A node that is hung from the cursor is in front of the lineage. -/
theorem lineage_hang (h : d.Shows s) (value : String) (kind : Kind) :
    (d.hang value kind).arena.lineage d.arena.size =
      d.arena.size :: d.arena.lineage d.cursor := by
  obtain ⟨f, above, hlaid, -⟩ := h
  have hnew := (hlaid.hang value kind).lineage_eq
  rw [hlaid.cursor, hlaid.lineage_eq]
  exact hnew

/-- A node that is put in the place of another one takes its place in the lineage. -/
theorem lineage_pushAbove (h : Shows ⟨a, x⟩ s) (value : String) (kind : Kind) :
    (a.pushAbove x value kind).lineage a.size = a.size :: (a.lineage x).tail := by
  obtain ⟨f, above, hlaid, -⟩ := h
  obtain rfl : x = f.id := hlaid.cursor
  have hold : a.lineage f.id = (f :: above).map NumberedFrame.id := hlaid.lineage_eq
  have hnew := (hlaid.pushAbove value kind).lineage_eq
  rw [hold]
  exact hnew

theorem node_pushAbove (h : Shows ⟨a, x⟩ s) (value : String) (kind : Kind) (id : Nat) :
    (a.pushAbove x value kind).node id =
      if id = a.size then ⟨value, kind, [x], (a.node x).parent⟩
      else if id = x then { a.node id with parent := some a.size }
      else if (a.node x).parent = some id then
        { a.node id with children := (a.node id).children.replace x a.size }
      else a.node id :=
  Arena.node_pushAbove h.cursor_lt
    (fun _ hparent => ⟨h.rooted.1.parent_lt _ _ hparent, h.parent_ne hparent⟩) value kind id

/-- After hanging a node the links are the old ones and the new one. -/
theorem hangsFrom_hang (h : d.Shows s) (value : String) (kind : Kind) (child id : Nat) :
    (d.hang value kind).arena.HangsFrom child id ↔
      child = d.arena.size ∧ id = d.cursor ∨
        child ≠ d.arena.size ∧ d.arena.HangsFrom child id := by
  show ((d.arena.pushBelow d.cursor value kind).node child).parent = some id ↔ _
  rw [Arena.node_pushBelow h.cursor_lt]
  by_cases hnew : child = d.arena.size
  · simp [hnew, eq_comm]
  · rw [if_neg hnew, Arena.HangsFrom]
    split <;> simp [hnew]

/-- After putting a node in the place of another, it hangs where the other one hung, and the
other one hangs from it. -/
theorem hangsFrom_pushAbove (h : Shows ⟨a, x⟩ s) (value : String) (kind : Kind)
    (child id : Nat) : (a.pushAbove x value kind).HangsFrom child id ↔
      child = a.size ∧ a.HangsFrom x id ∨ child = x ∧ id = a.size ∨
        child ≠ a.size ∧ child ≠ x ∧ a.HangsFrom child id := by
  have hlt : x ≠ a.size := Nat.ne_of_lt h.cursor_lt
  simp only [Arena.HangsFrom]
  rw [h.node_pushAbove]
  by_cases hnew : child = a.size
  · subst hnew
    simp [hlt.symm]
  · by_cases hx : child = x
    · subst hx
      simp [hlt, eq_comm]
    · by_cases hparent : (a.node x).parent = some child <;> simp [hnew, hx, hparent]

theorem lineage_close (h : d.Shows s) :
    (d.arena.close d.cursor).lineage d.cursor = d.arena.lineage d.cursor := by
  obtain ⟨f, above, hlaid, -⟩ := h
  obtain ⟨a, cursor⟩ := d
  obtain rfl : cursor = f.id := hlaid.cursor
  have hold : a.lineage f.id = (f :: above).map NumberedFrame.id := hlaid.lineage_eq
  have hnew := hlaid.close.lineage_eq
  rw [hold]
  exact hnew

/-- What a `)` and a `,` do before anything else: move up to an open group, or put one around
everything. -/
theorem enclose_cases (h : d.Shows s) :
    (∃ group ∈ d.arena.lineage d.cursor, (d.arena.node group).kind = .openGroup ∧
      d.enclose = ⟨d.arena, group⟩) ∨
    (∀ id ∈ d.arena.lineage d.cursor, (d.arena.node id).kind ≠ .openGroup) ∧
      ∃ root ∈ d.arena.lineage d.cursor, (d.arena.node root).parent = none ∧
        (∃ t, Shows ⟨d.arena, root⟩ t) ∧
        d.enclose = ⟨d.arena.pushAbove root "(" .openGroup, d.arena.size⟩ := by
  unfold Draft.enclose
  split
  · rename_i group hgroup
    have hopen := List.find?_some hgroup
    exact Or.inl ⟨group, List.mem_of_find?_eq_some hgroup, by simpa using hopen, rfl⟩
  · rename_i hnone
    have htop := d.arena.top_mem_lineage d.cursor
    obtain ⟨hrooted, -⟩ := h.rooted
    refine Or.inr ⟨?_, d.arena.top d.cursor, htop, ?_, (h.of_mem_lineage htop).1, rfl⟩
    · intro id hid
      simpa using List.find?_eq_none.mp hnone id hid
    · exact (hrooted.parent_eq_none_iff _ hrooted.root_lt).mpr rfl

end Shows

/-! ### The product of a factor

A factor is placed in two steps: the product is put in the place of the cursor, and the factor
is hung from it. -/

/-- The draft with the product, before the factor comes. -/
def implied (d : Draft) : Draft :=
  d.operate d.cursor Operator.times.symbol .times

theorem multiply_eq (d : Draft) (value : String) (kind : Kind) :
    d.multiply value kind = d.implied.hang value kind := rfl

@[simp] theorem cursor_implied (d : Draft) : d.implied.cursor = d.arena.size := rfl

@[simp] theorem size_implied (d : Draft) : d.implied.arena.size = d.arena.size + 1 :=
  Arena.size_pushAbove ..

theorem Shows.implied (h : d.Shows s) :
    d.implied.Shows (s.operate Operator.times.symbol .times) :=
  Shows.operate h d.cursor _ .times

/-! ### Beside the lineage -/

/-- The node is there, and it is not the cursor or above it. -/
structure Beside (d : Draft) (id : Nat) : Prop where
  lt_size : id < d.arena.size
  not_mem : id ∉ d.arena.lineage d.cursor

/-- From the one draft to the other the node stays beside the lineage, and nothing about it
changes. -/
structure Spares (d next : Draft) (id : Nat) : Prop where
  beside : next.Beside id
  node_eq : next.arena.node id = d.arena.node id

theorem Spares.trans {d₁ d₂ d₃ : Draft} {id : Nat} (h₁ : d₁.Spares d₂ id) (h₂ : d₂.Spares d₃ id) :
    d₁.Spares d₃ id :=
  ⟨h₂.beside, h₂.node_eq.trans h₁.node_eq⟩

namespace Beside

variable {id : Nat}

theorem hang (hbeside : d.Beside id) (h : d.Shows s) (value : String) (kind : Kind) :
    d.Spares (d.hang value kind) id := by
  have hcursor : id ≠ d.cursor := fun hsame =>
    hbeside.not_mem (hsame ▸ d.arena.mem_lineage_self d.cursor)
  have hnew : id ≠ d.arena.size := Nat.ne_of_lt hbeside.lt_size
  refine ⟨⟨?_, ?_⟩, ?_⟩
  · show id < (d.arena.pushBelow d.cursor value kind).size
    rw [Arena.size_pushBelow]
    exact Nat.lt_succ_of_lt hbeside.lt_size
  · show id ∉ (d.hang value kind).arena.lineage d.arena.size
    rw [h.lineage_hang, List.mem_cons, not_or]
    exact ⟨hnew, hbeside.not_mem⟩
  · show (d.arena.pushBelow d.cursor value kind).node id = d.arena.node id
    rw [Arena.node_pushBelow h.cursor_lt, if_neg hnew, if_neg hcursor]

theorem pushAbove (hbeside : d.Beside id) (h : d.Shows s) (hx : x ∈ d.arena.lineage d.cursor)
    (value : String) (kind : Kind) :
    d.Spares ⟨d.arena.pushAbove x value kind, d.arena.size⟩ id := by
  obtain ⟨⟨t, ht⟩, hsuffix⟩ := h.of_mem_lineage hx
  have hnot : id ∉ d.arena.lineage x := fun hmem => hbeside.not_mem (hsuffix.subset hmem)
  have hnew : id ≠ d.arena.size := Nat.ne_of_lt hbeside.lt_size
  refine ⟨⟨?_, ?_⟩, ?_⟩
  · rw [Arena.size_pushAbove]
    exact Nat.lt_succ_of_lt hbeside.lt_size
  · rw [ht.lineage_pushAbove, List.mem_cons, not_or]
    exact ⟨hnew, fun hmem => hnot (List.mem_of_mem_tail hmem)⟩
  · have hne : id ≠ x := fun hsame => hnot (hsame ▸ d.arena.mem_lineage_self x)
    have hparent : ¬(d.arena.node x).parent = some id := fun hhangs =>
      hnot (List.mem_of_mem_tail (ht.parent_mem hhangs))
    rw [ht.node_pushAbove, if_neg hnew, if_neg hne, if_neg hparent]

theorem enclose (hbeside : d.Beside id) (h : d.Shows s) : d.Spares d.enclose id := by
  rcases h.enclose_cases with ⟨group, hgroup, -, heq⟩ | ⟨-, root, hroot, -, -, heq⟩
  · rw [heq]
    exact ⟨⟨hbeside.lt_size, fun hmem =>
      hbeside.not_mem ((h.of_mem_lineage hgroup).2.subset hmem)⟩, rfl⟩
  · rw [heq]
    exact hbeside.pushAbove h hroot "(" .openGroup

/-- Closing the node of the cursor changes nothing beside the lineage. -/
theorem closed (hbeside : d.Beside id) (h : d.Shows s) :
    d.Spares ⟨d.arena.close d.cursor, d.cursor⟩ id := by
  have hcursor : id ≠ d.cursor := fun hsame =>
    hbeside.not_mem (hsame ▸ d.arena.mem_lineage_self d.cursor)
  refine ⟨⟨?_, ?_⟩, ?_⟩
  · show id < (d.arena.close d.cursor).size
    rw [Arena.size_close]
    exact hbeside.lt_size
  · show id ∉ (d.arena.close d.cursor).lineage d.cursor
    rw [h.lineage_close]
    exact hbeside.not_mem
  · show (d.arena.close d.cursor).node id = d.arena.node id
    rw [Arena.node_close, if_neg (fun hboth => hcursor hboth.1)]

theorem close (hbeside : d.Beside id) (h : d.Shows s) : d.Spares d.close id := by
  have hspares := hbeside.enclose h
  exact hspares.trans (hspares.beside.closed h.enclose)

/-- **A placement spares what is beside the lineage.** -/
theorem place (hbeside : d.Beside id) (h : d.Shows s) (value : String) (kind : Kind)
    (placement : Placement) : d.Spares (d.place value kind placement) id := by
  cases placement with
  | rightOf op => exact hbeside.pushAbove h (h.leftOperand_mem op) value (.operator op)
  | below => exact hbeside.hang h value kind
  | factor =>
      have hproduct := hbeside.pushAbove h (d.arena.mem_lineage_self d.cursor)
        Operator.times.symbol (.operator .times)
      exact hproduct.trans (hproduct.beside.hang h.implied value kind)
  | close => exact hbeside.close h
  | separate => exact hbeside.enclose h

/-- **What is beside the lineage stays as it is** however many tokens come. -/
theorem foldlM (hbeside : d.Beside id) (h : d.Shows s) {tokens : List String} {next : Draft}
    (hrun : tokens.foldlM step d = .ok next) : d.Spares next id := by
  induction tokens generalizing d s with
  | nil =>
      obtain rfl : d = next := Except.ok.inj hrun
      exact ⟨hbeside, rfl⟩
  | cons token rest ih =>
      obtain ⟨middle, hstep, hrest⟩ := foldlM_cons_eq_ok hrun
      obtain ⟨t, -, hshows⟩ := h.step hstep
      obtain ⟨kind, placement, -, -, rfl⟩ := step_eq_ok_iff.mp hstep
      have hspares := hbeside.place h token kind placement
      exact hspares.trans (ih hspares.beside hshows hrest)

end Beside

end Draft

end Calculator
