/-
The open groups of a draft.

They are all on the lineage of the cursor, and which they are does not change when the
cursor walks up: no walk leaves an open group behind.  So the list of their numbers is a
stack.  A `(` pushes the new node, a `)` pops the group that it closes, and where there is
none, one that is opened around everything is all there is.
-/
import Calculator.Proofs.Cursor
import Calculator.Proofs.Draft.Steps

namespace Calculator.Draft

variable {d next : Draft} {s t : Spine}

/-- The numbers of the open groups, the innermost first. -/
def openPath (d : Draft) : List Nat :=
  (d.arena.lineage d.cursor).filter fun id => (d.arena.node id).kind = .openGroup

namespace Shows

/-- There are as many as the spine has open. -/
theorem length_openPath (h : d.Shows s) : d.openPath.length = s.opens := by
  obtain ⟨f, above, hlaid, rfl⟩ := h
  rw [openPath, ← List.countP_eq_length_filter, hlaid.cursor, hlaid.lineage_eq, List.countP_map]
  show _ = ((f :: above).map NumberedFrame.erase).countP Frame.isOpen
  rw [List.countP_map]
  refine List.countP_congr fun g hg => ?_
  simp only [Function.comp_apply, hlaid.path.kind_eq g hg]
  rfl

/-- A walk that closes nothing keeps them all. -/
theorem openPath_eq (h : d.Shows s) (hnext : next.Shows t) (hopens : t.opens = s.opens)
    (hsuffix : next.openPath <:+ d.openPath) : next.openPath = d.openPath :=
  hsuffix.eq_of_length (by rw [hnext.length_openPath, h.length_openPath, hopens])

theorem lt_of_mem_lineage (h : d.Shows s) {id : Nat} (hid : id ∈ d.arena.lineage d.cursor) :
    id < d.arena.size :=
  h.inBounds.lineage_lt id hid

theorem openPath_hang (h : d.Shows s) (value : String) (kind : Kind) :
    (d.hang value kind).openPath =
      if kind = .openGroup then d.arena.size :: d.openPath else d.openPath := by
  have hkind : ∀ id, ((d.hang value kind).arena.node id).kind =
      if id = d.arena.size then kind else (d.arena.node id).kind :=
    d.arena.kind_pushBelow d.cursor value kind
  have hrest : (d.arena.lineage d.cursor).filter
      (fun id => ((d.hang value kind).arena.node id).kind = .openGroup) = d.openPath := by
    refine List.filter_congr fun id hid => ?_
    rw [hkind, if_neg (Nat.ne_of_lt (h.lt_of_mem_lineage hid))]
  rw [openPath, show (d.hang value kind).cursor = d.arena.size from rfl, h.lineage_hang,
    List.filter_cons, hrest, hkind, if_pos rfl]
  simp

/-- A node above one of the lineage is open or not; further up nothing changes. -/
theorem openPath_pushAbove {x : Nat} (h : d.Shows s) (hx : x ∈ d.arena.lineage d.cursor)
    (value : String) (kind : Kind) :
    openPath ⟨d.arena.pushAbove x value kind, d.arena.size⟩ =
      (if kind = .openGroup then [d.arena.size] else []) ++
        (d.arena.lineage x).tail.filter fun id => (d.arena.node id).kind = .openGroup := by
  obtain ⟨⟨t, ht⟩, hsuffix⟩ := h.of_mem_lineage hx
  have hkind := d.arena.kind_pushAbove x value kind
  have hrest : (d.arena.lineage x).tail.filter
        (fun id => ((d.arena.pushAbove x value kind).node id).kind = .openGroup) =
      (d.arena.lineage x).tail.filter fun id => (d.arena.node id).kind = .openGroup := by
    refine List.filter_congr fun id hid => ?_
    have hlt := h.lt_of_mem_lineage (hsuffix.subset (List.mem_of_mem_tail hid))
    rw [hkind, if_neg (Nat.ne_of_lt hlt)]
  rw [openPath, ht.lineage_pushAbove, List.filter_cons, hrest, hkind, if_pos rfl]
  by_cases hopen : kind = .openGroup <;> simp [hopen]

/-- An operator above a node of the lineage leaves the open groups as they are. -/
theorem openPath_operate {x : Nat} (h : d.Shows s) (hx : x ∈ d.arena.lineage d.cursor)
    (ht : Shows ⟨d.arena, x⟩ t) {value : String} {op : Operator}
    (hopens : (t.operate value op).opens = s.opens) :
    (d.operate x value op).openPath = d.openPath := by
  refine h.openPath_eq (ht.operate d.cursor value op) hopens ?_
  obtain ⟨-, hsuffix⟩ := h.of_mem_lineage hx
  have hpath : (d.operate x value op).openPath = _ :=
    h.openPath_pushAbove hx value (.operator op)
  rw [hpath, if_neg nofun]
  exact ((List.tail_suffix _).trans hsuffix).filter _

/-- A `)` or a `,` finds the first of the open groups; where there is none, there is one
afterwards. -/
theorem openPath_enclose (h : d.Shows s) :
    (∃ group rest, d.openPath = group :: rest ∧ d.enclose = ⟨d.arena, group⟩ ∧
      d.enclose.openPath = d.openPath) ∨
    (d.openPath = [] ∧ ∃ root ∈ d.arena.lineage d.cursor, (d.arena.node root).parent = none ∧
      (∃ t, Shows ⟨d.arena, root⟩ t) ∧
      d.enclose = ⟨d.arena.pushAbove root "(" .openGroup, d.arena.size⟩ ∧
      d.enclose.openPath = [d.arena.size]) := by
  rcases h.enclose_cases with ⟨group, hgroup, hopen, heq⟩ | ⟨hnone, root, hroot, hparent, ⟨t, ht⟩, heq⟩
  · have hmem : group ∈ d.openPath := List.mem_filter.mpr ⟨hgroup, decide_eq_true hopen⟩
    have hsame : d.enclose.openPath = d.openPath := by
      refine h.openPath_eq h.enclose ?_ ?_
      · rw [Spine.opens_enclose, ← h.length_openPath]
        have hpos := List.length_pos_of_mem hmem
        omega
      · rw [heq]
        exact (h.of_mem_lineage hgroup).2.filter _
    obtain ⟨⟨t, ht⟩, -⟩ := h.of_mem_lineage hgroup
    have hlineage : d.arena.lineage group = group :: _ := ht.lineage_eq
    have hpath : ∃ rest, d.openPath = group :: rest := by
      rw [← hsame, heq, openPath, hlineage]
      exact ⟨_, List.filter_cons_of_pos (by simpa using hopen)⟩
    obtain ⟨rest, hpath⟩ := hpath
    exact Or.inl ⟨group, rest, hpath, heq, hsame⟩
  · have hempty : d.openPath = [] := by
      refine List.filter_eq_nil_iff.mpr fun id hid => ?_
      simpa using hnone id hid
    have hlineage : d.arena.lineage root = [root] := by
      rw [ht.lineage_eq, hparent]
      rfl
    refine Or.inr ⟨hempty, root, hroot, hparent, ⟨t, ht⟩, heq, ?_⟩
    rw [heq, h.openPath_pushAbove hroot, hlineage]
    rfl

/-- Closing the group that the cursor is on pops it. -/
theorem openPath_closed (h : d.Shows s) (hopen : d.current.kind = .openGroup) :
    openPath ⟨d.arena.close d.cursor, d.cursor⟩ = d.openPath.tail := by
  have hlineage : d.arena.lineage d.cursor = d.cursor :: _ := lineage_eq h
  have hnot : d.cursor ∉ (d.arena.lineage d.cursor).tail := not_mem_tail h
  rw [hlineage, List.tail_cons] at hnot
  have hkind : (d.arena.node d.cursor).kind = .openGroup := hopen
  rw [openPath, h.lineage_close, openPath, hlineage, List.filter_cons_of_neg,
    List.filter_cons_of_pos (by simpa using hkind), List.tail_cons]
  · refine List.filter_congr fun id hid => ?_
    have hne : d.cursor ≠ id := fun hsame => hnot (hsame ▸ hid)
    rw [Arena.kind_close, if_neg fun hboth => hne hboth.1]
  · rw [Arena.kind_close, if_pos ⟨rfl, h.cursor_lt⟩]
    decide

theorem openPath_close (h : d.Shows s) : d.close.openPath = d.enclose.openPath.tail :=
  h.enclose.openPath_closed (h.enclose.current_eq.2.trans (Spine.kind_enclose s))

end Shows

end Calculator.Draft
