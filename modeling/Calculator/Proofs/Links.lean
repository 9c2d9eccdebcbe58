/-
The links of a draft and of an expression.

Whatever has been read so far, its nodes are one tree: a draft shows a spine, and when
the frames of a spine are complete there is a single tree left with all the numbers of
the arena.  So no number that is stored, and none that a walk along the links comes
upon, is past the end of the arena.
-/
import Calculator.Proofs.Arena.Rooted
import Calculator.Proofs.Spine.Reading

namespace Calculator

/-- Every node that the next token looks up or changes is there. -/
structure Draft.InBounds (d : Draft) : Prop where
  cursor_lt : d.cursor < d.arena.size
  /-- The nodes that a walk up from the cursor may visit. -/
  lineage_lt : ∀ id ∈ d.arena.lineage d.cursor, id < d.arena.size
  /-- The operand that an operator is put above. -/
  operand_lt : ∀ op, d.leftOperand op < d.arena.size
  /-- The group that a `)` or a `,` moves to, which may be a new one. -/
  group_lt : d.enclose.cursor < d.enclose.arena.size

namespace Draft

variable {d : Draft} {s : Spine}

theorem Shows.cursor_lt (h : d.Shows s) : d.cursor < d.arena.size := by
  obtain ⟨f, above, hlaid, -⟩ := h
  rw [hlaid.cursor]
  exact hlaid.cursor_lt

theorem Shows.inBounds (h : d.Shows s) : d.InBounds where
  cursor_lt := h.cursor_lt
  lineage_lt := by
    obtain ⟨f, above, hlaid, -⟩ := h
    intro id hid
    rw [hlaid.cursor, hlaid.lineage_eq] at hid
    obtain ⟨g, hg, rfl⟩ := List.mem_map.mp hid
    exact hlaid.lt_size (List.mem_flatMap.mpr ⟨g, hg, List.mem_cons_self⟩)
  operand_lt := fun op => (h.leftOperand op).cursor_lt
  group_lt := h.enclose.cursor_lt

/-- The tree that a draft has become when there are no more tokens has every number once. -/
theorem Shows.exists_numbered (h : d.Shows s) : ∃ t : Numbered,
    d.arena.Holds none t ∧ t.ids.Perm (List.range d.arena.size) ∧ t.id = d.finish.root := by
  obtain ⟨f, above, hlaid, -⟩ := h
  obtain ⟨a, cursor⟩ := d
  obtain rfl : cursor = f.id := hlaid.cursor
  obtain ⟨t, hholds, hids, htop, -⟩ := hlaid.whole
  exact ⟨t, hholds, hids, htop⟩

/-- The arena of a draft is one tree, and its preorder has every number once. -/
theorem Shows.rooted (h : d.Shows s) : d.arena.Rooted d.finish.root ∧
    (d.arena.preorder d.finish.root).Perm (List.range d.arena.size) := by
  obtain ⟨t, hholds, hids, hroot⟩ := h.exists_numbered
  have hlength : t.ids.length = d.arena.size := by rw [hids.length_eq, List.length_range]
  have hpreorder : d.arena.preorder t.id = t.ids := hholds.preorderWithin d.arena.size (by omega)
  rw [← hroot]
  exact ⟨hholds.rooted hids, hpreorder ▸ hids⟩

end Draft

/-- **The nodes are one tree** after every token.  The tokens read so far are a list of tokens
as well, so this is about every draft on the way, and the next token finds all the nodes that
it asks for.  The tree of an expression has every node of its arena exactly once. -/
theorem links_ofTokens (tokens : List String) :
    (∀ d, Draft.ofTokens tokens = .ok d →
      d.InBounds ∧ d.arena.Rooted (d.arena.top d.cursor)) ∧
    ∀ e, Expression.ofTokens tokens = .ok e →
      e.arena.Rooted e.root ∧ (e.arena.preorder e.root).Perm (List.range e.arena.size) := by
  refine ⟨fun d hd => ?_, fun e he => ?_⟩
  · obtain ⟨s, -, hshows⟩ := Draft.exists_spine hd
    exact ⟨hshows.inBounds, hshows.rooted.1⟩
  · cases hd : Draft.ofTokens tokens with
    | error err =>
        rw [Expression.ofTokens, hd] at he
        cases he
    | ok d =>
        rw [Expression.ofTokens, hd] at he
        obtain rfl : d.finish = e := Except.ok.inj he
        obtain ⟨s, -, hshows⟩ := Draft.exists_spine hd
        exact hshows.rooted

/-- In `1)*sin(2` the group is made after its content and the product after the group, so the
node that was made first is a leaf, and preorder is no order of making. -/
theorem links_group_after_content :
    let tokens := ["1", ")", "*", "sin", "(", "2"]
    ∃ d e, Draft.ofTokens tokens = .ok d ∧ Expression.ofTokens tokens = .ok e ∧
      (d.InBounds ∧ d.arena.Rooted (d.arena.top d.cursor)) ∧ e.arena.Rooted e.root ∧
      e.arena.preorder e.root = [2, 1, 0, 3, 4, 5] ∧
      (e.arena.preorder e.root).Perm (List.range e.arena.size) := by
  intro tokens
  obtain ⟨d, hd⟩ : ∃ d, Draft.ofTokens tokens = .ok d := ⟨_, rfl⟩
  have hpreorder : ∃ e, Expression.ofTokens tokens = .ok e ∧
      e.arena.preorder e.root = [2, 1, 0, 3, 4, 5] := ⟨_, rfl, by decide⟩
  obtain ⟨e, he, hpreorder⟩ := hpreorder
  have hlinks := links_ofTokens tokens
  exact ⟨d, e, hd, he, hlinks.1 d hd, (hlinks.2 e he).1, hpreorder, (hlinks.2 e he).2⟩

end Calculator
