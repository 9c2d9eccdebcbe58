/-
What becomes of a node.

Only a node on the lineage of the cursor is ever changed.  It may be closed, if it is an open
group; it may get one child more; and where an operator or a group is put in the place of the
node below it, the new node takes the place of its last child.  Of the children before the
last one none is exchanged, and none is ever lost.

`Evolves` says this of one node, whether it is on the lineage or not, in such a way that it
holds over any number of tokens once it holds over one.
-/
import Calculator.Proofs.Cursor
import Calculator.Proofs.Draft.Steps

namespace Calculator

/-- The node has the text and the kind given, except that a group may have been closed. -/
def Node.StemsFrom (n : Node) (value : String) (kind : Kind) : Prop :=
  (n.value = value ∧ n.kind = kind) ∨
    (kind = .openGroup ∧ n.value = value ++ ")" ∧ n.kind = .closedGroup)

/-- The text of the node is written as tokens of its kind are. -/
def Node.Spelled (n : Node) : Prop :=
  Kind.of? n.value = some n.kind

/-- What a node may have become some tokens later. -/
structure Node.Evolves (m n : Node) : Prop where
  text : n.StemsFrom m.value m.kind
  children : m.children.dropLast <+: n.children
  /-- There is a child in the place of the last one, too. -/
  length_le : m.children.length ≤ n.children.length

namespace Node

variable {m n k : Node} {value : String} {kind : Kind}

/-- What is no open group stays the token it is. -/
theorem StemsFrom.of_not_open (h : n.StemsFrom value kind) (hclosed : kind ≠ .openGroup) :
    n.value = value ∧ n.kind = kind :=
  h.resolve_right fun hopen => hclosed hopen.1

/-- A group stays a group. -/
theorem StemsFrom.isGroup (h : n.StemsFrom value .openGroup) : n.kind.isGroup = true := by
  rcases h with ⟨-, hkind⟩ | ⟨-, -, hkind⟩ <;> rw [hkind] <;> rfl

theorem StemsFrom.trans (h : m.StemsFrom value kind) (h' : n.StemsFrom m.value m.kind) :
    n.StemsFrom value kind := by
  rcases h with ⟨hvalue, hkind⟩ | ⟨hopen, hvalue, hclosed⟩
  · rw [← hvalue, ← hkind]
    exact h'
  · rcases h' with ⟨hvalue', hkind'⟩ | ⟨hopen', -⟩
    · exact Or.inr ⟨hopen, hvalue'.trans hvalue, hkind'.trans hclosed⟩
    · rw [hclosed] at hopen'
      cases hopen'

namespace Evolves

theorem refl (m : Node) : m.Evolves m :=
  ⟨Or.inl ⟨rfl, rfl⟩, List.dropLast_prefix _, Nat.le_refl _⟩

theorem trans (h : m.Evolves n) (h' : n.Evolves k) : m.Evolves k where
  text := h.text.trans h'.text
  children := by
    have hlength : m.children.dropLast.length ≤ n.children.dropLast.length := by
      rw [List.length_dropLast, List.length_dropLast]
      exact Nat.sub_le_sub_right h.length_le 1
    exact (List.prefix_of_prefix_length_le h.children (List.dropLast_prefix _) hlength).trans
      h'.children
  length_le := Nat.le_trans h.length_le h'.length_le

/-- A `(` that is closed is written `()`. -/
theorem spelled (h : m.Evolves n) (hspelled : m.Spelled) : n.Spelled := by
  rcases h.text with ⟨hvalue, hkind⟩ | ⟨hopen, hvalue, hclosed⟩
  · rw [Spelled, hvalue, hkind]
    exact hspelled
  · rw [Spelled, hopen] at hspelled
    rw [Spelled, hvalue, hclosed, Kind.eq_of_spelling hspelled rfl]
    rfl

end Evolves

end Node

namespace Draft

variable {d next : Draft} {s : Spine} {a : Arena} {x id : Nat}

/-- No node was lost on the way from the one draft to the other, and each has become what it
may. -/
structure Evolves (d next : Draft) : Prop where
  size_le : d.arena.size ≤ next.arena.size
  node : ∀ id < d.arena.size, (d.arena.node id).Evolves (next.arena.node id)

theorem Evolves.refl (d : Draft) : d.Evolves d :=
  ⟨Nat.le_refl _, fun _ _ => .refl _⟩

theorem Evolves.trans {d₁ d₂ d₃ : Draft} (h : d₁.Evolves d₂) (h' : d₂.Evolves d₃) :
    d₁.Evolves d₃ :=
  ⟨Nat.le_trans h.size_le h'.size_le,
    fun id hid => (h.node id hid).trans (h'.node id (Nat.lt_of_lt_of_le hid h.size_le))⟩

/-- A group that is closed stays one in everything but its text and its kind. -/
theorem evolves_closed (hopen : d.current.kind = .openGroup) :
    d.Evolves ⟨d.arena.close d.cursor, d.cursor⟩ := by
  refine ⟨Nat.le_of_eq (Arena.size_close ..).symm, fun id _ => ?_⟩
  show (d.arena.node id).Evolves ((d.arena.close d.cursor).node id)
  rw [Arena.node_close]
  split
  · rename_i hcursor
    rw [hcursor.1]
    exact ⟨Or.inr ⟨hopen, rfl, rfl⟩, List.dropLast_prefix _, Nat.le_refl _⟩
  · exact .refl _

namespace Shows

/-! ### One node more -/

theorem evolves_hang (h : d.Shows s) (value : String) (kind : Kind) :
    d.Evolves (d.hang value kind) where
  size_le := by
    show d.arena.size ≤ (d.arena.pushBelow d.cursor value kind).size
    rw [Arena.size_pushBelow]
    exact Nat.le_succ _
  node := by
    intro id hid
    show (d.arena.node id).Evolves ((d.arena.pushBelow d.cursor value kind).node id)
    rw [Arena.node_pushBelow h.cursor_lt, if_neg (Nat.ne_of_lt hid)]
    split
    · exact ⟨Or.inl ⟨rfl, rfl⟩, (List.dropLast_prefix _).trans (List.prefix_append _ _), by simp⟩
    · exact .refl _

/-- What a walk up from the cursor comes from is the last child, and no other child. -/
theorem children_parent (h : Shows ⟨a, x⟩ s) {parent : Nat} (hparent : a.HangsFrom x parent) :
    ∃ front, (a.node parent).children = front ++ [x] ∧ x ∉ front := by
  have hnodup := h.rooted.1.nodup parent
  obtain ⟨f, above, hlaid, -⟩ := h
  obtain rfl : x = f.id := hlaid.cursor
  have hlast := hlaid.path.last_child f List.mem_cons_self parent hparent
  obtain ⟨front, hchildren⟩ := List.getLast?_eq_some_iff.mp hlast
  refine ⟨front, hchildren, ?_⟩
  rw [hchildren, List.nodup_append] at hnodup
  exact fun hmem => hnodup.2.2 f.id hmem f.id (List.mem_singleton_self _) rfl

theorem evolves_pushAbove (h : Shows ⟨a, x⟩ s) (value : String) (kind : Kind) (cursor : Nat) :
    Evolves ⟨a, cursor⟩ ⟨a.pushAbove x value kind, a.size⟩ where
  size_le := by
    show a.size ≤ (a.pushAbove x value kind).size
    rw [Arena.size_pushAbove]
    exact Nat.le_succ _
  node := by
    intro id hid
    show (a.node id).Evolves ((a.pushAbove x value kind).node id)
    rw [h.node_pushAbove, if_neg (Nat.ne_of_lt hid)]
    split
    · exact ⟨Or.inl ⟨rfl, rfl⟩, List.dropLast_prefix _, Nat.le_refl _⟩
    · split
      · rename_i hparent
        obtain ⟨front, hchildren, hnot⟩ := h.children_parent hparent
        have hreplaced : (a.node id).children.replace x a.size = front ++ [a.size] := by
          rw [hchildren, List.replace_append_right hnot]
          simp
        refine ⟨Or.inl ⟨rfl, rfl⟩, ?_, ?_⟩
        · show (a.node id).children.dropLast <+: (a.node id).children.replace x a.size
          rw [hreplaced, hchildren, List.dropLast_concat]
          exact List.prefix_append _ _
        · simp
      · exact .refl _

theorem evolves_operate (h : d.Shows s) (hx : x ∈ d.arena.lineage d.cursor) (value : String)
    (op : Operator) : d.Evolves (d.operate x value op) := by
  obtain ⟨⟨t, ht⟩, -⟩ := h.of_mem_lineage hx
  exact ht.evolves_pushAbove value (.operator op) d.cursor

/-! ### Groups -/

theorem evolves_enclose (h : d.Shows s) : d.Evolves d.enclose := by
  rcases h.enclose_cases with ⟨group, -, -, heq⟩ | ⟨-, root, -, -, ⟨t, ht⟩, heq⟩
  · rw [heq]
    exact ⟨Nat.le_refl _, fun _ _ => .refl _⟩
  · rw [heq]
    exact ht.evolves_pushAbove "(" .openGroup d.cursor

/-- A `)` and a `,` go to an open group. -/
theorem kind_enclose (h : d.Shows s) : d.enclose.current.kind = .openGroup :=
  h.enclose.current_eq.2.trans (Spine.kind_enclose s)

theorem evolves_close (h : d.Shows s) : d.Evolves d.close :=
  h.evolves_enclose.trans (evolves_closed h.kind_enclose)

/-! ### Any number of tokens -/

/-- **A placement changes a node into what it may become.** -/
theorem evolves_place (h : d.Shows s) (value : String) (kind : Kind) (placement : Placement) :
    d.Evolves (d.place value kind placement) := by
  cases placement with
  | rightOf op => exact h.evolves_operate (h.leftOperand_mem op) value op
  | below => exact h.evolves_hang value kind
  | factor =>
      exact (h.evolves_operate (d.arena.mem_lineage_self d.cursor) _ .times).trans
        (h.implied.evolves_hang value kind)
  | close => exact h.evolves_close
  | separate => exact h.evolves_enclose

theorem evolves_foldlM (h : d.Shows s) {tokens : List String}
    (hrun : tokens.foldlM Draft.step d = .ok next) : d.Evolves next := by
  induction tokens generalizing d s with
  | nil =>
      obtain rfl : d = next := Except.ok.inj hrun
      exact .refl d
  | cons token rest ih =>
      obtain ⟨middle, hstep, hrest⟩ := foldlM_cons_eq_ok hrun
      obtain ⟨t, -, hshows⟩ := h.step hstep
      obtain ⟨kind, placement, -, -, rfl⟩ := step_eq_ok_iff.mp hstep
      exact (h.evolves_place token kind placement).trans (ih hshows hrest)

/-! ### Every node is a token of its kind -/

theorem spelled_hang (h : d.Shows s) (hspelled : ∀ id < d.arena.size, (d.arena.node id).Spelled)
    {value : String} {kind : Kind} (hkind : Kind.of? value = some kind) :
    ∀ id < (d.hang value kind).arena.size, ((d.hang value kind).arena.node id).Spelled := by
  intro id hid
  have hsize : (d.hang value kind).arena.size = d.arena.size + 1 := Arena.size_pushBelow ..
  rcases Nat.lt_succ_iff_lt_or_eq.mp (hsize ▸ hid) with hold | rfl
  · exact ((h.evolves_hang value kind).node id hold).spelled (hspelled id hold)
  · show Kind.of? ((d.arena.pushBelow d.cursor value kind).node d.arena.size).value =
      some ((d.arena.pushBelow d.cursor value kind).node d.arena.size).kind
    rw [Arena.value_pushBelow, Arena.kind_pushBelow, if_pos rfl, if_pos rfl, hkind]

theorem spelled_pushAbove (h : Shows ⟨a, x⟩ s) (hspelled : ∀ id < a.size, (a.node id).Spelled)
    {value : String} {kind : Kind} (hkind : Kind.of? value = some kind) :
    ∀ id < (a.pushAbove x value kind).size, ((a.pushAbove x value kind).node id).Spelled := by
  intro id hid
  rw [Arena.size_pushAbove] at hid
  rcases Nat.lt_succ_iff_lt_or_eq.mp hid with hold | rfl
  · exact ((h.evolves_pushAbove value kind x).node id hold).spelled (hspelled id hold)
  · rw [Node.Spelled, Arena.value_pushAbove, Arena.kind_pushAbove, if_pos rfl, if_pos rfl, hkind]

theorem spelled_enclose (h : d.Shows s)
    (hspelled : ∀ id < d.arena.size, (d.arena.node id).Spelled) :
    ∀ id < d.enclose.arena.size, (d.enclose.arena.node id).Spelled := by
  rcases h.enclose_cases with ⟨group, -, -, heq⟩ | ⟨-, root, -, -, ⟨t, ht⟩, heq⟩
  · rw [heq]
    exact hspelled
  · rw [heq]
    exact ht.spelled_pushAbove hspelled rfl

/-- A placement makes nodes of the kinds of their tokens only. -/
theorem spelled_place (h : d.Shows s)
    (hspelled : ∀ id < d.arena.size, (d.arena.node id).Spelled) {token : String} {kind : Kind}
    {placement : Placement} (hkind : Kind.of? token = some kind)
    (hplace : Placement.of? s.current.kind kind = some placement) :
    ∀ id < (d.place token kind placement).arena.size,
      ((d.place token kind placement).arena.node id).Spelled := by
  cases placement with
  | rightOf op =>
      obtain ⟨-, rfl⟩ := Placement.of?_eq_rightOf hplace
      exact (h.leftOperand op).spelled_pushAbove hspelled hkind
  | below => exact h.spelled_hang hspelled hkind
  | factor =>
      exact h.implied.spelled_hang (spelled_pushAbove h hspelled (Kind.of?_symbol .times)) hkind
  | close =>
      intro id hid
      have hid' : id < d.enclose.arena.size := by
        rwa [show (d.place token kind .close).arena.size = d.enclose.arena.size from
          Arena.size_close ..] at hid
      exact ((evolves_closed h.kind_enclose).node id hid').spelled
        (h.spelled_enclose hspelled id hid')
  | separate => exact h.spelled_enclose hspelled

/-- The nodes above the cursor are its lineage. -/
theorem reaches_iff (h : d.Shows s) (id : Nat) :
    Relation.ReflTransGen d.arena.HangsFrom d.cursor id ↔ id ∈ d.arena.lineage d.cursor := by
  obtain ⟨f, above, hlaid, -⟩ := h
  rw [hlaid.cursor, hlaid.lineage_eq]
  exact hlaid.path.reaches_iff id

end Shows

/-- **Every node is written as tokens of its kind are**, also a group that was closed, a product
that is implied and a group that was opened around everything. -/
theorem spelled_ofTokens {tokens : List String} (h : ofTokens tokens = .ok d) :
    ∀ id < d.arena.size, (d.arena.node id).Spelled := by
  refine ofTokens_induction (P := fun _ d => ∀ id < d.arena.size, (d.arena.node id).Spelled)
    ?_ ?_ tokens d h
  · intro token kind hkind id hid
    obtain rfl : id = 0 := Nat.lt_one_iff.mp hid
    exact hkind
  · intro tokens d s token kind placement _ _ hshows hspelled hkind hplace
    exact hshows.spelled_place hspelled hkind hplace

end Draft

/-- **What is complete is never changed.**  Whatever tokens come, a node that is neither the
cursor nor above it stays exactly what it is, and one that is keeps its children, in their
places, except that the last one may be exchanged. -/
theorem frozen_ofTokens {tokens more : List String} {d next : Draft}
    (hd : Draft.ofTokens tokens = .ok d) (hnext : Draft.ofTokens (tokens ++ more) = .ok next) :
    ∀ id < d.arena.size,
      (¬Relation.ReflTransGen d.arena.HangsFrom d.cursor id →
        next.arena.node id = d.arena.node id) ∧
      (Relation.ReflTransGen d.arena.HangsFrom d.cursor id →
        (d.arena.node id).children.dropLast <+: (next.arena.node id).children ∧
        (d.arena.node id).children.length ≤ (next.arena.node id).children.length) := by
  intro id hid
  obtain ⟨s, hs, hshows⟩ := Draft.exists_spine hd
  obtain ⟨d', hd', hrun⟩ := Draft.ofTokens_append_eq_ok (Spine.ofTokens_ne_nil hs) hnext
  obtain rfl : d = d' := Except.ok.inj (hd.symm.trans hd')
  rw [hshows.reaches_iff]
  refine ⟨fun hbeside => ?_, fun _ => ?_⟩
  · exact (Draft.Beside.foldlM ⟨hid, hbeside⟩ hshows hrun).node_eq
  · have hnode := (hshows.evolves_foldlM hrun).node id hid
    exact ⟨hnode.children, hnode.length_le⟩

/-- Behind `sum(1,2` the number `1` is complete, and the group has two children.  After `^3,4` its
first child is still the `1`, its second one is the power that has taken the place of the `2`,
and there is a third. -/
theorem frozen_power_in_arguments :
    let tokens := ["sum", "(", "1", ",", "2"]
    ∃ d next, Draft.ofTokens tokens = .ok d ∧
      Draft.ofTokens (tokens ++ ["^", "3", ",", "4"]) = .ok next ∧
      (d.arena.node 1).children = [2, 3] ∧ (next.arena.node 1).children = [2, 4, 6] ∧
      next.arena.node 2 = d.arena.node 2 ∧ [2] <+: (next.arena.node 1).children := by
  intro tokens
  obtain ⟨d, hd, hchildren, hsize, hlineage⟩ : ∃ d, Draft.ofTokens tokens = .ok d ∧
      (d.arena.node 1).children = [2, 3] ∧ d.arena.size = 4 ∧
      d.arena.lineage d.cursor = [3, 1, 0] := ⟨_, rfl, by decide⟩
  obtain ⟨next, hnext, hlater⟩ : ∃ next,
      Draft.ofTokens (tokens ++ ["^", "3", ",", "4"]) = .ok next ∧
      (next.arena.node 1).children = [2, 4, 6] := ⟨_, rfl, by decide⟩
  have hfrozen := frozen_ofTokens hd hnext
  obtain ⟨s, -, hshows⟩ := Draft.exists_spine hd
  refine ⟨d, next, hd, hnext, hchildren, hlater, ?_, ?_⟩
  · refine (hfrozen 2 (by omega)).1 ?_
    rw [hshows.reaches_iff, hlineage]
    decide
  · have hkept := (hfrozen 1 (by omega)).2 (by rw [hshows.reaches_iff, hlineage]; decide)
    rw [hchildren] at hkept
    exact hkept.1

end Calculator
