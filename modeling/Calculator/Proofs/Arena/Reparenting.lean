/-
Putting a node in the place of another.

This is how operators and late groups get above what is already there.  It is the only
operation that takes a child away from its parent, and it writes to four lists and links one
after the other, so what it does is stated here for every arena whose links are sound, not
only for those that come from reading tokens.

Nothing but one slot and three links changes.  No circle arises, because a walk up the new
links is a walk up the old ones with the new node left out; and for the same reason the top
of every tree stays what it was, unless that is where the new node was put.
-/
import Mathlib.Data.List.Nodup
import Calculator.Arena.Lemmas
import Calculator.Proofs.Arena.Forest
import Calculator.Proofs.Links

namespace Calculator.Arena

/-! ### What is done -/

/-- The node is there, and it hangs nowhere and has no children. -/
structure Detached (a : Arena) (node : Nat) : Prop where
  lt_size : node < a.size
  parent : (a.node node).parent = none
  children : (a.node node).children = []

/-- In `b` the node `node` has the place that `below` has in `a`, and `below` hangs from it.
Everything else is the same. -/
structure PutAbove (a b : Arena) (below node : Nat) : Prop where
  size_eq : b.size = a.size
  value_eq : ∀ id, (b.node id).value = (a.node id).value
  kind_eq : ∀ id, (b.node id).kind = (a.node id).kind
  /-- Among the children of the parent the one node stands where the other one stood. -/
  slot : ∀ parent, a.HangsFrom below parent → b.HangsFrom node parent ∧
    ∃ front back, (a.node parent).children = front ++ below :: back ∧
      (b.node parent).children = front ++ node :: back
  /-- A node that is put on top of a tree is the top. -/
  free : (a.node below).parent = none → (b.node node).parent = none
  children_node : (b.node node).children = [below]
  parent_below : b.HangsFrom below node
  parent_eq : ∀ id, id ≠ node → id ≠ below → (b.node id).parent = (a.node id).parent
  children_eq : ∀ id, id ≠ node → ¬a.HangsFrom below id →
    (b.node id).children = (a.node id).children
  top_eq : ∀ id, id ≠ node → b.top id = if a.top id = below then node else a.top id
  top_node : b.top node = b.top below

/-! ### The links afterwards -/

variable {a : Arena} {below node : Nat}

namespace Detached

/-- Nothing hangs from it. -/
theorem not_hangsFrom (h : a.Detached node) (ha : a.Linked) (id : Nat) :
    ¬a.HangsFrom id node := by
  intro hid
  have hmem := (ha.mem_children_iff node id).mpr hid
  rw [h.children] at hmem
  cases hmem

/-- It is nobody's child. -/
theorem not_mem_children (h : a.Detached node) (ha : a.Linked) (id : Nat) :
    node ∉ (a.node id).children := by
  intro hmem
  have hparent := (ha.mem_children_iff id node).mp hmem
  rw [HangsFrom, h.parent] at hparent
  cases hparent

end Detached

/-- A child stands in one slot of its parent. -/
theorem Linked.exists_slot (ha : a.Linked) {parent : Nat} (hparent : a.HangsFrom below parent) :
    ∃ front back, (a.node parent).children = front ++ below :: back ∧
      below ∉ front ∧ below ∉ back := by
  have hmem := (ha.mem_children_iff parent below).mpr hparent
  obtain ⟨front, back, hchildren⟩ := List.append_of_mem hmem
  have hnodup := ha.nodup parent
  rw [hchildren, List.nodup_middle, List.nodup_cons, List.mem_append, not_or] at hnodup
  exact ⟨front, back, hchildren, hnodup.1⟩

section

variable (hbelow : below < a.size) (hnode : a.Detached node) (hne : node ≠ below)

include hbelow hnode hne

theorem hangsFrom_insertAbove (child id : Nat) : (a.insertAbove below node).HangsFrom child id ↔
    if child = below then id = node
    else if child = node then a.HangsFrom below id
    else a.HangsFrom child id := by
  unfold HangsFrom
  rw [parent_insertAbove hbelow hnode.lt_size hnode.parent]
  by_cases hchild : child = below
  · simp [hchild, eq_comm]
  · by_cases hfresh : child = node
    · simp [hfresh, hne, Ne.symm hne]
    · simp [hchild, hfresh, Ne.symm hchild, Ne.symm hfresh]

omit hbelow hne

/-- The children of the parent of `below`, before and after. -/
theorem slot_insertAbove (ha : a.Linked) {parent : Nat} (hparent : a.HangsFrom below parent) :
    ∃ front back, (a.node parent).children = front ++ below :: back ∧
      below ∉ front ∧ below ∉ back ∧
      ((a.insertAbove below node).node parent).children = front ++ node :: back := by
  obtain ⟨front, back, hchildren, hfront, hback⟩ := ha.exists_slot hparent
  refine ⟨front, back, hchildren, hfront, hback, ?_⟩
  have hlink : (a.node below).parent = some parent := hparent
  have hother : node ≠ parent := by
    rintro rfl
    exact hnode.not_hangsFrom ha below hparent
  rw [children_insertAbove hnode.lt_size, if_pos hlink, if_neg hother, hchildren,
    List.replace_append_right hfront, List.append_nil]
  simp

theorem children_insertAbove_node (ha : a.Linked) :
    ((a.insertAbove below node).node node).children = [below] := by
  have hlink : (a.node below).parent ≠ some node := hnode.not_hangsFrom ha below
  rw [children_insertAbove hnode.lt_size, if_neg hlink, if_pos rfl, hnode.children]
  rfl

theorem children_insertAbove_of_ne {id : Nat} (hid : id ≠ node) (hparent : ¬a.HangsFrom below id) :
    ((a.insertAbove below node).node id).children = (a.node id).children := by
  have hlink : (a.node below).parent ≠ some id := hparent
  rw [children_insertAbove hnode.lt_size, if_neg hlink, if_neg (Ne.symm hid), List.append_nil]

end

/-! ### The links are sound again -/

/-- The node that stands where `id` stands when `node` has not been put above `below`. -/
def without (below node id : Nat) : Nat :=
  if id = node then below else id

section

variable (hbelow : below < a.size) (hnode : a.Detached node) (hne : node ≠ below)

include hbelow hnode hne

/-- A node has the children that hang from it, each of them once. -/
theorem children_hang_insertAbove (ha : a.Linked) (id : Nat) :
    ((a.insertAbove below node).node id).children.Nodup ∧
      ∀ child, child ∈ ((a.insertAbove below node).node id).children ↔
        (a.insertAbove below node).HangsFrom child id := by
  by_cases hid : id = node
  · rw [hid, children_insertAbove_node hnode ha]
    refine ⟨List.nodup_singleton below, fun child => ?_⟩
    rw [hangsFrom_insertAbove hbelow hnode hne, List.mem_singleton]
    by_cases hchild : child = below
    · simp [hchild]
    · by_cases hfresh : child = node <;> simp [hchild, hfresh, hnode.not_hangsFrom ha, hne]
  · by_cases hparent : a.HangsFrom below id
    · obtain ⟨front, back, hchildren, hfront, hback, hafter⟩ := slot_insertAbove hnode ha hparent
      have hnodup := ha.nodup id
      have hfresh := hnode.not_mem_children ha id
      rw [hchildren] at hnodup hfresh
      rw [hafter]
      refine ⟨?_, fun child => ?_⟩
      · rw [List.nodup_middle, List.nodup_cons] at hnodup ⊢
        refine ⟨fun hmem => hfresh ?_, hnodup.2⟩
        exact List.mem_append.mpr ((List.mem_append.mp hmem).imp_right (List.mem_cons_of_mem _))
      · have hbefore := ha.mem_children_iff id child
        rw [hchildren] at hbefore
        rw [hangsFrom_insertAbove hbelow hnode hne]
        by_cases hchild : child = below
        · simp [hchild, hfront, hback, hid, Ne.symm hne]
        · by_cases hnew : child = node
          · simp [hnew, hne, hparent]
          · rw [if_neg hchild, if_neg hnew, ← hbefore]
            simp [hchild, hnew]
    · rw [children_insertAbove_of_ne hnode hid hparent]
      refine ⟨ha.nodup id, fun child => ?_⟩
      rw [hangsFrom_insertAbove hbelow hnode hne, ha.mem_children_iff]
      by_cases hchild : child = below
      · simp [hchild, hid, hparent]
      · by_cases hnew : child = node
        · rw [if_neg hchild, if_pos hnew, hnew, HangsFrom, hnode.parent]
          simp [hparent]
        · rw [if_neg hchild, if_neg hnew]

/-- A step up the new links is one up the old ones, or it is the step to the new node. -/
theorem step_insertAbove (ha : a.Linked) {x y : Nat}
    (hstep : (a.insertAbove below node).HangsFrom x y) :
    x = below ∧ y = node ∨ a.HangsFrom (without below node x) (without below node y) := by
  have hold : ∀ id, a.HangsFrom id y → without below node y = y := by
    intro id hid
    refine if_neg fun hy => hnode.not_hangsFrom ha id ?_
    rwa [hy] at hid
  rw [hangsFrom_insertAbove hbelow hnode hne] at hstep
  unfold without at hold ⊢
  by_cases hx : x = below
  · rw [if_pos hx] at hstep
    exact Or.inl ⟨hx, hstep⟩
  · refine Or.inr ?_
    by_cases hnew : x = node
    · rw [if_neg hx, if_pos hnew] at hstep
      rw [hold below hstep, if_pos hnew]
      exact hstep
    · rw [if_neg hx, if_neg hnew] at hstep
      rw [hold x hstep, if_neg hnew]
      exact hstep

/-- A walk up the new links is one up the old ones, or it is the step to the new node alone. -/
theorem walk_insertAbove (ha : a.Linked) {x y : Nat}
    (hwalk : Relation.TransGen (a.insertAbove below node).HangsFrom x y) :
    x = below ∧ y = node ∨
      Relation.TransGen a.HangsFrom (without below node x) (without below node y) := by
  have hat : without below node node = below := if_pos rfl
  have hthere : without below node below = below := if_neg (Ne.symm hne)
  induction hwalk with
  | single hstep => exact (step_insertAbove hbelow hnode hne ha hstep).imp_right .single
  | @tail y z _ hstep ih =>
      refine Or.inr ?_
      rcases step_insertAbove hbelow hnode hne ha hstep with ⟨hy, hz⟩ | hold
      · -- The new node is passed by.
        rcases ih with ⟨-, hy'⟩ | ih
        · exact absurd (hy'.symm.trans hy) hne
        · rw [hy, hthere] at ih
          rwa [hz, hat]
      · rcases ih with ⟨hx, hy⟩ | ih
        · rw [hy, hat] at hold
          rw [hx, hthere]
          exact .single hold
        · exact ih.tail hold

/-- **Putting a node in the place of another keeps the links sound.** -/
theorem Forest.insertAbove (ha : a.Forest) : (a.insertAbove below node).Forest where
  child_lt := by
    intro id child hchild
    have hlink := ((children_hang_insertAbove hbelow hnode hne ha.toLinked id).2 child).mp hchild
    exact hlink.lt_size
  parent_lt := by
    intro id parent hparent
    rw [size_insertAbove]
    rw [hangsFrom_insertAbove hbelow hnode hne] at hparent
    by_cases hid : id = below
    · rw [if_pos hid] at hparent
      exact hparent ▸ hnode.lt_size
    · rw [if_neg hid] at hparent
      by_cases hnew : id = node
      · rw [if_pos hnew] at hparent
        exact ha.parent_lt below parent hparent
      · rw [if_neg hnew] at hparent
        exact ha.parent_lt id parent hparent
  mem_children_iff := fun id => (children_hang_insertAbove hbelow hnode hne ha.toLinked id).2
  nodup := fun id => (children_hang_insertAbove hbelow hnode hne ha.toLinked id).1
  acyclic := by
    intro id hcircle
    rcases walk_insertAbove hbelow hnode hne ha.toLinked hcircle with ⟨hid, hid'⟩ | hold
    · exact hne (hid'.symm.trans hid)
    · exact ha.acyclic _ hold

/-! ### The tops afterwards -/

/-- **A tree keeps its top**, unless it was there that the node was put. -/
theorem Forest.top_insertAbove (ha : a.Forest) : ∀ id, id ≠ node →
    (a.insertAbove below node).top id = if a.top id = below then node else a.top id := by
  have hb := ha.insertAbove hbelow hnode hne
  have hlinks := hangsFrom_insertAbove hbelow hnode hne
  have hparent := parent_insertAbove hbelow hnode.lt_size hnode.parent
  have hup : (a.insertAbove below node).top below = (a.insertAbove below node).top node :=
    hb.top_of_parent ((hlinks below node).mpr (by rw [if_pos rfl]))
  refine ha.upward_induction ?_ ?_
  · intro id hnone hid
    rw [ha.top_of_none hnone]
    by_cases hplace : id = below
    · rw [if_pos hplace, hplace, hup]
      refine hb.top_of_none ?_
      rw [hparent, if_neg (Ne.symm hne), if_pos rfl, ← hplace, hnone]
    · rw [if_neg hplace]
      refine hb.top_of_none ?_
      rw [hparent, if_neg (Ne.symm hplace), if_neg (Ne.symm hid), hnone]
  · intro id above habove ih hid
    have hother : above ≠ node := by
      rintro rfl
      exact hnode.not_hangsFrom ha.toLinked id habove
    rw [ha.top_of_parent habove, ← ih hother]
    by_cases hplace : id = below
    · rw [hplace] at habove ⊢
      rw [hup]
      exact hb.top_of_parent ((hlinks node above).mpr (by rwa [if_neg hne, if_pos rfl]))
    · exact hb.top_of_parent ((hlinks id above).mpr (by rwa [if_neg hplace, if_neg hid]))

/-! ### The operation -/

theorem Forest.putAbove (ha : a.Forest) :
    PutAbove a (a.insertAbove below node) below node := by
  have hb := ha.insertAbove hbelow hnode hne
  have hlinks := hangsFrom_insertAbove hbelow hnode hne
  have hparent := parent_insertAbove hbelow hnode.lt_size hnode.parent
  have hup : (a.insertAbove below node).HangsFrom below node :=
    (hlinks below node).mpr (by rw [if_pos rfl])
  exact {
    size_eq := size_insertAbove a below node
    value_eq := value_insertAbove a below node
    kind_eq := kind_insertAbove a below node
    slot := by
      intro parent habove
      obtain ⟨front, back, hbefore, -, -, hafter⟩ := slot_insertAbove hnode ha.toLinked habove
      refine ⟨(hlinks node parent).mpr ?_, front, back, hbefore, hafter⟩
      rwa [if_neg hne, if_pos rfl]
    free := by
      intro hnone
      rw [hparent, if_neg (Ne.symm hne), if_pos rfl, hnone]
    children_node := children_insertAbove_node hnode ha.toLinked
    parent_below := hup
    parent_eq := by
      intro id hid hplace
      rw [hparent, if_neg (Ne.symm hplace), if_neg (Ne.symm hid)]
    children_eq := fun id hid habove => children_insertAbove_of_ne hnode hid habove
    top_eq := ha.top_insertAbove hbelow hnode hne
    top_node := (hb.top_of_parent hup).symm }

end

/-- **Putting a node in the place of another** exchanges one slot, sets three links, and leaves
everything else as it is.  This is so whatever the order in which the nodes were made, and
however many trees there are.  The tops, before and after, are where the walks up end. -/
theorem insertAbove_putAbove (ha : a.Forest) (hbelow : below < a.size) (hnode : a.Detached node)
    (hne : node ≠ below) :
    (a.insertAbove below node).Forest ∧ PutAbove a (a.insertAbove below node) below node ∧
      ∀ id < a.size, WalkEnds a.parent? a.size id (a.top id) ∧
        WalkEnds (a.insertAbove below node).parent? a.size id
          ((a.insertAbove below node).top id) := by
  have hb : (a.insertAbove below node).Forest := ha.insertAbove hbelow hnode hne
  have hput := ha.putAbove hbelow hnode hne
  refine ⟨hb, hput, fun id hid => ⟨(ha.walksEnd hid).top, ?_⟩⟩
  rw [← hput.size_eq] at hid ⊢
  exact (hb.walksEnd hid).top

/-! ### A node that is still detached -/

theorem parent_push (a : Arena) (value : String) (kind : Kind) (id : Nat) :
    ((a.push value kind).node id).parent = (a.node id).parent := by
  rw [node_push]
  by_cases hnew : id = a.size
  · rw [if_pos hnew, node_of_size_le (Nat.le_of_eq hnew.symm)]
    rfl
  · rw [if_neg hnew]

theorem children_push (a : Arena) (value : String) (kind : Kind) (id : Nat) :
    ((a.push value kind).node id).children = (a.node id).children := by
  rw [node_push]
  by_cases hnew : id = a.size
  · rw [if_pos hnew, node_of_size_le (Nat.le_of_eq hnew.symm)]
    rfl
  · rw [if_neg hnew]

/-- A node that was just made is one more tree. -/
theorem Forest.push (ha : a.Forest) (value : String) (kind : Kind) :
    (a.push value kind).Forest := by
  have hlinks : (a.push value kind).HangsFrom = a.HangsFrom := by
    funext child id
    rw [HangsFrom, HangsFrom, parent_push]
  refine { child_lt := ?_, parent_lt := ?_, mem_children_iff := ?_, nodup := ?_, acyclic := ?_ }
  · intro id child hchild
    rw [children_push] at hchild
    rw [size_push]
    exact Nat.lt_succ_of_lt (ha.child_lt id child hchild)
  · intro id parent hparent
    rw [hlinks] at hparent
    rw [size_push]
    exact Nat.lt_succ_of_lt (ha.parent_lt id parent hparent)
  · intro id child
    rw [children_push, hlinks]
    exact ha.mem_children_iff id child
  · intro id
    rw [children_push]
    exact ha.nodup id
  · rw [hlinks]
    exact ha.acyclic

/-- In `1+2` a product is put in the place of the `1`, and in that of the sum.  First it becomes
the first operand of the sum, before the `2`, and the sum is still the top; then it is the top. -/
theorem insertAbove_operand_and_sum :
    ∃ d, Draft.ofTokens ["1", "+", "2"] = .ok d ∧
      let a := d.arena.push "*" (.operator .times)
      a.Forest ∧ a.Detached 3 ∧ (a.node 1).children = [0, 2] ∧
        (a.insertAbove 0 3).Forest ∧ PutAbove a (a.insertAbove 0 3) 0 3 ∧
        ((a.insertAbove 0 3).node 1).children = [3, 2] ∧ (a.insertAbove 0 3).top 0 = 1 ∧
        (a.insertAbove 1 3).Forest ∧ PutAbove a (a.insertAbove 1 3) 1 3 ∧
        (a.insertAbove 1 3).top 0 = 3 := by
  obtain ⟨d, hd, hsize, hdetached, hbefore, hafter, htop⟩ : ∃ d,
      Draft.ofTokens ["1", "+", "2"] = .ok d ∧
      (let a := d.arena.push "*" (.operator .times)
       a.size = 4 ∧ ((a.node 3).parent = none ∧ (a.node 3).children = []) ∧
        (a.node 1).children = [0, 2] ∧ ((a.insertAbove 0 3).node 1).children = [3, 2] ∧
        a.top 0 = 1) := ⟨_, rfl, by decide⟩
  obtain ⟨s, -, hshows⟩ := Draft.exists_spine hd
  have hforest := hshows.rooted.1.forest.push "*" (.operator .times)
  have hone : 0 < (d.arena.push "*" (.operator .times)).size := by omega
  have hsum : 1 < (d.arena.push "*" (.operator .times)).size := by omega
  have hnode : (d.arena.push "*" (.operator .times)).Detached 3 :=
    ⟨by omega, hdetached.1, hdetached.2⟩
  obtain ⟨hforest₀, hput₀, -⟩ := insertAbove_putAbove hforest hone hnode (by decide)
  obtain ⟨hforest₁, hput₁, -⟩ := insertAbove_putAbove hforest hsum hnode (by decide)
  refine ⟨d, hd, hforest, hnode, hbefore, hforest₀, hput₀, hafter, ?_, hforest₁, hput₁, ?_⟩
  · simp [hput₀.top_eq 0 (by decide), htop]
  · simp [hput₁.top_eq 0 (by decide), htop]

end Calculator.Arena
