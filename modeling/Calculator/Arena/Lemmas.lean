/-
What each node is after an operation on its arena.

For every operation there is one equation for the size and one for each part of a
node: its value and kind, its children, its parent.  They speak about all nodes at
once, so a node the operation does not mention is seen to be left alone.  Nothing
that is proved about arenas later has to look inside the array again.
-/
import Calculator.Arena.Basic

namespace Calculator.Arena

/-! ### Reading and changing one node -/

theorem node_eq (a : Arena) (id : Nat) : a.node id = (a.nodes[id]?).getD default := by
  rw [node, Array.getD_eq_getD_getElem?]

/-- Past the end there is only the default node. -/
theorem node_of_size_le {a : Arena} {id : Nat} (h : a.size ≤ id) : a.node id = default := by
  have h' : a.nodes.size ≤ id := h
  simp [node_eq, h']

@[simp] theorem size_update (a : Arena) (id : Nat) (change : Node → Node) :
    (a.update id change).size = a.size := by
  simp [size, update]

/-- Only the node with the number is changed, and only if there is one. -/
theorem node_update (a : Arena) (id : Nat) (change : Node → Node) (other : Nat) :
    (a.update id change).node other =
      if id = other ∧ id < a.size then change (a.node other) else a.node other := by
  simp only [node_eq, update, Array.getElem?_modify, size]
  by_cases h : id = other
  · subst h
    by_cases hlt : id < a.nodes.size <;> simp [hlt]
  · simp [h]

/-! ### Making a node -/

@[simp] theorem size_push (a : Arena) (value : String) (kind : Kind) :
    (a.push value kind).size = a.size + 1 := by
  simp [size, push]

/-- The node just made is a token that hangs nowhere; the others stay what they were. -/
theorem node_push (a : Arena) (value : String) (kind : Kind) (id : Nat) :
    (a.push value kind).node id = if id = a.size then { value, kind } else a.node id := by
  simp only [node_eq, push, Array.getElem?_push, size]
  split <;> rfl

/-! ### Hanging a node below another -/

@[simp] theorem size_addChild (a : Arena) (parent child : Nat) :
    (a.addChild parent child).size = a.size := by
  simp [addChild]

@[simp] theorem value_addChild (a : Arena) (parent child id : Nat) :
    ((a.addChild parent child).node id).value = (a.node id).value := by
  simp only [addChild, node_update]
  split <;> split <;> rfl

@[simp] theorem kind_addChild (a : Arena) (parent child id : Nat) :
    ((a.addChild parent child).node id).kind = (a.node id).kind := by
  simp only [addChild, node_update]
  split <;> split <;> rfl

theorem children_addChild (a : Arena) (parent child id : Nat) :
    ((a.addChild parent child).node id).children =
      if parent = id ∧ parent < a.size then (a.node id).children ++ [child]
      else (a.node id).children := by
  simp only [addChild, node_update, size_update]
  split <;> split <;> rfl

theorem parent_addChild (a : Arena) (parent child id : Nat) :
    ((a.addChild parent child).node id).parent =
      if child = id ∧ child < a.size then some parent else (a.node id).parent := by
  simp only [addChild, node_update, size_update]
  split <;> split <;> rfl

/-! ### Putting a node in the place of another -/

@[simp] theorem size_insertAbove (a : Arena) (below node : Nat) :
    (a.insertAbove below node).size = a.size := by
  unfold insertAbove
  split <;> simp

@[simp] theorem value_insertAbove (a : Arena) (below node id : Nat) :
    ((a.insertAbove below node).node id).value = (a.node id).value := by
  unfold insertAbove
  split
  · simp
  · simp only [value_addChild, node_update]
    split <;> split <;> rfl

@[simp] theorem kind_insertAbove (a : Arena) (below node id : Nat) :
    ((a.insertAbove below node).node id).kind = (a.node id).kind := by
  unfold insertAbove
  split
  · simp
  · simp only [kind_addChild, node_update]
    split <;> split <;> rfl

/-- The new node takes the parent of the old one, and the old one takes the new one as
its parent. -/
theorem parent_insertAbove {a : Arena} {below node : Nat} (hbelow : below < a.size)
    (hnode : node < a.size) (hfree : (a.node node).parent = none) (id : Nat) :
    ((a.insertAbove below node).node id).parent =
      if below = id then some node
      else if node = id then (a.node below).parent
      else (a.node id).parent := by
  unfold insertAbove
  split
  · rename_i hnone
    by_cases hid : node = id <;> simp_all [parent_addChild]
  · rename_i parent hsome
    by_cases hid : below = id
    · subst hid
      simp [parent_addChild, hbelow]
    · by_cases hn : node = id
      · subst hn
        simp [parent_addChild, node_update, hid, hnode, hsome]
      · simp only [parent_addChild, node_update, hid, hn, false_and, if_false]
        split <;> rfl

/-- The new node has the old one as its last child, and in the list it hangs in it
stands where the old one stood. -/
theorem children_insertAbove {a : Arena} {below node : Nat} (hnode : node < a.size)
    (id : Nat) :
    ((a.insertAbove below node).node id).children =
      (if (a.node below).parent = some id then (a.node id).children.replace below node
        else (a.node id).children) ++
      (if node = id then [below] else []) := by
  unfold insertAbove
  split
  · rename_i hnone
    by_cases hid : node = id <;> simp_all [children_addChild]
  · rename_i parent hsome
    by_cases hp : parent = id
    · subst hp
      by_cases hlt : parent < a.size
      · by_cases hid : node = parent <;> simp_all [children_addChild, node_update]
      · have hne : node ≠ parent := by omega
        have hnode' : a.node parent = default := node_of_size_le (by omega)
        simp [children_addChild, node_update, hsome, hne, hlt, hnode']
        rfl
    · by_cases hid : node = id <;> simp_all [children_addChild, node_update]

/-! ### Closing a group -/

@[simp] theorem size_close (a : Arena) (id : Nat) : (a.close id).size = a.size := by
  simp [close]

theorem value_close (a : Arena) (id other : Nat) :
    ((a.close id).node other).value =
      if id = other ∧ id < a.size then (a.node other).value ++ ")" else (a.node other).value := by
  simp only [close, node_update]
  split <;> rfl

theorem kind_close (a : Arena) (id other : Nat) :
    ((a.close id).node other).kind =
      if id = other ∧ id < a.size then .closedGroup else (a.node other).kind := by
  simp only [close, node_update]
  split <;> rfl

@[simp] theorem children_close (a : Arena) (id other : Nat) :
    ((a.close id).node other).children = (a.node other).children := by
  simp only [close, node_update]
  split <;> rfl

@[simp] theorem parent_close (a : Arena) (id other : Nat) :
    ((a.close id).node other).parent = (a.node other).parent := by
  simp only [close, node_update]
  split <;> rfl

/-! ### Making and hanging at once -/

@[simp] theorem size_pushBelow (a : Arena) (parent : Nat) (value : String) (kind : Kind) :
    (a.pushBelow parent value kind).size = a.size + 1 := by
  simp [pushBelow]

@[simp] theorem size_pushAbove (a : Arena) (below : Nat) (value : String) (kind : Kind) :
    (a.pushAbove below value kind).size = a.size + 1 := by
  simp [pushAbove]

theorem value_pushBelow (a : Arena) (parent : Nat) (value : String) (kind : Kind) (id : Nat) :
    ((a.pushBelow parent value kind).node id).value =
      if id = a.size then value else (a.node id).value := by
  rw [pushBelow, value_addChild, node_push]
  split <;> rfl

theorem kind_pushBelow (a : Arena) (parent : Nat) (value : String) (kind : Kind) (id : Nat) :
    ((a.pushBelow parent value kind).node id).kind =
      if id = a.size then kind else (a.node id).kind := by
  rw [pushBelow, kind_addChild, node_push]
  split <;> rfl

theorem value_pushAbove (a : Arena) (below : Nat) (value : String) (kind : Kind) (id : Nat) :
    ((a.pushAbove below value kind).node id).value =
      if id = a.size then value else (a.node id).value := by
  rw [pushAbove, value_insertAbove, node_push]
  split <;> rfl

theorem kind_pushAbove (a : Arena) (below : Nat) (value : String) (kind : Kind) (id : Nat) :
    ((a.pushAbove below value kind).node id).kind =
      if id = a.size then kind else (a.node id).kind := by
  rw [pushAbove, kind_insertAbove, node_push]
  split <;> rfl

end Calculator.Arena
