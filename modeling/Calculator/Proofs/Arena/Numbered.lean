/-
What an arena holds.

A tree of an arena is a tree whose nodes have numbers.  `Numbered` is that tree with
the numbers written in, and `Arena.Holds` says that it is there: each of its nodes is
stored under its number, with the numbers of its children and of its parent.

An operation changes a few nodes, so a tree that has none of them is held afterwards
as it was before.  That is `Holds.congr`, and it is the reason for keeping the numbers:
which nodes a tree has can be read off the tree.
-/
import Calculator.Arena.Lemmas
import Calculator.Tree.Basic

namespace Calculator

/-- A tree that remembers the numbers of its nodes. -/
inductive Numbered
  | node (id : Nat) (value : String) (kind : Kind) (children : List Numbered)
  deriving Inhabited

namespace Numbered

/-- The number of the node at the top. -/
def id : Numbered → Nat
  | node id _ _ _ => id

mutual

/-- The numbers of all nodes. -/
def ids : Numbered → List Nat
  | node id _ _ children => id :: idsAll children

/-- The numbers of all nodes of neighbouring trees. -/
def idsAll : List Numbered → List Nat
  | [] => []
  | t :: rest => t.ids ++ idsAll rest

end

mutual

/-- The tree without the numbers. -/
def erase : Numbered → Tree
  | node _ value kind children => .node value kind (eraseAll children)

/-- Neighbouring trees without the numbers. -/
def eraseAll : List Numbered → List Tree
  | [] => []
  | t :: rest => t.erase :: eraseAll rest

end

theorem id_mem_ids (t : Numbered) : t.id ∈ t.ids := by
  cases t with
  | node id value kind children => exact List.mem_cons_self

theorem ids_subset_idsAll {t : Numbered} {trees : List Numbered} (h : t ∈ trees) :
    t.ids ⊆ idsAll trees := by
  induction trees with
  | nil => cases h
  | cons first rest ih =>
      intro i hi
      rcases List.mem_cons.mp h with rfl | hrest
      · exact List.mem_append_left _ hi
      · exact List.mem_append_right _ (ih hrest hi)

theorem idsAll_append (ts us : List Numbered) : idsAll (ts ++ us) = idsAll ts ++ idsAll us := by
  induction ts with
  | nil => rfl
  | cons t rest ih => rw [List.cons_append, idsAll, idsAll, ih, List.append_assoc]

@[simp] theorem idsAll_singleton (t : Numbered) : idsAll [t] = t.ids := by
  simp [idsAll]

theorem eraseAll_eq_map (trees : List Numbered) : eraseAll trees = trees.map erase := by
  induction trees with
  | nil => rfl
  | cons t rest ih => rw [eraseAll, ih, List.map_cons]

theorem length_ids_le {t : Numbered} {trees : List Numbered} (h : t ∈ trees) :
    t.ids.length ≤ (idsAll trees).length := by
  induction trees with
  | nil => cases h
  | cons first rest ih =>
      simp only [idsAll, List.length_append]
      rcases List.mem_cons.mp h with rfl | hrest
      · omega
      · have := ih hrest
        omega

end Numbered

namespace Arena

/-- The arena holds a tree, hanging from `parent`. -/
inductive Holds (a : Arena) : Option Nat → Numbered → Prop
  | node {parent : Option Nat} {id : Nat} {value : String} {kind : Kind}
      {children : List Numbered}
      (here : a.node id = ⟨value, kind, children.map Numbered.id, parent⟩)
      (below : ∀ c ∈ children, Holds a (some id) c) :
      Holds a parent (.node id value kind children)

/-- A tree is held wherever its nodes are the same. -/
theorem Holds.congr {a b : Arena} {parent : Option Nat} {t : Numbered} (h : a.Holds parent t)
    (hsame : ∀ i ∈ t.ids, b.node i = a.node i) : b.Holds parent t := by
  induction h with
  | @node parent id value kind children here below ih =>
      refine .node ?_ ?_
      · rw [hsame id (List.mem_cons_self ..), here]
      · intro c hc
        refine ih c hc (fun i hi => hsame i ?_)
        exact List.mem_cons_of_mem _ (Numbered.ids_subset_idsAll hc hi)

/-- Unfolding reads a tree off the arena, if it may go down far enough.  A path down has
no more nodes than the tree. -/
theorem Holds.unfoldWithin {a : Arena} {parent : Option Nat} {t : Numbered}
    (h : a.Holds parent t) :
    ∀ fuel, t.ids.length ≤ fuel + 1 → a.unfoldWithin fuel t.id = t.erase := by
  induction h with
  | @node parent id value kind children here below ih =>
      intro fuel hfuel
      simp only [Numbered.ids, List.length_cons] at hfuel
      cases fuel with
      | zero =>
          cases children with
          | nil => simp [Numbered.id, Numbered.erase, Numbered.eraseAll, Arena.unfoldWithin, here]
          | cons c rest =>
              have hpos : 0 < c.ids.length := List.length_pos_of_mem c.id_mem_ids
              simp only [Numbered.idsAll, List.length_append] at hfuel
              omega
      | succ fuel =>
          simp only [Numbered.id, Numbered.erase, Arena.unfoldWithin, here, List.map_map,
            Numbered.eraseAll_eq_map]
          congr 1
          refine List.map_congr_left (fun c hc => ih c hc fuel ?_)
          have := Numbered.length_ids_le hc
          omega

end Arena

end Calculator
