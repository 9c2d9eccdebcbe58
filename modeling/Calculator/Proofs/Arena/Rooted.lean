/-
Arenas that are one tree.

Every link of an arena is written down twice, with the child as its parent and with the
parent as one of its children.  `Linked` says that the two agree and that no number is
past the end, and `Rooted` that in addition all nodes hang from one.  Neither speaks of
the order in which nodes were made, since a node may be made before its children or
after them.

An arena that holds one tree with all of its numbers is rooted, and the nodes in
preorder are the numbers of that tree.
-/
import Mathlib.Data.List.Nodup
import Mathlib.Logic.Relation
import Calculator.Proofs.Arena.Numbered

namespace Calculator

/-! ### What is asked of the links -/

namespace Arena

/-- The parent of the node `id` is `parent`. -/
def HangsFrom (a : Arena) (id parent : Nat) : Prop :=
  (a.node id).parent = some parent

/-- Parents and children agree, and all of them are there. -/
structure Linked (a : Arena) : Prop where
  child_lt : ∀ id, ∀ child ∈ (a.node id).children, child < a.size
  parent_lt : ∀ id parent, a.HangsFrom id parent → parent < a.size
  mem_children_iff : ∀ id child, child ∈ (a.node id).children ↔ a.HangsFrom child id
  /-- No node is a child twice. -/
  nodup : ∀ id, (a.node id).children.Nodup

/-- All nodes hang from `root`, over finitely many others, and `root` is the only node
without a parent. -/
structure Rooted (a : Arena) (root : Nat) : Prop extends Linked a where
  root_lt : root < a.size
  parent_eq_none_iff : ∀ id < a.size, (a.node id).parent = none ↔ id = root
  reaches : ∀ id < a.size, Relation.ReflTransGen a.HangsFrom id root

end Arena

/-! ### The numbers of a tree -/

namespace Numbered

theorem idsAll_eq_flatMap (trees : List Numbered) : idsAll trees = trees.flatMap ids := by
  induction trees with
  | nil => rfl
  | cons t rest ih => rw [idsAll, ih, List.flatMap_cons]

theorem map_id_sublist_idsAll (trees : List Numbered) :
    (trees.map id).Sublist (idsAll trees) := by
  induction trees with
  | nil => exact List.Sublist.refl _
  | cons t rest ih =>
      have ht : [t.id].Sublist t.ids := List.singleton_sublist.mpr t.id_mem_ids
      exact ht.append ih

end Numbered

/-! ### The links of a tree that is held -/

namespace Arena

variable {a : Arena} {parent : Option Nat} {t : Numbered}

theorem Holds.parent_eq (h : a.Holds parent t) : (a.node t.id).parent = parent := by
  cases h with
  | node here below => rw [Numbered.id, here]

/-- A node of a tree is its top, or it is a child of another node of the tree. -/
theorem Holds.parent_cases (h : a.Holds parent t) :
    ∀ i ∈ t.ids, i = t.id ∨ ∃ p ∈ t.ids, a.HangsFrom i p ∧ i ∈ (a.node p).children := by
  induction h with
  | @node parent id value kind children here below ih =>
      intro i hi
      rcases List.mem_cons.mp hi with rfl | hi
      · exact Or.inl rfl
      · rw [Numbered.idsAll_eq_flatMap] at hi
        obtain ⟨c, hc, hic⟩ := List.mem_flatMap.mp hi
        refine Or.inr ?_
        rcases ih c hc i hic with rfl | ⟨p, hp, hlink⟩
        · refine ⟨id, List.mem_cons_self, (below c hc).parent_eq, ?_⟩
          rw [here]
          exact List.mem_map_of_mem hc
        · exact ⟨p, List.mem_cons_of_mem _ (Numbered.ids_subset_idsAll hc hp), hlink⟩

/-- The children of a node of a tree are in the tree, and the node is their parent. -/
theorem Holds.of_mem_children (h : a.Holds parent t) :
    ∀ p ∈ t.ids, ∀ c ∈ (a.node p).children, c ∈ t.ids ∧ a.HangsFrom c p := by
  induction h with
  | @node parent id value kind children here below ih =>
      intro p hp c hc
      rcases List.mem_cons.mp hp with rfl | hp
      · rw [here] at hc
        obtain ⟨child, hchild, rfl⟩ := List.mem_map.mp hc
        refine ⟨List.mem_cons_of_mem _ ?_, (below child hchild).parent_eq⟩
        exact Numbered.ids_subset_idsAll hchild child.id_mem_ids
      · rw [Numbered.idsAll_eq_flatMap] at hp
        obtain ⟨child, hchild, hp⟩ := List.mem_flatMap.mp hp
        obtain ⟨hmem, hparent⟩ := ih child hchild p hp c hc
        exact ⟨List.mem_cons_of_mem _ (Numbered.ids_subset_idsAll hchild hmem), hparent⟩

theorem Holds.nodup_children (h : a.Holds parent t) (hnodup : t.ids.Nodup) :
    ∀ p ∈ t.ids, (a.node p).children.Nodup := by
  induction h with
  | @node parent id value kind children here below ih =>
      have hall : (Numbered.idsAll children).Nodup := (List.nodup_cons.mp hnodup).2
      intro p hp
      rcases List.mem_cons.mp hp with rfl | hp
      · rw [here]
        exact (Numbered.map_id_sublist_idsAll children).nodup hall
      · rw [Numbered.idsAll_eq_flatMap] at hp hall
        obtain ⟨child, hchild, hp⟩ := List.mem_flatMap.mp hp
        exact ih child hchild ((List.nodup_flatMap.mp hall).1 child hchild) p hp

/-- From every node of a tree the parents lead to its top. -/
theorem Holds.reaches (h : a.Holds parent t) :
    ∀ i ∈ t.ids, Relation.ReflTransGen a.HangsFrom i t.id := by
  induction h with
  | @node parent id value kind children here below ih =>
      intro i hi
      rcases List.mem_cons.mp hi with rfl | hi
      · exact .refl
      · rw [Numbered.idsAll_eq_flatMap] at hi
        obtain ⟨child, hchild, hi⟩ := List.mem_flatMap.mp hi
        exact (ih child hchild i hi).tail (below child hchild).parent_eq

/-! ### One tree with all the numbers -/

/-- **An arena that holds nothing but one tree is rooted at its top.** -/
theorem Holds.rooted (h : a.Holds none t) (hids : t.ids.Perm (List.range a.size)) :
    a.Rooted t.id := by
  have hmem : ∀ i, i ∈ t.ids ↔ i < a.size := fun i => hids.mem_iff.trans List.mem_range
  -- Past the end there are only default nodes, which have no links.
  have hlinks : ∀ i, i ∉ t.ids → (a.node i).children = [] ∧ (a.node i).parent = none := by
    intro i hi
    rw [node_of_size_le (Nat.le_of_not_lt fun hlt => hi ((hmem i).mpr hlt))]
    exact ⟨rfl, rfl⟩
  have hchild : ∀ p, ∀ c ∈ (a.node p).children, c ∈ t.ids ∧ a.HangsFrom c p := by
    intro p c hc
    by_cases hp : p ∈ t.ids
    · exact h.of_mem_children p hp c hc
    · rw [(hlinks p hp).1] at hc
      cases hc
  have hparent : ∀ c p, a.HangsFrom c p → p ∈ t.ids ∧ c ∈ (a.node p).children := by
    intro c p hcp
    have hc : c ∈ t.ids := by
      by_contra hc
      rw [HangsFrom, (hlinks c hc).2] at hcp
      cases hcp
    rcases h.parent_cases c hc with rfl | ⟨q, hq, hcq, hmem⟩
    · rw [HangsFrom, h.parent_eq] at hcp
      cases hcp
    · obtain rfl : q = p := Option.some.inj (hcq.symm.trans hcp)
      exact ⟨hq, hmem⟩
  refine { child_lt := ?_, parent_lt := ?_, mem_children_iff := ?_, nodup := ?_, root_lt := ?_,
           parent_eq_none_iff := ?_, reaches := ?_ }
  · exact fun p c hc => (hmem c).mp (hchild p c hc).1
  · exact fun c p hcp => (hmem p).mp (hparent c p hcp).1
  · exact fun p c => ⟨fun hc => (hchild p c hc).2, fun hcp => (hparent c p hcp).2⟩
  · intro p
    by_cases hp : p ∈ t.ids
    · exact h.nodup_children (hids.nodup_iff.mpr List.nodup_range) p hp
    · rw [(hlinks p hp).1]
      exact List.nodup_nil
  · exact (hmem t.id).mp t.id_mem_ids
  · intro i hi
    refine ⟨fun hnone => ?_, ?_⟩
    · rcases h.parent_cases i ((hmem i).mpr hi) with htop | ⟨p, -, hip, -⟩
      · exact htop
      · rw [HangsFrom, hnone] at hip
        cases hip
    · rintro rfl
      exact h.parent_eq
  · exact fun i hi => h.reaches i ((hmem i).mpr hi)

/-- The nodes in preorder are the numbers of the tree, if the walk may go down far enough. -/
theorem Holds.preorderWithin (h : a.Holds parent t) :
    ∀ fuel, t.ids.length ≤ fuel + 1 → a.preorderWithin fuel t.id = t.ids := by
  induction h with
  | @node parent id value kind children here below ih =>
      intro fuel hfuel
      simp only [Numbered.ids, List.length_cons] at hfuel
      cases fuel with
      | zero =>
          have hnil : children = [] := by
            by_contra hne
            obtain ⟨c, hc⟩ := List.exists_mem_of_ne_nil children hne
            have hpos := List.length_pos_of_mem (Numbered.ids_subset_idsAll hc c.id_mem_ids)
            omega
          subst hnil
          rfl
      | succ fuel =>
          rw [Numbered.id, Arena.preorderWithin, here, Numbered.ids, Numbered.idsAll_eq_flatMap,
            List.flatMap_map]
          congr 1
          refine List.flatMap_congr fun c hc => ih c hc fuel ?_
          have := Numbered.length_ids_le hc
          omega

end Arena

end Calculator
