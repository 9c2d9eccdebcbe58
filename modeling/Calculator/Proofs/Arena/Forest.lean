/-
Walks up an arena without circles.

A walk goes from a node to its parent as long as some condition holds, and nothing in it
counts the steps.  Here it is given a number of nodes that it may visit, and if it would go
on after that it has no path.  So having an end is something to prove.

Parents may be older or younger than their children, so numbers give no measure.  What
makes a walk end is that no node is above itself: then no node is visited twice, and there
are no more nodes than the arena has.  The lineage of a node, which is cut off after as
many steps as the arena has nodes, is for this reason never cut off.

An arena may have several tops here.  While a node is being put in, it has.
-/
import Mathlib.Data.List.Chain
import Mathlib.Data.List.Nodup
import Mathlib.Data.List.Perm.Subperm
import Calculator.Arena.Lineage
import Calculator.Proofs.Arena.Rooted

namespace Calculator

/-! ### Walks -/

/-- The nodes visited on the way from a node, which goes on as long as `next` says where to.
There is no such list if the way goes on after `bound` nodes. -/
def walk (next : Nat → Option Nat) : Nat → Nat → Option (List Nat)
  | 0, _ => none
  | bound + 1, id =>
      match next id with
      | none => some [id]
      | some further => do
          let path ← walk next bound further
          return id :: path

/-- The walk ends after `bound` nodes at the latest, and it ends at `last`. -/
def WalkEnds (next : Nat → Option Nat) (bound id last : Nat) : Prop :=
  ∃ path, walk next bound id = some path ∧ path.getLast? = some last

section

variable {next : Nat → Option Nat} {bound more id further last : Nat} {path : List Nat}

theorem walk_stop (h : next id = none) (bound : Nat) : walk next (bound + 1) id = some [id] := by
  rw [walk, h]

theorem walk_step (h : next id = some further) (hpath : walk next bound further = some path) :
    walk next (bound + 1) id = some (id :: path) := by
  rw [walk, h]
  simp [hpath]

/-- A walk that ends does not depend on the bound. -/
theorem walk_mono (hpath : walk next bound id = some path) (hle : bound ≤ more) :
    walk next more id = some path := by
  obtain ⟨extra, rfl⟩ := Nat.exists_eq_add_of_le' hle
  clear hle
  induction bound generalizing id path with
  | zero => cases hpath
  | succ bound ih =>
      cases hnext : next id with
      | none =>
          rw [walk_stop hnext] at hpath
          rw [← hpath]
          exact walk_stop hnext (extra + bound)
      | some further =>
          rw [walk, hnext] at hpath
          cases hrest : walk next bound further with
          | none => simp [hrest] at hpath
          | some rest =>
              rw [← hpath]
              simp only [hrest]
              exact walk_step hnext (ih hrest)

namespace WalkEnds

theorem stop (h : next id = none) (bound : Nat) : WalkEnds next (bound + 1) id id :=
  ⟨[id], walk_stop h bound, rfl⟩

theorem step (h : next id = some further) (hends : WalkEnds next bound further last) :
    WalkEnds next (bound + 1) id last := by
  obtain ⟨path, hpath, hlast⟩ := hends
  refine ⟨id :: path, walk_step h hpath, ?_⟩
  rw [List.getLast?_cons, hlast]
  rfl

theorem mono (hends : WalkEnds next bound id last) (hle : bound ≤ more) :
    WalkEnds next more id last := by
  obtain ⟨path, hpath, hlast⟩ := hends
  exact ⟨path, walk_mono hpath hle, hlast⟩

end WalkEnds

end

namespace Arena

/-- Where a walk to the top goes on. -/
def parent? (a : Arena) (id : Nat) : Option Nat :=
  (a.node id).parent

/-- Where the walk of an operator goes on: to the parent, if it binds at least as tightly. -/
def tighter? (a : Arena) (precedence id : Nat) : Option Nat :=
  (a.parent? id).filter fun parent => precedence ≤ (a.node parent).kind.precedence

/-- Where the walk of a `)` or a `,` goes on: to the parent, from all but an open group. -/
def outer? (a : Arena) (id : Nat) : Option Nat :=
  if (a.node id).kind = .openGroup then none else a.parent? id

/-! ### Forests -/

/-- The links are sound and no node is above itself. -/
structure Forest (a : Arena) : Prop extends Linked a where
  acyclic : ∀ id, ¬Relation.TransGen a.HangsFrom id id

variable {a : Arena} {id parent : Nat}

/-- Nothing past the end hangs anywhere. -/
theorem HangsFrom.lt_size (h : a.HangsFrom id parent) : id < a.size := by
  by_contra hlt
  rw [HangsFrom, node_of_size_le (Nat.le_of_not_lt hlt)] at h
  cases h

/-- A node has one parent, so a circle is never left: all that is above it is on it. -/
theorem circle_above {above : Nat} (h : Relation.ReflTransGen a.HangsFrom id above)
    (hcircle : Relation.TransGen a.HangsFrom id id) :
    Relation.TransGen a.HangsFrom above above := by
  induction h with
  | refl => exact hcircle
  | @tail x y _ hstep ih =>
      obtain ⟨other, hother, hback⟩ := Relation.TransGen.head'_iff.mp ih
      obtain rfl : other = y := Option.some.inj (hother.symm.trans hstep)
      exact Relation.TransGen.tail' hback hstep

/-- In an arena that is one tree no node is above itself: the root would be on the circle. -/
theorem Rooted.forest {root : Nat} (h : a.Rooted root) : a.Forest where
  toLinked := h.toLinked
  acyclic := by
    have htop : (a.node root).parent = none := (h.parent_eq_none_iff root h.root_lt).mpr rfl
    intro id hcircle
    obtain ⟨next, hnext, -⟩ := Relation.TransGen.head'_iff.mp hcircle
    have hroot := circle_above (h.reaches id hnext.lt_size) hcircle
    obtain ⟨parent, hparent, -⟩ := Relation.TransGen.head'_iff.mp hroot
    rw [HangsFrom, htop] at hparent
    cases hparent

/-! ### No lineage is cut off -/

theorem isChain_lineageWithin (a : Arena) :
    ∀ fuel id, (a.lineageWithin fuel id).IsChain a.HangsFrom := by
  intro fuel
  induction fuel with
  | zero =>
      intro id
      exact List.isChain_singleton id
  | succ fuel ih =>
      intro id
      unfold lineageWithin
      split
      · exact List.isChain_singleton id
      · rename_i parent hparent
        refine List.isChain_cons.mpr ⟨?_, ih parent⟩
        intro head hhead
        rw [head?_lineageWithin] at hhead
        obtain rfl := Option.some.inj hhead
        exact hparent

namespace Forest

theorem nodup_lineageWithin (h : a.Forest) (fuel id : Nat) :
    (a.lineageWithin fuel id).Nodup := by
  have hchain := (isChain_lineageWithin a fuel id).imp fun _ _ => Relation.TransGen.single
  refine (List.isChain_iff_pairwise.mp hchain).imp ?_
  rintro x y hxy rfl
  exact h.acyclic x hxy

theorem lineageWithin_lt (h : a.Forest) (fuel : Nat) : ∀ {id : Nat}, id < a.size →
    ∀ x ∈ a.lineageWithin fuel id, x < a.size := by
  induction fuel with
  | zero =>
      intro id hid x hx
      rw [List.mem_singleton.mp hx]
      exact hid
  | succ fuel ih =>
      intro id hid x hx
      unfold lineageWithin at hx
      split at hx
      · rw [List.mem_singleton.mp hx]
        exact hid
      · rename_i parent hparent
        rcases List.mem_cons.mp hx with rfl | hx
        · exact hid
        · exact ih (h.parent_lt id parent hparent) x hx

/-- A lineage visits no node twice, so there are no more nodes in it than in the arena. -/
theorem length_lineageWithin_le (h : a.Forest) (fuel : Nat) (hid : id < a.size) :
    (a.lineageWithin fuel id).length ≤ a.size := by
  have hsubset : a.lineageWithin fuel id ⊆ List.range a.size := by
    intro x hx
    exact List.mem_range.mpr (h.lineageWithin_lt fuel hid x hx)
  have hle := ((h.nodup_lineageWithin fuel id).subperm hsubset).length_le
  rwa [List.length_range] at hle

end Forest

/-- A lineage that is shorter than it might be is that of a walk that has ended. -/
theorem walk_of_length_le (a : Arena) : ∀ fuel id, (a.lineageWithin fuel id).length ≤ fuel →
    walk a.parent? fuel id = some (a.lineageWithin fuel id) := by
  intro fuel
  induction fuel with
  | zero =>
      intro id hlength
      simp [lineageWithin] at hlength
  | succ fuel ih =>
      intro id hlength
      unfold lineageWithin at hlength ⊢
      split
      · rename_i hnone
        exact walk_stop hnone fuel
      · rename_i parent hparent
        simp only [hparent, List.length_cons] at hlength
        exact walk_step hparent (ih parent (by omega))

namespace Forest

/-- **The walk to the top ends**, and the lineage is all of it. -/
theorem walk_parent (h : a.Forest) (id : Nat) :
    walk a.parent? (a.size + 1) id = some (a.lineage id) := by
  by_cases hid : id < a.size
  · have hwalk := walk_of_length_le a a.size id (h.length_lineageWithin_le a.size hid)
    exact walk_mono hwalk (Nat.le_succ a.size)
  · have hnone : (a.node id).parent = none := by
      rw [node_of_size_le (Nat.le_of_not_lt hid)]
      rfl
    rw [walk_stop hnone, lineage]
    cases a.size with
    | zero => rfl
    | succ fuel => simp [lineageWithin, hnone]

theorem lineage_of_top (h : a.Forest) (hnone : (a.node id).parent = none) :
    a.lineage id = [id] := by
  have hwalk := h.walk_parent id
  rw [walk_stop hnone] at hwalk
  exact (Option.some.inj hwalk).symm

theorem lineage_of_parent (h : a.Forest) (hparent : a.HangsFrom id parent) :
    a.lineage id = id :: a.lineage parent := by
  have hnext : a.parent? id = some parent := hparent
  have hwalk := walk_mono (h.walk_parent id) (Nat.le_succ (a.size + 1))
  rw [walk_step hnext (h.walk_parent parent)] at hwalk
  exact (Option.some.inj hwalk).symm

/-- What holds of a node when it holds of its parent holds of every node. -/
theorem upward_induction (h : a.Forest) {P : Nat → Prop}
    (top : ∀ id, (a.node id).parent = none → P id)
    (child : ∀ id parent, a.HangsFrom id parent → P parent → P id) : ∀ id, P id := by
  intro id
  induction hlength : (a.lineage id).length generalizing id with
  | zero =>
      have hhead := a.head?_lineage id
      rw [List.length_eq_zero_iff.mp hlength] at hhead
      cases hhead
  | succ n ih =>
      cases hparent : (a.node id).parent with
      | none => exact top id hparent
      | some parent =>
          rw [h.lineage_of_parent hparent, List.length_cons] at hlength
          exact child id parent hparent (ih parent (by omega))

theorem top_of_none (h : a.Forest) (hnone : (a.node id).parent = none) : a.top id = id := by
  rw [top, h.lineage_of_top hnone]
  rfl

theorem top_of_parent (h : a.Forest) (hparent : a.HangsFrom id parent) :
    a.top id = a.top parent := by
  obtain ⟨rest, hrest⟩ := List.head?_eq_some_iff.mp (a.head?_lineage parent)
  rw [top, top, h.lineage_of_parent hparent, hrest]
  simp [List.getLast?_cons]

/-! ### Where the walks end

The walks of operators and of groups go the same way as the walk to the top, but they may end
before it. -/

theorem top_ends (h : a.Forest) : ∀ id,
    WalkEnds a.parent? (a.lineage id).length id (a.top id) := by
  refine h.upward_induction ?_ ?_
  · intro id hnone
    rw [h.top_of_none hnone, h.lineage_of_top hnone]
    exact .stop hnone 0
  · intro id parent hparent ih
    rw [h.top_of_parent hparent, h.lineage_of_parent hparent]
    exact .step hparent ih

theorem operand_ends (h : a.Forest) (precedence : Nat) : ∀ id,
    WalkEnds (a.tighter? precedence) (a.lineage id).length id
      (a.operandEndingIn precedence id) := by
  refine h.upward_induction ?_ ?_
  · intro id hnone
    have hstop : a.tighter? precedence id = none := by
      simp [tighter?, parent?, hnone]
    have hstay : a.operandEndingIn precedence id = id := by
      simp [operandEndingIn, h.lineage_of_top hnone]
    rw [hstay, h.lineage_of_top hnone]
    exact .stop hstop 0
  · intro id parent hparent ih
    have hnext : a.parent? id = some parent := hparent
    have hlineage := h.lineage_of_parent hparent
    obtain ⟨rest, hrest⟩ := List.head?_eq_some_iff.mp (a.head?_lineage parent)
    by_cases hle : precedence ≤ (a.node parent).kind.precedence
    · have hstep : a.tighter? precedence id = some parent := by
        simp [tighter?, hnext, hle]
      have hfurther : a.operandEndingIn precedence id = a.operandEndingIn precedence parent := by
        simp [operandEndingIn, hlineage, hrest, hle, List.getLast?_cons]
      rw [hfurther, hlineage]
      exact .step hstep ih
    · have hstop : a.tighter? precedence id = none := by
        simpa [tighter?, hnext] using Nat.lt_of_not_le hle
      have hstay : a.operandEndingIn precedence id = id := by
        simp [operandEndingIn, hlineage, hrest, hle]
      rw [hstay, hlineage]
      exact .stop hstop (a.lineage parent).length

theorem group_ends (h : a.Forest) : ∀ id,
    WalkEnds a.outer? (a.lineage id).length id ((a.innermostOpen? id).getD (a.top id)) := by
  refine h.upward_induction ?_ ?_
  · intro id hnone
    have hstop : a.outer? id = none := by
      simp [outer?, parent?, hnone]
    have hstay : (a.innermostOpen? id).getD (a.top id) = id := by
      rw [innermostOpen?, h.top_of_none hnone, h.lineage_of_top hnone]
      by_cases hopen : (a.node id).kind = .openGroup <;> simp [hopen]
    rw [hstay, h.lineage_of_top hnone]
    exact .stop hstop 0
  · intro id parent hparent ih
    have hnext : a.parent? id = some parent := hparent
    have hlineage := h.lineage_of_parent hparent
    by_cases hopen : (a.node id).kind = .openGroup
    · have hstop : a.outer? id = none := by
        simp [outer?, hopen]
      have hstay : (a.innermostOpen? id).getD (a.top id) = id := by
        simp [innermostOpen?, hlineage, hopen]
      rw [hstay, hlineage]
      exact .stop hstop (a.lineage parent).length
    · have hstep : a.outer? id = some parent := by
        simp [outer?, hopen, hnext]
      have hfurther : a.innermostOpen? id = a.innermostOpen? parent := by
        simp [innermostOpen?, hlineage, hopen]
      rw [hfurther, h.top_of_parent hparent, hlineage]
      exact .step hstep ih

end Forest

/-- The walks from a node end, where they are said to, and none of them visits more nodes than
there are. -/
structure WalksEnd (a : Arena) (id : Nat) : Prop where
  top : WalkEnds a.parent? a.size id (a.top id)
  operand : ∀ precedence,
    WalkEnds (a.tighter? precedence) a.size id (a.operandEndingIn precedence id)
  /-- Where no group is open, the top is reached. -/
  group : WalkEnds a.outer? a.size id ((a.innermostOpen? id).getD (a.top id))

theorem Forest.walksEnd (h : a.Forest) (hid : id < a.size) : a.WalksEnd id := by
  have hlength : (a.lineage id).length ≤ a.size := h.length_lineageWithin_le a.size hid
  refine ⟨(h.top_ends id).mono hlength, fun precedence => ?_, (h.group_ends id).mono hlength⟩
  exact (h.operand_ends precedence id).mono hlength

end Arena

end Calculator
