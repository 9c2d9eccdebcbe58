/-
The lines of an expression, and its nodes.

The tree of an expression has every node of its arena once, so there is a line for each node.
Expressions that are drawn alike have one tree, and so they have the same value.  Their nodes may
have been made in a different order: what is node 0 of the one is another node of the other.  But
the same nodes stand at the same places of the two preorders, and that is the renumbering.
-/
import Calculator.Proofs.Arena.Rooted
import Calculator.Proofs.Draft.Growth
import Calculator.Proofs.Drawing.Lines
import Calculator.Proofs.Text.Literals

namespace Calculator

/-! ### Tokens have no line break -/

theorem Kind.unbroken {token : String} {kind : Kind} (h : of? token = some kind) :
    '\n' ∉ token.toList := by
  cases kind with
  | number =>
      intro hbreak
      exact absurd (((of?_eq_number_iff token).mp h).parts '\n' hbreak) (by decide)
  | word =>
      intro hbreak
      have hword := isWord_of_word h
      rw [isWord, Bool.and_eq_true, List.all_eq_true] at hword
      exact absurd (hword.2 _ hbreak) (by decide)
  | operator op =>
      rw [eq_of_spelling h rfl]
      cases op <;> decide
  | openGroup | closer | closedGroup | comma =>
      rw [eq_of_spelling h rfl]
      decide

/-- The tree has no text with a line break in it. -/
theorem Tree.Spelled.unbroken {t : Tree} (h : t.Spelled) :
    ∀ text ∈ t.texts, '\n' ∉ text.toList := by
  induction h with
  | @node value kind children hkind below ih =>
      rw [texts, List.forall_mem_cons, textsAll_eq_flatMap]
      refine ⟨Kind.unbroken hkind, fun text htext => ?_⟩
      obtain ⟨t, ht, htext⟩ := List.mem_flatMap.mp htext
      exact ih t ht text htext

/-! ### Corresponding nodes -/

/-- The node with other numbers for its children and its parent. -/
def Node.renumber (φ : Nat → Nat) (n : Node) : Node :=
  { n with children := n.children.map φ, parent := n.parent.map φ }

namespace Numbered

mutual

theorem length_texts : ∀ t : Numbered, t.erase.texts.length = t.ids.length
  | node id value kind children => by
      rw [erase, Tree.texts, ids, List.length_cons, List.length_cons, length_textsAll]

theorem length_textsAll : ∀ ts : List Numbered,
    (Tree.textsAll (eraseAll ts)).length = (idsAll ts).length
  | [] => rfl
  | t :: rest => by
      rw [eraseAll, Tree.textsAll, idsAll, List.length_append, List.length_append, length_texts,
        length_textsAll]

end

theorem length_ids_congr {t u : Numbered} (h : t.erase = u.erase) :
    t.ids.length = u.ids.length := by
  rw [← length_texts, h, length_texts]

/-- The number of the top comes first. -/
theorem id_eq_of_ids {t u : Numbered} {φ : Nat → Nat} (h : t.ids.map φ = u.ids) :
    φ t.id = u.id := by
  obtain ⟨id, value, kind, children⟩ := t
  obtain ⟨id', value', kind', children'⟩ := u
  exact (List.cons.inj h).1

/-- Where neighbouring trees correspond, each of them corresponds to one of the others. -/
theorem corresponding {φ : Nat → Nat} : ∀ {ts us : List Numbered},
    eraseAll ts = eraseAll us → (idsAll ts).map φ = idsAll us →
      (ts.map id).map φ = us.map id ∧
        ∀ t ∈ ts, ∃ u ∈ us, t.erase = u.erase ∧ t.ids.map φ = u.ids
  | [], [] => fun _ _ => ⟨rfl, fun _ ht => absurd ht List.not_mem_nil⟩
  | [], u :: us => fun herase _ => by cases herase
  | t :: ts, [] => fun herase _ => by cases herase
  | t :: ts, u :: us => by
      intro herase hids
      obtain ⟨hfirst, hrest⟩ := List.cons.inj herase
      rw [idsAll, idsAll, List.map_append] at hids
      obtain ⟨htop, hids⟩ := List.append_inj hids (by
        rw [List.length_map, length_ids_congr hfirst])
      obtain ⟨hmap, hall⟩ := corresponding hrest hids
      refine ⟨by rw [List.map_cons, List.map_cons, List.map_cons, id_eq_of_ids htop, hmap], ?_⟩
      rw [List.forall_mem_cons]
      refine ⟨⟨u, List.mem_cons_self, hfirst, htop⟩, fun t' ht' => ?_⟩
      obtain ⟨u', hu', hboth⟩ := hall t' ht'
      exact ⟨u', List.mem_cons_of_mem _ hu', hboth⟩

end Numbered

namespace Arena

variable {a b : Arena} {parent : Option Nat} {t u : Numbered} {φ : Nat → Nat}

theorem Holds.texts (h : a.Holds parent t) :
    t.erase.texts = t.ids.map fun id => (a.node id).value := by
  induction h with
  | @node parent id value kind children here below ih =>
      rw [Numbered.erase, Tree.texts, Numbered.ids, List.map_cons, here,
        Tree.textsAll_eq_flatMap, Numbered.eraseAll_eq_map, Numbered.idsAll_eq_flatMap,
        List.flatMap_map, List.map_flatMap]
      congr 1
      exact List.flatMap_congr ih

theorem Holds.spelled (h : a.Holds parent t) (hspelled : ∀ id ∈ t.ids, (a.node id).Spelled) :
    t.erase.Spelled := by
  induction h with
  | @node parent id value kind children here below ih =>
      rw [Numbered.ids, List.forall_mem_cons, here] at hspelled
      rw [Numbered.erase, Numbered.eraseAll_eq_map]
      refine .node hspelled.1 (List.forall_mem_map.mpr fun c hc => ih c hc fun i hi => ?_)
      exact hspelled.2 i (Numbered.ids_subset_idsAll hc hi)

/-- Trees that correspond have corresponding nodes. -/
theorem Holds.renumber (h : a.Holds parent t) (h' : b.Holds (parent.map φ) u)
    (herase : t.erase = u.erase) (hids : t.ids.map φ = u.ids) :
    ∀ id ∈ t.ids, b.node (φ id) = (a.node id).renumber φ := by
  induction h generalizing u with
  | @node parent id value kind children here below ih =>
      obtain ⟨here', below'⟩ := h'
      rename_i id' value' kind' children'
      rw [Numbered.erase, Numbered.erase] at herase
      injection herase with hvalue hkind herase
      subst hvalue hkind
      rw [Numbered.ids, Numbered.ids, List.map_cons] at hids
      obtain ⟨rfl, hchildren⟩ := List.cons.inj hids
      obtain ⟨hnumbers, hall⟩ := Numbered.corresponding herase hchildren
      rw [Numbered.ids, List.forall_mem_cons]
      refine ⟨?_, fun i hi => ?_⟩
      · rw [here, here', Node.renumber, hnumbers]
      · rw [Numbered.idsAll_eq_flatMap] at hi
        obtain ⟨c, hc, hi⟩ := List.mem_flatMap.mp hi
        obtain ⟨c', hc', hsame, hids'⟩ := hall c hc
        exact ih c hc (below' c' hc') hsame hids' i hi

end Arena

/-! ### Expressions -/

namespace Expression

variable {tokens : List String} {e f : Expression} {t u : Numbered}

/-- The nodes of the expression are the tree, and there are no others. -/
structure Stores (e : Expression) (t : Numbered) : Prop where
  holds : e.arena.Holds none t
  numbers : t.ids.Perm (List.range e.arena.size)
  root : t.id = e.root
  spelled : t.erase.Spelled

theorem exists_stores (h : ofTokens tokens = .ok e) : ∃ t, e.Stores t := by
  obtain ⟨d, hd, rfl⟩ := ofTokens_eq_ok_iff.mp h
  have hspelled := Draft.spelled_ofTokens hd
  obtain ⟨s, -, hshows⟩ := Draft.exists_spine hd
  obtain ⟨t, hholds, hids, hroot⟩ := hshows.exists_numbered
  refine ⟨t, hholds, hids, hroot, hholds.spelled fun id hid => hspelled id ?_⟩
  exact List.mem_range.mp (hids.mem_iff.mp hid)

namespace Stores

theorem length_le (h : e.Stores t) : t.ids.length ≤ e.arena.size + 1 := by
  rw [h.numbers.length_eq, List.length_range]
  exact Nat.le_succ _

theorem tree_eq (h : e.Stores t) : e.tree = t.erase := by
  rw [tree, ← h.root, Arena.unfold]
  exact h.holds.unfoldWithin _ h.length_le

theorem preorder_eq (h : e.Stores t) : e.arena.preorder e.root = t.ids := by
  rw [← h.root, Arena.preorder]
  exact h.holds.preorderWithin _ h.length_le

end Stores

/-- The nodes of one expression are those of the other, under the numbers that `φ` gives them. -/
structure Renumbers (e f : Expression) (φ : Nat → Nat) : Prop where
  numbers : ((List.range e.arena.size).map φ).Perm (List.range f.arena.size)
  root : φ e.root = f.root
  node : ∀ id < e.arena.size, f.arena.node (φ id) = (e.arena.node id).renumber φ

/-- The numbers in one list can be changed into those in another one. -/
theorem exists_map_eq {l m : List Nat} (hnodup : l.Nodup) (hlength : l.length = m.length) :
    ∃ φ : Nat → Nat, l.map φ = m := by
  refine ⟨fun i => m.getD (l.idxOf i) 0, List.ext_getElem (by simpa using hlength) ?_⟩
  intro i hi hi'
  rw [List.length_map] at hi
  rw [List.getElem_map, hnodup.idxOf_getElem i hi,
    List.getD_eq_getElem?_getD, List.getElem?_eq_getElem hi', Option.getD_some]

/-- Expressions with one tree have the same nodes. -/
theorem exists_renumbers (h : e.Stores t) (h' : f.Stores u) (htree : e.tree = f.tree) :
    ∃ φ, e.Renumbers f φ := by
  rw [h.tree_eq, h'.tree_eq] at htree
  obtain ⟨φ, hφ⟩ := exists_map_eq (h.numbers.nodup_iff.mpr List.nodup_range)
    (Numbered.length_ids_congr htree)
  refine ⟨φ, ?_, ?_, fun id hid => ?_⟩
  · refine (h.numbers.map φ).symm.trans ?_
    rw [hφ]
    exact h'.numbers
  · rw [← h.root, ← h'.root]
    exact Numbered.id_eq_of_ids hφ
  · exact h.holds.renumber h'.holds htree hφ id (h.numbers.mem_iff.mpr (List.mem_range.mpr hid))

end Expression

/-- **The drawing determines the tree.**  There is a line for every node, in preorder, and it ends
in the text of the node.  Expressions that are drawn alike have the same tree and the same value,
and their nodes are the same but for their numbers. -/
theorem drawing_ofTokens {tokens : List String} {e : Expression}
    (he : Expression.ofTokens tokens = .ok e) :
    (e.arena.preorder e.root).Perm (List.range e.arena.size) ∧
    List.Forall₂ Tree.EndsIn (textLines e.draw)
      ((e.arena.preorder e.root).map fun id => (e.arena.node id).value) ∧
    ∀ (others : List String) (f : Expression), Expression.ofTokens others = .ok f →
      e.draw = f.draw →
        e.tree = f.tree ∧ (∃ φ, e.Renumbers f φ) ∧
          ∀ {α : Type} (m : Arithmetic α), e.evaluateIn m = f.evaluateIn m := by
  obtain ⟨t, ht⟩ := Expression.exists_stores he
  have hlines : textLines e.draw = t.erase.lines := by
    rw [Expression.draw, ht.tree_eq]
    exact Tree.textLines_draw ht.spelled.unbroken
  refine ⟨?_, ?_, fun others f hf hdraw => ?_⟩
  · rw [ht.preorder_eq]
    exact ht.numbers
  · rw [hlines, ht.preorder_eq, ← ht.holds.texts]
    exact Tree.endsIn_lines t.erase
  · obtain ⟨u, hu⟩ := Expression.exists_stores hf
    have htree : e.tree = f.tree := by
      rw [ht.tree_eq, hu.tree_eq]
      refine Tree.lines_injective ht.spelled hu.spelled ?_
      rw [← hlines, hdraw, Expression.draw, hu.tree_eq, Tree.textLines_draw hu.spelled.unbroken]
    refine ⟨htree, Expression.exists_renumbers ht hu htree, fun m => ?_⟩
    rw [Expression.evaluateIn, Expression.evaluateIn, htree]

/-- In `1+2)` the group was made last, and in `(1+2)` first, but they are drawn alike. -/
theorem drawing_group_around_sum :
    let tokens := ["(", "1", "+", "2", ")"]
    let others := ["1", "+", "2", ")"]
    ∃ e f, Expression.ofTokens tokens = .ok e ∧ Expression.ofTokens others = .ok f ∧ e ≠ f ∧
      e.draw = f.draw ∧ e.arena.preorder e.root = [0, 2, 1, 3] ∧
      List.Forall₂ Tree.EndsIn (textLines e.draw) ["()", "+", "1", "2"] ∧
      e.tree = f.tree ∧ (∃ φ, e.Renumbers f φ) ∧
      ∀ {α : Type} (m : Arithmetic α), e.evaluateIn m = f.evaluateIn m := by
  intro tokens others
  let e : Expression := ⟨⟨#[⟨"()", .closedGroup, [2], none⟩, ⟨"1", .number, [], some 2⟩,
    ⟨"+", .operator .plus, [1, 3], some 0⟩, ⟨"2", .number, [], some 2⟩]⟩, 0⟩
  let f : Expression := ⟨⟨#[⟨"1", .number, [], some 1⟩, ⟨"+", .operator .plus, [0, 2], some 3⟩,
    ⟨"2", .number, [], some 1⟩, ⟨"()", .closedGroup, [1], none⟩]⟩, 3⟩
  have he : Expression.ofTokens tokens = .ok e := rfl
  have hf : Expression.ofTokens others = .ok f := rfl
  have htree : e.tree = f.tree := rfl
  have hdraw : e.draw = f.draw := congrArg Tree.draw htree
  obtain ⟨-, hlines, hsame⟩ := drawing_ofTokens he
  exact ⟨e, f, he, hf, by decide, hdraw, rfl, hlines, hsame others f hf hdraw⟩

end Calculator
