/-
Walking down an expression.

The value and the drawing of an expression are said of its tree, and a tree has an end because
it is one.  The nodes of an arena are only numbers in a list.  So both are written here once
more as what they are on an arena: a recursion that looks up a node and goes to the numbers
that the node has for children.  It is told how deep it may go, and if that is not deep enough
it has no result.  That as many levels as there are nodes are always enough is what is proved.

Each recursion keeps the nodes it has entered, so that besides having a result it can be seen
to enter no node twice.  That holds because the nodes are one tree: with a node that hangs
from two others the result would be the same, and the list would not.
-/
import Calculator.Proofs.Arena.Forest
import Calculator.Proofs.Drawing.Nodes
import Calculator.Proofs.Value.Calls

namespace Calculator

/-- A recursion over numbered nodes.  It keeps the nodes that it has entered, in order, and it
has no result if it would have to go too deep. -/
abbrev Visit := StateT (List Nat) Option

/-- Enter a node. -/
def enter (id : Nat) : Visit Unit :=
  modify (· ++ [id])

/-- Some siblings, each with its strokes. -/
def withStrokes : List Nat → List (Nat × Strokes)
  | [] => []
  | id :: rest => (id, if rest.isEmpty then .last else .inner) :: withStrokes rest

namespace Arena

/-- The value of what hangs from a node, or the first error met on the way. -/
def evaluateWithin {α : Type} (m : Arithmetic α) (a : Arena) : Nat → Nat → ExceptT Error Visit α
  | 0, _ => liftM (failure : Visit α)
  | depth + 1, id => do
      enter id
      let node := a.node id
      match node.kind with
      | .number =>
          match Decimal.ofLiteral? node.value.toList with
          | some number => return m.ofDecimal number
          | none => throw (.malformed (.notANumber node.value))
      | .operator op =>
          match op, node.children with
          | .minus, [operand] => do
              let x ← a.evaluateWithin m depth operand
              return m.negate x
          | op, [left, right] => do
              let x ← a.evaluateWithin m depth left
              let y ← a.evaluateWithin m depth right
              return m.operate op x y
          | _, children => throw (.malformed (.operands node.value children.length))
      | .openGroup | .closedGroup =>
          match node.children with
          | [inner] => a.evaluateWithin m depth inner
          | children => throw (.malformed (.values children.length))
      | .word =>
          match node.children with
          | [arguments] =>
              -- The argument list is looked at and not entered.
              if (a.node arguments).kind.isGroup then do
                let values ← (a.node arguments).children.mapM (a.evaluateWithin m depth)
                (m.call node.value values).value
              else throw (.malformed (.noArguments node.value))
          | _ => throw (.malformed (.noArguments node.value))
      | .closer | .comma => throw (.malformed (.unexpected node.value))

/-- The lines of what hangs from a node, drawn from the column where `margin` ends. -/
def drawWithin (a : Arena) : Nat → String → Nat → Visit (List String)
  | 0, _, _ => failure
  | depth + 1, margin, id => do
      enter id
      let branches ← (withStrokes (a.node id).children).mapM fun (child, strokes) => do
        let below ← a.drawWithin depth (margin ++ strokes.below) child
        return (margin ++ strokes.corner ++ (a.node child).value) :: below
      return branches.flatten

end Arena

/-! ### What is entered -/

/-- The recursion ends with the result `x`, and it enters the nodes `ids`. -/
def Enters {α : Type} (m : Visit α) (x : α) (ids : List Nat) : Prop :=
  ∀ entered, m.run entered = some (x, entered ++ ids)

/-- The recursion ends with the result `r`, which may be an error.  It enters some of the nodes
`ids`, in their order; an error leaves the others out. -/
def EntersSome {α : Type} (m : ExceptT Error Visit α) (r : Except Error α) (ids : List Nat) :
    Prop :=
  ∃ entered, entered.Sublist ids ∧ Enters m.run r entered

section

variable {α β : Type} {ids more : List Nat}

theorem enters_enter (id : Nat) : Enters (enter id) () [id] :=
  fun _ => rfl

theorem enters_pure (x : α) : Enters (pure x) x [] := by
  intro entered
  simp

theorem Enters.bind {m : Visit α} {f : α → Visit β} {x : α} {y : β} (h : Enters m x ids)
    (hf : Enters (f x) y more) : Enters (m >>= f) y (ids ++ more) := by
  intro entered
  rw [StateT.run_bind, h entered]
  simp [hf (entered ++ ids)]

theorem Enters.map {m : Visit α} {x : α} (f : α → β) (h : Enters m x ids) :
    Enters (m >>= fun x => pure (f x)) (f x) ids := by
  rw [← List.append_nil ids]
  exact h.bind (enters_pure (f x))

namespace EntersSome

theorem enter (id : Nat) : EntersSome (liftM (enter id)) (.ok ()) [id] :=
  ⟨[id], List.Sublist.refl _, fun _ => rfl⟩

theorem pure (x : α) : EntersSome (pure x) (.ok x) [] :=
  ⟨[], List.Sublist.refl _, enters_pure _⟩

/-- Where an error is thrown right away nothing is entered. -/
theorem refuse {e e' : Error} (h : e = e') (ids : List Nat) :
    EntersSome (throw e : ExceptT Error Visit α) (.error e') ids := by
  subst h
  exact ⟨[], List.nil_sublist ids, enters_pure _⟩

/-- What is no recursion enters nothing. -/
theorem lift (r : Except Error α) : EntersSome (liftM r) r [] :=
  ⟨[], List.Sublist.refl _, enters_pure _⟩

theorem mono {m : ExceptT Error Visit α} {r : Except Error α} (h : EntersSome m r ids)
    (hsub : ids.Sublist more) : EntersSome m r more := by
  obtain ⟨entered, hentered, hrun⟩ := h
  exact ⟨entered, hentered.trans hsub, hrun⟩

/-- After an error nothing more is entered. -/
theorem bind {m : ExceptT Error Visit α} {f : α → ExceptT Error Visit β} {r : Except Error α}
    {g : α → Except Error β} (h : EntersSome m r ids) (hf : ∀ x, EntersSome (f x) (g x) more) :
    EntersSome (m >>= f) (r >>= g) (ids ++ more) := by
  obtain ⟨entered, hentered, hrun⟩ := h
  unfold EntersSome
  rw [ExceptT.run_bind]
  cases r with
  | error e =>
      refine ⟨entered, hentered.trans (List.sublist_append_left ids more), ?_⟩
      rw [← List.append_nil entered]
      exact hrun.bind (enters_pure (Except.error e))
  | ok x =>
      obtain ⟨further, hfurther, hrest⟩ := hf x
      exact ⟨entered ++ further, hentered.append hfurther, hrun.bind hrest⟩

end EntersSome

end

/-! ### Evaluation -/

/-- The trees that hang from the top. -/
def Numbered.children : Numbered → List Numbered
  | node _ _ _ children => children

namespace Arena

variable {α : Type} {m : Arithmetic α} {a : Arena} {depth id : Nat} {value : String}
variable {parent : Option Nat} {children : List Numbered}

/-- Evaluating what hangs from the top of the tree, so many levels deep, gives its value. -/
def Evaluates (m : Arithmetic α) (a : Arena) (depth : Nat) (t : Numbered) : Prop :=
  EntersSome (a.evaluateWithin m depth t.id) (t.erase.evaluate m) t.ids

theorem entersSome_mapM (h : ∀ c ∈ children, a.Evaluates m depth c) :
    EntersSome ((children.map Numbered.id).mapM (a.evaluateWithin m depth))
      (Tree.evaluateAll m (Numbered.eraseAll children)) (Numbered.idsAll children) := by
  induction children with
  | nil => exact .pure []
  | cons c rest ih =>
      have hrest := ih fun c hc => h c (List.mem_cons_of_mem _ hc)
      rw [List.map_cons, List.mapM_cons, Numbered.eraseAll, Tree.evaluateAll_cons, Numbered.idsAll]
      refine (h c List.mem_cons_self).bind fun x => ?_
      rw [← List.append_nil (Numbered.idsAll rest)]
      exact hrest.bind fun xs => .pure (x :: xs)

/-- The node is entered, and then what hangs from it is looked at. -/
theorem entersSome_node {next : Unit → ExceptT Error Visit α} {r : Except Error α}
    {ids : List Nat} (h : EntersSome (next ()) r ids) :
    EntersSome (liftM (enter id) >>= next) r (id :: ids) := by
  have hnode := (EntersSome.enter id).bind (g := fun _ => r) fun _ => h
  exact hnode

theorem evaluates_number
    (here : a.node id = ⟨value, .number, children.map Numbered.id, parent⟩) :
    a.Evaluates m (depth + 1) (.node id value .number children) := by
  unfold Evaluates
  rw [Numbered.id, evaluateWithin]
  refine entersSome_node ?_
  simp only [here, Numbered.erase]
  rw [Tree.evaluate_number]
  cases Decimal.ofLiteral? value.toList with
  | none => exact .refuse rfl _
  | some number => exact (EntersSome.pure _).mono (List.nil_sublist _)

theorem evaluates_operator {op : Operator}
    (here : a.node id = ⟨value, .operator op, children.map Numbered.id, parent⟩)
    (h : ∀ c ∈ children, a.Evaluates m depth c) :
    a.Evaluates m (depth + 1) (.node id value (.operator op) children) := by
  unfold Evaluates
  rw [Numbered.id, evaluateWithin, Numbered.erase]
  refine entersSome_node ?_
  simp only [here]
  rcases children with _ | ⟨left, _ | ⟨right, _ | ⟨third, rest⟩⟩⟩
  · cases op <;> exact .refuse rfl _
  · have hoperand := h left List.mem_cons_self
    cases op with
    | minus => exact hoperand.bind fun x => .pure (m.negate x)
    | plus | times | divide | power => exact .refuse rfl _
  · have hleft := h left List.mem_cons_self
    have hright := h right (List.mem_cons_of_mem _ List.mem_cons_self)
    have hboth := hleft.bind fun x => hright.bind fun y => .pure (m.operate op x y)
    cases op <;> exact hboth
  · cases op <;> exact .refuse (by simp [Numbered.eraseAll_eq_map]) _

theorem evaluates_group {kind : Kind} (hgroup : kind.isGroup = true)
    (here : a.node id = ⟨value, kind, children.map Numbered.id, parent⟩)
    (h : ∀ c ∈ children, a.Evaluates m depth c) :
    a.Evaluates m (depth + 1) (.node id value kind children) := by
  unfold Evaluates
  rw [Numbered.id, evaluateWithin, Numbered.erase]
  refine entersSome_node ?_
  simp only [here]
  cases kind with
  | openGroup | closedGroup =>
      rcases children with _ | ⟨inner, _ | ⟨second, rest⟩⟩
      · exact .refuse rfl _
      · rw [Numbered.idsAll_singleton]
        exact h inner List.mem_cons_self
      · exact .refuse (by simp [Numbered.eraseAll_eq_map]) _
  | number | operator | closer | word | comma => cases hgroup

/-- The node of an argument list is passed over, and its children are entered. -/
theorem evaluates_word
    (here : a.node id = ⟨value, .word, children.map Numbered.id, parent⟩)
    (below : ∀ c ∈ children, a.Holds (some id) c)
    (h : ∀ c ∈ children, ∀ argument ∈ c.children, a.Evaluates m depth argument) :
    a.Evaluates m (depth + 1) (.node id value .word children) := by
  unfold Evaluates
  rw [Numbered.id, evaluateWithin, Numbered.erase]
  refine entersSome_node ?_
  simp only [here]
  rcases children with _ | ⟨⟨list, text, kind, arguments⟩, _ | ⟨second, rest⟩⟩
  · exact .refuse rfl _
  · obtain ⟨hlist, -⟩ := below _ List.mem_cons_self
    have harguments := entersSome_mapM (h _ List.mem_cons_self)
    simp only [List.map_cons, List.map_nil, Numbered.id]
    rw [hlist, Numbered.eraseAll, Numbered.erase, Numbered.eraseAll, Tree.evaluate_call,
      Numbered.idsAll_singleton, Numbered.ids]
    by_cases hgroup : kind.isGroup = true
    · simp only [hgroup, ↓reduceIte]
      have hcall := harguments.bind fun values => .lift (m.call value values).value
      rw [List.append_nil] at hcall
      exact hcall.mono (List.sublist_cons_self list _)
    · simp only [hgroup]
      exact .refuse rfl _
  · exact .refuse rfl _

/-- **Evaluating on the arena gives the value of the tree** and enters no node outside it.  As
many levels as the tree has nodes are enough. -/
theorem Holds.evaluates {t : Numbered} (h : a.Holds parent t) (hdepth : t.ids.length ≤ depth) :
    a.Evaluates m depth t := by
  induction depth generalizing t parent with
  | zero =>
      have hpos := List.length_pos_of_mem t.id_mem_ids
      omega
  | succ depth ih =>
      cases h with
      | @node _ id value kind children here below =>
      rw [Numbered.ids, List.length_cons] at hdepth
      have hfew : ∀ c ∈ children, c.ids.length ≤ depth := by
        intro c hc
        have hle := Numbered.length_ids_le hc
        omega
      have hchild : ∀ c ∈ children, a.Evaluates m depth c :=
        fun c hc => ih (below c hc) (hfew c hc)
      cases kind with
      | number => exact evaluates_number here
      | operator op => exact evaluates_operator here hchild
      | openGroup | closedGroup => exact evaluates_group rfl here hchild
      | word =>
          refine evaluates_word here below fun c hc argument hargument => ?_
          have hle := hfew c hc
          cases below c hc with
          | @node _ list text kind arguments hlist hbelow =>
          have hless := Numbered.length_ids_le (show argument ∈ arguments from hargument)
          rw [Numbered.ids, List.length_cons] at hle
          exact ih (hbelow argument hargument) (by omega)
      | closer | comma =>
          unfold Evaluates
          rw [Numbered.id, evaluateWithin]
          refine entersSome_node ?_
          simp only [here]
          exact .refuse rfl _

/-! ### Drawing -/

/-- Drawing what hangs from the top of the tree, so many levels deep, gives its branches. -/
def Draws (a : Arena) (depth : Nat) (t : Numbered) : Prop :=
  ∀ margin, Enters (a.drawWithin depth margin t.id) (Tree.branches margin t.erase.children) t.ids

theorem enters_siblings (margin : String) (hdraws : ∀ c ∈ children, a.Draws depth c)
    (hvalues : ∀ c ∈ children, (a.node c.id).value = c.erase.value) : ∃ branches,
    Enters ((withStrokes (children.map Numbered.id)).mapM fun (child, strokes) => do
        let below ← a.drawWithin depth (margin ++ strokes.below) child
        return (margin ++ strokes.corner ++ (a.node child).value) :: below)
      branches (Numbered.idsAll children) ∧
    branches.flatten = Tree.branches margin (Numbered.eraseAll children) := by
  induction children with
  | nil => exact ⟨[], enters_pure [], rfl⟩
  | cons c rest ih =>
      rw [List.forall_mem_cons] at hdraws hvalues
      obtain ⟨branches, hrest, hflatten⟩ := ih hdraws.2 hvalues.2
      have hstrokes : (if (rest.map Numbered.id).isEmpty then Strokes.last else .inner) =
          Tree.strokesBefore (Numbered.eraseAll rest) := by
        rw [Tree.strokesBefore, Numbered.eraseAll_eq_map, List.isEmpty_map, List.isEmpty_map]
      rw [List.map_cons, withStrokes, List.mapM_cons, hstrokes, Numbered.idsAll,
        Numbered.eraseAll, Tree.branches_cons, ← hflatten, ← hvalues.1]
      have hfirst := (hdraws.1 (margin ++ (Tree.strokesBefore (Numbered.eraseAll rest)).below)).map
        fun below => (margin ++ (Tree.strokesBefore (Numbered.eraseAll rest)).corner ++
          (a.node c.id).value) :: below
      exact ⟨_, hfirst.bind (hrest.map (List.cons _)), by rw [List.flatten_cons, List.cons_append]⟩

/-- **Drawing on the arena gives the lines of the tree** and enters every node of it. -/
theorem Holds.draws {t : Numbered} (h : a.Holds parent t) (hdepth : t.ids.length ≤ depth) :
    a.Draws depth t := by
  induction depth generalizing t parent with
  | zero =>
      have hpos := List.length_pos_of_mem t.id_mem_ids
      omega
  | succ depth ih =>
      cases h with
      | @node _ id value kind children here below =>
      rw [Numbered.ids, List.length_cons] at hdepth
      have hdraws : ∀ c ∈ children, a.Draws depth c := by
        intro c hc
        have hle := Numbered.length_ids_le hc
        exact ih (below c hc) (by omega)
      have hvalues : ∀ c ∈ children, (a.node c.id).value = c.erase.value := by
        intro c hc
        cases below c hc with
        | node hnode => rw [Numbered.id, hnode]; rfl
      intro margin
      obtain ⟨branches, hbranches, hflatten⟩ := enters_siblings margin hdraws hvalues
      rw [Numbered.id, drawWithin, here, Numbered.ids, Numbered.erase, Tree.children, ← hflatten]
      exact (enters_enter id).bind (hbranches.map List.flatten)

end Arena

/-! ### All walks and recursions -/

/-- **Every walk up and every recursion down ends.**  From a node of a draft, such as the one the
cursor is on, no walk visits more nodes than there are.  Evaluating and drawing an expression go
no more levels down than there are nodes, and end with the value and the drawing of its tree.  No
node is entered twice, and drawing enters all of them. -/
theorem ends_ofTokens {α : Type} (m : Arithmetic α) (tokens : List String) :
    (∀ d, Draft.ofTokens tokens = .ok d →
      d.cursor < d.arena.size ∧ ∀ id < d.arena.size, d.arena.WalksEnd id) ∧
    ∀ e, Expression.ofTokens tokens = .ok e → ∀ depth, e.arena.size ≤ depth →
      (∃ entered,
        (e.arena.evaluateWithin m depth e.root).run.run [] = some (e.evaluateIn m, entered) ∧
        entered.Nodup ∧ ∀ id ∈ entered, id < e.arena.size) ∧
      ∃ lines entered, (e.arena.drawWithin depth "" e.root).run [] = some (lines, entered) ∧
        e.tree.lines = (e.arena.node e.root).value :: lines ∧
        entered.Perm (List.range e.arena.size) := by
  refine ⟨fun d hd => ?_, fun e he depth hdepth => ?_⟩
  · obtain ⟨s, -, hshows⟩ := Draft.exists_spine hd
    exact ⟨hshows.cursor_lt, fun id hid => hshows.rooted.1.forest.walksEnd hid⟩
  · obtain ⟨t, ht⟩ := Expression.exists_stores he
    have hnodup : t.ids.Nodup := ht.numbers.nodup_iff.mpr List.nodup_range
    have henough : t.ids.length ≤ depth := by
      rwa [ht.numbers.length_eq, List.length_range]
    have hlines : e.tree.lines =
        (e.arena.node e.root).value :: Tree.branches "" t.erase.children := by
      rw [ht.tree_eq, ← ht.root]
      cases ht.holds with
      | node here below =>
          rw [Numbered.id, here]
          rfl
    obtain ⟨entered, hsub, hrun⟩ := ht.holds.evaluates henough
    have hdrawn := ht.holds.draws henough "" []
    rw [ht.root] at hrun hdrawn
    refine ⟨⟨entered, ?_, hsub.nodup hnodup, fun id hid => ?_⟩, _, t.ids, hdrawn, hlines,
      ht.numbers⟩
    · rw [Expression.evaluateIn, ht.tree_eq]
      exact hrun []
    · exact List.mem_range.mp (ht.numbers.mem_iff.mp (hsub.subset hid))

/-- In `1)*sin(2` the walk from the `1` goes to younger nodes, and the one from the `2` to older
ones.  Both end, and so do the recursions.  The group of the arguments is drawn, but it is passed
over when the call is evaluated. -/
theorem ends_older_and_younger :
    ∃ d e, Draft.ofTokens ["1", ")", "*", "sin", "(", "2"] = .ok d ∧
      Expression.ofTokens ["1", ")", "*", "sin", "(", "2"] = .ok e ∧
      d.arena.lineage 0 = [0, 1, 2] ∧ d.arena.lineage 5 = [5, 4, 3, 2] ∧
      d.arena.WalksEnd 0 ∧ d.arena.WalksEnd 5 ∧
      (e.arena.evaluateWithin .words 6 e.root).run.run [] =
        some (e.evaluateIn .words, [2, 1, 0, 3, 5]) ∧
      ∃ lines, (e.arena.drawWithin 6 "" e.root).run [] = some (lines, [2, 1, 0, 3, 4, 5]) := by
  obtain ⟨d, e, hd, he, ⟨hsize, hone, htwo, hall⟩, hentered, hdrawn⟩ : ∃ d e,
      Draft.ofTokens ["1", ")", "*", "sin", "(", "2"] = .ok d ∧
      Expression.ofTokens ["1", ")", "*", "sin", "(", "2"] = .ok e ∧
      (d.arena.size = 6 ∧ d.arena.lineage 0 = [0, 1, 2] ∧ d.arena.lineage 5 = [5, 4, 3, 2] ∧
        e.arena.size = 6) ∧
      ((e.arena.evaluateWithin .words 6 e.root).run.run []).map Prod.snd = some [2, 1, 0, 3, 5] ∧
      ((e.arena.drawWithin 6 "" e.root).run []).map Prod.snd = some [2, 1, 0, 3, 4, 5] :=
    ⟨_, _, rfl, rfl, by decide, rfl, rfl⟩
  obtain ⟨hwalks, hrecursions⟩ := ends_ofTokens .words ["1", ")", "*", "sin", "(", "2"]
  obtain ⟨⟨entered, hvalue, -⟩, lines, drawn, hlines, -⟩ := hrecursions e he 6 (Nat.le_of_eq hall)
  rw [hvalue] at hentered
  rw [hlines] at hdrawn
  obtain rfl : entered = [2, 1, 0, 3, 5] := Option.some.inj hentered
  obtain rfl : drawn = [2, 1, 0, 3, 4, 5] := Option.some.inj hdrawn
  exact ⟨d, e, hd, he, hone, htwo, (hwalks d hd).2 0 (by omega), (hwalks d hd).2 5 (by omega),
    hvalue, lines, hlines⟩

end Calculator
