/-
How a chain of operators of one precedence groups.

Without signs it groups from left to right: every operator climbs past the one before and
takes all that was read as its left operand.  A minus in front of an operand is an operator
too, and it binds as a difference does.  In a chain of sums it is climbed past like any other;
but operators that bind more tightly do not climb past it, and so the rest of the chain becomes
its operand: `12 / -2 / 3` is `12 / (-(2 / 3))`.

So a chain groups from left to right exactly if it is one of sums and differences, or if no
operand is negated but the last.
-/
import Calculator.Proofs.Chain.Operands

namespace Calculator

/-! ### Chains -/

/-- An operator with its right operand, which may have a minus in front. -/
structure Link where
  op : Operator
  negated : Bool := false
  operand : List String

namespace Link

/-- The tokens of a link. -/
def tokens (l : Link) : List String :=
  l.op.symbol :: ((if l.negated then ["-"] else []) ++ l.operand)

/-- What the operator of a link is applied to, with its sign. -/
def tree (l : Link) : Tree :=
  if l.negated then .node "-" (.operator .minus) [treeOf l.operand] else treeOf l.operand

/-- The operator of a link applied to two operands. -/
def apply (l : Link) (left right : Tree) : Tree :=
  .node l.op.symbol (.operator l.op) [left, right]

/-- The frames that wait for the operand of a link. -/
def frames (l : Link) (left : Tree) : List Frame :=
  (if l.negated then [⟨"-", .operator .minus, []⟩] else []) ++
    [⟨l.op.symbol, .operator l.op, [left]⟩]

/-- The minus of a link catches whatever binds as tightly as its operator. -/
def Catches (l : Link) : Prop :=
  l.negated = true ∧ Operator.minus.precedence < l.op.precedence

instance (l : Link) : Decidable l.Catches :=
  inferInstanceAs (Decidable (_ ∧ _))

end Link

/-- The tokens of an operand and the links behind it. -/
def chain (first : List String) (links : List Link) : List String :=
  first ++ links.flatMap Link.tokens

/-- A chain that groups from left to right. -/
def leftNested (t : Tree) (links : List Link) : Tree :=
  links.foldl (fun left l => l.apply left l.tree) t

/-- A chain in which a minus takes all that follows as its operand, if the operators bind
more tightly than a minus does. -/
def grouped (t : Tree) : List Link → Tree
  | [] => t
  | l :: rest =>
      if l.Catches then
        l.apply t (.node "-" (.operator .minus) [grouped (treeOf l.operand) rest])
      else grouped (l.apply t l.tree) rest

/-- The operators are of one precedence, and every operand is read as one node. -/
def Level (precedence : Nat) (links : List Link) : Prop :=
  ∀ l ∈ links, l.op.precedence = precedence ∧ ∃ f, Spine.ReadsAs l.operand f

variable {precedence : Nat} {links : List Link}

/-! ### Reading a chain -/

namespace Spine

/-- What follows a link does not bind more tightly than its operator. -/
theorem below_links (h : Level precedence links) :
    Grammar.Below (precedence + 1) (links.flatMap Link.tokens) := by
  intro op hop
  cases links with
  | nil => cases hop
  | cons l rest =>
      have hsymbol : Operator.ofSymbol? l.op.symbol = some op := hop
      rw [Operator.ofSymbol?_eq_some_iff.mpr rfl] at hsymbol
      obtain rfl := Option.some.inj hsymbol
      rw [(h l List.mem_cons_self).1]
      exact Nat.lt_succ_self precedence

/-- A minus is read where an operand is waited for, and waits for one itself. -/
theorem readBelow_negated {above : List Frame} (hawaiting : Awaiting above)
    (rest : List String) : readBelow above ("-" :: rest) =
      readBelow (⟨"-", .operator .minus, []⟩ :: above) rest :=
  readBelow_cons hawaiting (show Kind.of? "-" = some (.operator .minus) from rfl) rfl rest

/-- Behind a link the cursor stands on its operand, below the operator and the minus. -/
theorem Stands.foldlM_link {s : Spine} {t : Tree} {above : List Frame} {l : Link}
    {rest : List String} (h : Stands s t above (l.tokens ++ rest)) (hawaiting : Awaiting above)
    (hfloor : floor above < l.op.precedence) {f : Frame} (hreads : ReadsAs l.operand f) :
    ∃ next, (l.tokens ++ rest).foldlM step s = rest.foldlM step next ∧
      Stands next (treeOf l.operand) (l.frames t ++ above) rest := by
  obtain ⟨op, negated, operand⟩ := l
  have hop : Operator.ofSymbol? op.symbol = some op := Operator.ofSymbol?_eq_some_iff.mpr rfl
  have hright : Awaiting (⟨op.symbol, .operator op, [t]⟩ :: above) := rfl
  cases negated with
  | false =>
      have h : Stands s t above (op.symbol :: (operand ++ rest)) := h
      obtain ⟨next, hread, hnext⟩ := hreads.stands hright rest
      exact ⟨next, (h.foldlM_operator hawaiting hop hfloor).trans hread, hnext⟩
  | true =>
      have h : Stands s t above (op.symbol :: "-" :: (operand ++ rest)) := h
      have hsigned : Awaiting (⟨"-", .operator .minus, []⟩ ::
          ⟨op.symbol, .operator op, [t]⟩ :: above) := rfl
      obtain ⟨next, hread, hnext⟩ := hreads.stands hsigned rest
      refine ⟨next, (h.foldlM_operator hawaiting hop hfloor).trans ?_, hnext⟩
      rw [readBelow_negated hright]
      exact hread

/-- The next operator climbs past the link, unless a minus stops it. -/
theorem Stands.complete_link {s : Spine} {t : Tree} {above : List Frame} {l : Link}
    {rest : List String} (h : Stands s (treeOf l.operand) (l.frames t ++ above) rest)
    (hbelow : Grammar.Below (l.op.precedence + 1) rest) (hloose : ¬l.Catches) :
    Stands s (l.apply t l.tree) above rest := by
  obtain ⟨op, negated, operand⟩ := l
  cases negated with
  | false => exact h.complete hbelow
  | true =>
      have hle : op.precedence ≤ Operator.minus.precedence :=
        Nat.not_lt.mp fun htighter => hloose ⟨rfl, htighter⟩
      have hsum : Grammar.Below (Operator.minus.precedence + 1) rest :=
        fun next hnext => Nat.lt_of_lt_of_le (hbelow next hnext) (Nat.succ_le_succ hle)
      exact (h.complete hsum).complete hbelow

/-- **Behind a chain the cursor stands in the tree that it makes.** -/
theorem foldlM_links (links : List Link) : ∀ {s : Spine} {t : Tree} {above : List Frame},
    Level precedence links → Awaiting above → (∀ l ∈ links, floor above < l.op.precedence) →
    Stands s t above (links.flatMap Link.tokens) →
    ∃ next, (links.flatMap Link.tokens).foldlM step s = .ok next ∧
      next.tree = fold (grouped t links).frame above := by
  induction links with
  | nil => exact fun _ _ _ hstands => ⟨_, rfl, hstands.tree⟩
  | cons l rest ih =>
      intro s t above hlevel hawaiting hfloor hstands
      obtain ⟨hprecedence, f, hreads⟩ := hlevel l List.mem_cons_self
      have hrest : Level precedence rest := fun m hm => hlevel m (List.mem_cons_of_mem _ hm)
      rw [List.flatMap_cons] at hstands ⊢
      obtain ⟨next, hread, hoperand⟩ :=
        hstands.foldlM_link hawaiting (hfloor l List.mem_cons_self) hreads
      rw [hread]
      by_cases hcatches : l.Catches
      · -- The rest of the chain is read below the minus.
        have hframes : l.frames t ++ above =
            ⟨"-", .operator .minus, []⟩ :: ⟨l.op.symbol, .operator l.op, [t]⟩ :: above := by
          rw [Link.frames, if_pos hcatches.1]
          rfl
        have hsigned : Awaiting (⟨"-", .operator .minus, []⟩ ::
            ⟨l.op.symbol, .operator l.op, [t]⟩ :: above) := rfl
        have hminus : ∀ m ∈ rest, Operator.minus.precedence < m.op.precedence := by
          intro m hm
          rw [(hrest m hm).1, ← hprecedence]
          exact hcatches.2
        rw [hframes] at hoperand
        obtain ⟨last, hlast, htree⟩ := ih hrest hsigned hminus hoperand
        refine ⟨last, hlast, ?_⟩
        rw [htree, grouped, if_pos hcatches, fold, fold, Tree.tree_frame]
        rfl
      · have hmore : ∀ m ∈ rest, floor above < m.op.precedence :=
          fun m hm => hfloor m (List.mem_cons_of_mem _ hm)
        have hwhole := hoperand.complete_link (hprecedence ▸ below_links hrest) hcatches
        rw [grouped, if_neg hcatches]
        exact ih hrest hawaiting hmore hwhole

end Spine

/-! ### Grouping from left to right -/

theorem leftNested_cons (t : Tree) (l : Link) (rest : List Link) :
    leftNested t (l :: rest) = leftNested (l.apply t l.tree) rest := rfl

theorem leftNested_concat (t : Tree) (links : List Link) (l : Link) :
    leftNested t (links ++ [l]) = l.apply (leftNested t links) l.tree := by
  simp [leftNested]

theorem sizeOf_apply (l : Link) (t u : Tree) : sizeOf t < sizeOf (l.apply t u) := by
  rw [Link.apply, Tree.node.sizeOf_spec, List.cons.sizeOf_spec]
  omega

/-- The first operand is part of the tree. -/
theorem sizeOf_leftNested (t : Tree) (links : List Link) :
    sizeOf t ≤ sizeOf (leftNested t links) := by
  induction links generalizing t with
  | nil => exact Nat.le_refl _
  | cons l rest ih => exact Nat.le_of_lt (Nat.lt_of_lt_of_le (sizeOf_apply l t l.tree) (ih _))

/-- A minus that takes more than its operand does not leave the chain nested to the left. -/
theorem grouped_ne_leftNested {l : Link} {rest : List Link} (hcatches : l.Catches)
    (hne : rest ≠ []) (t : Tree) : grouped t (l :: rest) ≠ leftNested t (l :: rest) := by
  obtain ⟨init, last, rfl⟩ : ∃ init last, rest = init ++ [last] :=
    ⟨_, _, (List.dropLast_append_getLast hne).symm⟩
  rw [grouped, if_pos hcatches, leftNested_cons, leftNested_concat]
  intro hsame
  simp only [Link.apply, Tree.node.injEq, List.cons.injEq] at hsame
  -- The first operand would be part of itself.
  have hlt := sizeOf_apply l t l.tree
  have hle := sizeOf_leftNested (l.apply t l.tree) init
  rw [show leftNested (l.apply t l.tree) init = t from hsame.2.2.1.symm] at hle
  omega

/-- **Which chains group from left to right**: those in which no minus has anything to catch. -/
theorem grouped_eq_leftNested_iff (links : List Link) (t : Tree) :
    grouped t links = leftNested t links ↔ ∀ l ∈ links.dropLast, ¬l.Catches := by
  induction links generalizing t with
  | nil => simp [grouped, leftNested]
  | cons l rest ih =>
      cases rest with
      | nil =>
          have hlast : grouped t [l] = leftNested t [l] := by
            by_cases hcatches : l.Catches
            · simp [grouped, leftNested, hcatches, Link.tree, hcatches.1]
            · simp [grouped, leftNested, hcatches]
          exact iff_of_true hlast (by simp)
      | cons m rest =>
          rw [List.dropLast_cons_cons, List.forall_mem_cons]
          by_cases hcatches : l.Catches
          · exact iff_of_false (grouped_ne_leftNested hcatches (List.cons_ne_nil m rest) t)
              fun hall => hall.1 hcatches
          · rw [grouped, if_neg hcatches, leftNested_cons, ih]
            exact ⟨fun hall => ⟨hcatches, hall⟩, And.right⟩

theorem catches_iff (l : Link) : l.Catches ↔ l.op.precedence ≠ 1 ∧ l.negated = true := by
  have hpos := l.op.precedence_pos
  have hminus : Operator.minus.precedence = 1 := rfl
  rw [Link.Catches, hminus, and_comm]
  refine and_congr_left fun _ => ?_
  omega

/-! ### The expression -/

/-- The operands of a chain that is an expression are read as nodes. -/
theorem readsAs_of_chain {first : List String} {e : Expression}
    (he : Expression.ofTokens (chain first links) = .ok e) (hfirst : IsOperand first)
    (hlinks : ∀ l ∈ links, IsOperand l.operand) :
    (∃ f, Spine.ReadsAs first f) ∧ ∀ l ∈ links, ∃ f, Spine.ReadsAs l.operand f := by
  obtain ⟨s, hs, -⟩ := Expression.exists_spine he
  have hfit : AllFit ([] ++ (first ++ links.flatMap Link.tokens)) := allFit_of_ok hs
  refine ⟨hfirst.readsAs hfit, fun l hl => ?_⟩
  obtain ⟨left, right, rfl⟩ := List.append_of_mem hl
  have hpart : chain first (left ++ l :: right) =
      (first ++ left.flatMap Link.tokens ++ l.op.symbol :: if l.negated then ["-"] else []) ++
        (l.operand ++ right.flatMap Link.tokens) := by
    simp [chain, Link.tokens]
  rw [List.nil_append, ← chain, hpart] at hfit
  exact (hlinks l hl).readsAs hfit

/-- **Operators of one precedence group from left to right, except that a minus stops those
that bind more tightly.**  In a chain that is an expression every operand is one by itself.
The tree of the chain is made of their trees, and it is nested to the left exactly if the
operators are sums and differences or no operand is negated but the last. -/
theorem tree_chain {first : List String} {e : Expression} (hfirst : IsOperand first)
    (hlinks : ∀ l ∈ links, l.op.precedence = precedence ∧ IsOperand l.operand)
    (he : Expression.ofTokens (chain first links) = .ok e) :
    (∀ operand ∈ first :: links.map Link.operand, ∃ a, Expression.ofTokens operand = .ok a) ∧
    e.tree = grouped (treeOf first) links ∧
    (e.tree = leftNested (treeOf first) links ↔
      precedence = 1 ∨ ∀ l ∈ links.dropLast, l.negated = false) := by
  obtain ⟨hreads, hlinksReads⟩ := readsAs_of_chain he hfirst fun l hl => (hlinks l hl).2
  obtain ⟨f, hf⟩ := hreads
  have htree : e.tree = grouped (treeOf first) links := by
    obtain ⟨s, hs, hsame⟩ := Expression.exists_spine he
    have hawaiting : Spine.Awaiting [] := trivial
    obtain ⟨t, hread, hstands⟩ := hf.stands hawaiting (links.flatMap Link.tokens)
    obtain ⟨next, hnext, hgrouped⟩ := Spine.foldlM_links links
      (fun l hl => ⟨(hlinks l hl).1, hlinksReads l hl⟩) hawaiting
      (fun l _ => l.op.precedence_pos) hstands
    have hboth : Spine.ofTokens (chain first links) = .ok next := hread.trans hnext
    obtain rfl : s = next := Except.ok.inj (hs.symm.trans hboth)
    rw [hsame, hgrouped]
    exact Tree.tree_frame _
  refine ⟨?_, htree, ?_⟩
  · intro operand hoperand
    rcases List.mem_cons.mp hoperand with rfl | hmem
    · obtain ⟨a, ha, -⟩ := hf.exists_tree
      exact ⟨a, ha⟩
    · obtain ⟨l, hl, rfl⟩ := List.mem_map.mp hmem
      obtain ⟨g, hg⟩ := hlinksReads l hl
      obtain ⟨a, ha, -⟩ := hg.exists_tree
      exact ⟨a, ha⟩
  · have hcatches : ∀ l ∈ links.dropLast,
        (¬l.Catches ↔ precedence = 1 ∨ l.negated = false) := by
      intro l hl
      have hmem := (List.dropLast_sublist links).subset hl
      rw [catches_iff, (hlinks l hmem).1, not_and_or, not_not, Bool.not_eq_true]
    rw [htree, grouped_eq_leftNested_iff, forall₂_congr hcatches]
    by_cases hone : precedence = 1 <;> simp [hone]

/-- In `8 * -(1 + 2) / 4 / -5` the first minus takes all that follows. -/
theorem tree_chain_products :
    let links : List Link := [⟨.times, true, ["(", "1", "+", "2", ")"]⟩, ⟨.divide, false, ["4"]⟩,
      ⟨.divide, true, ["5"]⟩]
    IsOperand ["8"] ∧ (∀ l ∈ links, l.op.precedence = 2 ∧ IsOperand l.operand) ∧
      ∃ e, Expression.ofTokens (chain ["8"] links) = .ok e ∧
        e.tree = grouped (treeOf ["8"]) links ∧ e.tree ≠ leftNested (treeOf ["8"]) links := by
  intro links
  have hfirst : IsOperand ["8"] := .number (by decide)
  have hlinks : ∀ l ∈ links, l.op.precedence = 2 ∧ IsOperand l.operand := by
    have hgroup : IsOperand ("(" :: (["1", "+", "2"] ++ [")"])) := .group (by decide) (by decide)
    have hfour : IsOperand ["4"] := .number (by decide)
    have hfive : IsOperand ["5"] := .number (by decide)
    simp only [links, List.forall_mem_cons, List.not_mem_nil, false_implies, implies_true, and_true]
    exact ⟨⟨rfl, hgroup⟩, ⟨rfl, hfour⟩, rfl, hfive⟩
  obtain ⟨e, he⟩ : ∃ e, Expression.ofTokens (chain ["8"] links) = .ok e := ⟨_, rfl⟩
  obtain ⟨-, htree, hiff⟩ := tree_chain hfirst hlinks he
  refine ⟨hfirst, hlinks, e, he, htree, fun hleft => ?_⟩
  rcases hiff.mp hleft with hone | hplain
  · cases hone
  · cases hplain ⟨.times, true, ["(", "1", "+", "2", ")"]⟩ (by simp [links])

/-- **Not every chain groups from left to right**: in `12 / -2 / 3` the minus takes `2 / 3`. -/
theorem chain_not_leftNested :
    ∃ (first : List String) (links : List Link) (e : Expression), 2 ≤ links.length ∧
      IsOperand first ∧ (∀ l ∈ links, l.op.precedence = 2 ∧ IsOperand l.operand) ∧
      Expression.ofTokens (chain first links) = .ok e ∧
      e.tree ≠ leftNested (treeOf first) links := by
  have htwo : IsOperand ["2"] := .number (by decide)
  have hthree : IsOperand ["3"] := .number (by decide)
  obtain ⟨e, he, hread⟩ : ∃ e, Expression.ofTokens
      (chain ["12"] [⟨.divide, true, ["2"]⟩, ⟨.divide, false, ["3"]⟩]) = .ok e ∧
        e.tree.children.map Tree.value = ["12", "-"] := ⟨_, rfl, rfl⟩
  have hnested : (leftNested (treeOf ["12"])
      [⟨.divide, true, ["2"]⟩, ⟨.divide, false, ["3"]⟩]).children.map Tree.value = ["/", "3"] := rfl
  refine ⟨["12"], [⟨.divide, true, ["2"]⟩, ⟨.divide, false, ["3"]⟩], e, by decide,
    .number (by decide), ?_, he, fun hleft => ?_⟩
  · simp only [List.forall_mem_cons, List.not_mem_nil, false_implies, implies_true, and_true]
    exact ⟨⟨rfl, htwo⟩, rfl, hthree⟩
  · rw [hleft, hnested] at hread
    exact absurd hread (by decide)

end Calculator
