/-
Chains with calls.

An operator behind a call takes the call alone as its left operand, for the climb stops below
the word.  In a chain of one precedence a call therefore keeps the next operator to itself, with
the right operand of that: `10 - cos(0) - 3` is `10 - (cos(0) - 3)`.  The operators behind a
number or a group climb past all of it again.

So a chain groups from left to right exactly if no operand between the first and the last is a
call.
-/
import Calculator.Proofs.Chain.Grouping
import Calculator.Proofs.Chain.Terms

namespace Calculator

/-! ### The tree of a chain -/

/-- The operand of the link is a call. -/
def Link.IsCall (l : Link) : Prop :=
  Grammar.WordNext l.operand

instance (l : Link) : Decidable l.IsCall :=
  inferInstanceAs (Decidable (Grammar.WordNext _))

/-- The links with the trees that are their right operands.  A call keeps the link behind it
to itself, which is then no link of the chain. -/
def rightOperands : List Link → List (Link × Tree)
  | [] => []
  | l :: rest =>
      match rightOperands rest with
      | [] => [(l, l.tree)]
      | (m, right) :: more =>
          if l.IsCall then (l, m.apply l.tree right) :: more
          else (l, l.tree) :: (m, right) :: more

/-- Links with their right operands, grouped from left to right. -/
def nested (t : Tree) (blocks : List (Link × Tree)) : Tree :=
  blocks.foldl (fun left block => block.1.apply left block.2) t

/-- A chain in which every call but the first operand keeps the link behind it. -/
def groupedAtCalls (t : Tree) (links : List Link) : Tree :=
  nested t (rightOperands links)

theorem exists_rightOperands (l : Link) (rest : List Link) :
    ∃ right more, rightOperands (l :: rest) = (l, right) :: more := by
  rw [rightOperands]
  split
  · exact ⟨_, _, rfl⟩
  · split <;> exact ⟨_, _, rfl⟩

/-- It makes no difference to a chain whether its first operand is a call. -/
theorem nested_rightOperands {l : Link} {links : List Link} {right : Tree}
    {more : List (Link × Tree)} (h : rightOperands (l :: links) = (l, right) :: more) :
    nested right more = groupedAtCalls l.tree links := by
  rw [groupedAtCalls]
  rw [rightOperands] at h
  split at h
  · rename_i hnone
    cases h
    rw [hnone]
  · rename_i m mright mmore hsome
    rw [hsome]
    split at h <;> cases h <;> rfl

/-! ### Which chains group from left to right -/

/-- How often one can go down to the first child. -/
def Tree.leftDepth : Tree → Nat
  | .node _ _ [] => 0
  | .node _ _ (left :: _) => left.leftDepth + 1

theorem leftDepth_nested (t : Tree) (blocks : List (Link × Tree)) :
    (nested t blocks).leftDepth = t.leftDepth + blocks.length := by
  induction blocks generalizing t with
  | nil => rfl
  | cons block rest ih =>
      have happly : (block.1.apply t block.2).leftDepth = t.leftDepth + 1 := by
        rw [Link.apply, Tree.leftDepth]
      rw [nested, List.foldl_cons, ← nested, ih, happly, List.length_cons]
      omega

theorem leftNested_eq_nested (t : Tree) (links : List Link) :
    leftNested t links = nested t (links.map fun l => (l, l.tree)) := by
  rw [leftNested, nested, List.foldl_map]

/-- A call that is not the last operand makes one link less. -/
theorem length_rightOperands (links : List Link) :
    (rightOperands links).length ≤ links.length ∧
      ((rightOperands links).length = links.length → ∀ l ∈ links.dropLast, ¬l.IsCall) := by
  induction links with
  | nil => simp [rightOperands]
  | cons l rest ih =>
      cases rest with
      | nil => simp [rightOperands]
      | cons m rest =>
          obtain ⟨right, more, hmore⟩ := exists_rightOperands m rest
          obtain ⟨hle, hcalls⟩ := ih
          rw [hmore] at hle hcalls
          rw [rightOperands, hmore, List.dropLast_cons_cons, List.forall_mem_cons]
          simp only [List.length_cons] at hle hcalls ⊢
          split
          · simp only [List.length_cons]
            exact ⟨by omega, fun hsame => by omega⟩
          · rename_i hcall
            simp only [List.length_cons]
            exact ⟨by omega, fun hsame => ⟨hcall, hcalls (by omega)⟩⟩

theorem rightOperands_eq_map {links : List Link} (h : ∀ l ∈ links.dropLast, ¬l.IsCall) :
    rightOperands links = links.map fun l => (l, l.tree) := by
  induction links with
  | nil => rfl
  | cons l rest ih =>
      cases rest with
      | nil => rfl
      | cons m rest =>
          rw [List.dropLast_cons_cons, List.forall_mem_cons] at h
          rw [rightOperands, ih h.2]
          simp only [List.map_cons, if_neg h.1]

/-- **Which chains group from left to right**: those in which no call keeps a link. -/
theorem groupedAtCalls_eq_leftNested_iff (t : Tree) (links : List Link) :
    groupedAtCalls t links = leftNested t links ↔ ∀ l ∈ links.dropLast, ¬l.IsCall := by
  rw [groupedAtCalls, leftNested_eq_nested]
  refine ⟨fun hsame => (length_rightOperands links).2 ?_, fun hnone => ?_⟩
  · have hdepth := congrArg Tree.leftDepth hsame
    rw [leftDepth_nested, leftDepth_nested, List.length_map] at hdepth
    omega
  · rw [rightOperands_eq_map hnone]

/-! ### Reading a chain -/

namespace Spine

variable {precedence : Nat}

/-- The links have operators of one precedence and terms without signs. -/
def Terms (precedence : Nat) (links : List Link) : Prop :=
  ∀ l ∈ links, l.op.precedence = precedence ∧ l.negated = false ∧ ReadsTerm l.operand

/-- The frames are operators of one precedence that wait for their right operands. -/
def Halves (precedence : Nat) (frames : List Frame) : Prop :=
  ∀ f ∈ frames, ∃ op left, f = ⟨op.symbol, .operator op, [left]⟩ ∧ op.precedence = precedence

/-- The next operator climbs past all of them. -/
theorem Stands.complete_halves {s : Spine} {t : Tree} {frames : List Frame} {rest : List String}
    (h : Stands s t frames rest) (hframes : Halves precedence frames)
    (hbelow : Grammar.Below (precedence + 1) rest) : Stands s (fold t.frame frames) [] rest := by
  induction frames generalizing t with
  | nil => simpa [fold] using h
  | cons f frames ih =>
      obtain ⟨⟨op, left, rfl, rfl⟩, hrest⟩ := List.forall_mem_cons.mp hframes
      rw [fold, Tree.tree_frame]
      exact ih (h.complete hbelow) hrest

/-- The operator of a link waits for its term: below a call alone, or below all that was read. -/
theorem Behind.foldlM_link {call : Prop} {s : Spine} {t : Tree} {frames : List Frame} {l : Link}
    {rest : List String} (h : Behind call s t frames (l.tokens ++ rest))
    (hframes : Halves l.op.precedence frames) (hplain : l.negated = false) :
    ∃ left below, (l.tokens ++ rest).foldlM step s =
        readBelow (⟨l.op.symbol, .operator l.op, [left]⟩ :: below) (l.operand ++ rest) ∧
      Halves l.op.precedence below ∧
      (call ∧ left = t ∧ below = frames ∨ ¬call ∧ left = fold t.frame frames ∧ below = []) := by
  have htokens : l.tokens ++ rest = l.op.symbol :: (l.operand ++ rest) := by
    rw [Link.tokens, hplain]
    rfl
  have hsymbol : Operator.ofSymbol? l.op.symbol = some l.op :=
    Operator.ofSymbol?_eq_some_iff.mpr rfl
  rw [htokens] at h ⊢
  cases h with
  | operand hcall stands =>
      have hbelow : Grammar.Below (l.op.precedence + 1) (l.op.symbol :: (l.operand ++ rest)) := by
        intro op hop
        obtain rfl : l.op = op := Option.some.inj (hsymbol.symm.trans hop)
        exact Nat.lt_succ_self _
      have hwhole := stands.complete_halves hframes hbelow
      exact ⟨_, [], hwhole.foldlM_operator trivial hsymbol l.op.precedence_pos, by simp [Halves],
        Or.inr ⟨hcall, rfl, rfl⟩⟩
  | call hcall =>
      exact ⟨_, frames, foldlM_callOperator frames l.op _, hframes, Or.inl ⟨hcall, rfl, rfl⟩⟩

/-- **Behind a chain with calls the cursor stands in the tree that it makes.**  The frames wait
for the right operand of the link `l`, whose own term has just been read. -/
theorem foldlM_terms (rest : List Link) : ∀ {l : Link} {s : Spine} {frames : List Frame},
    Terms precedence rest → Halves precedence frames →
    Behind l.IsCall s l.tree frames (rest.flatMap Link.tokens) →
    ∃ next right more, (rest.flatMap Link.tokens).foldlM step s = .ok next ∧
      rightOperands (l :: rest) = (l, right) :: more ∧
      next.tree = nested (fold right.frame frames) more := by
  induction rest with
  | nil => exact fun _ _ hbehind => ⟨_, _, [], rfl, rfl, hbehind.tree_eq⟩
  | cons m rest ih =>
      intro l s frames hterms hframes hbehind
      obtain ⟨⟨rfl, hplain, hreads⟩, hrest⟩ := List.forall_mem_cons.mp hterms
      rw [List.flatMap_cons] at hbehind ⊢
      obtain ⟨left, below, hread, hbelow, hcases⟩ := hbehind.foldlM_link hframes hplain
      have hhalf : Halves m.op.precedence (⟨m.op.symbol, .operator m.op, [left]⟩ :: below) :=
        List.forall_mem_cons.mpr ⟨⟨m.op, left, rfl, rfl⟩, hbelow⟩
      have htree : m.tree = treeOf m.operand := by
        rw [Link.tree, hplain]
        rfl
      obtain ⟨s', hoperand, hbehind'⟩ := hreads (⟨m.op.symbol, .operator m.op, [left]⟩ :: below)
        rfl (rest.flatMap Link.tokens)
      rw [← htree] at hbehind'
      obtain ⟨next, right, more, hnext, hright, hsame⟩ := ih hrest hhalf hbehind'
      have hfold : ∀ u : Tree, fold u.frame (⟨m.op.symbol, .operator m.op, [left]⟩ :: below) =
          fold (m.apply left u).frame below := by
        intro u
        rw [fold, Tree.tree_frame]
        rfl
      rw [hread, hoperand, rightOperands, hright]
      rw [hfold] at hsame
      rcases hcases with ⟨hcall, rfl, rfl⟩ | ⟨hcall, rfl, rfl⟩
      · exact ⟨next, _, more, hnext, if_pos hcall, hsame⟩
      · refine ⟨next, l.tree, (m, right) :: more, hnext, if_neg hcall, ?_⟩
        rw [hsame, fold, Tree.tree_frame]
        rfl

end Spine

/-! ### The expression -/

variable {links : List Link}

/-- The terms of a chain that is an expression are read as terms. -/
theorem readsTerm_of_chain {first : List String} {e : Expression}
    (he : Expression.ofTokens (chain first links) = .ok e) (hfirst : IsTerm first)
    (hlinks : ∀ l ∈ links, IsTerm l.operand) :
    Spine.ReadsTerm first ∧ ∀ l ∈ links, Spine.ReadsTerm l.operand := by
  obtain ⟨s, hs, -⟩ := Expression.exists_spine he
  have hfit : AllFit ([] ++ (first ++ links.flatMap Link.tokens)) := allFit_of_ok hs
  refine ⟨hfirst.reads hfit, fun l hl => ?_⟩
  obtain ⟨left, right, rfl⟩ := List.append_of_mem hl
  have hpart : chain first (left ++ l :: right) =
      (first ++ left.flatMap Link.tokens ++ l.op.symbol :: if l.negated then ["-"] else []) ++
        (l.operand ++ right.flatMap Link.tokens) := by
    simp [chain, Link.tokens]
  rw [List.nil_append, ← chain, hpart] at hfit
  exact (hlinks l hl).reads hfit

/-- **Operators of one precedence group from left to right, except that a call keeps the
operator behind it.**  In a chain that is an expression every term is one by itself.  The tree
of the chain is made of their trees, and it is nested to the left exactly if no term between the
first and the last is a call. -/
theorem tree_chain_calls {precedence : Nat} {first : List String} {e : Expression}
    (hfirst : IsTerm first)
    (hlinks : ∀ l ∈ links, l.op.precedence = precedence ∧ l.negated = false ∧ IsTerm l.operand)
    (he : Expression.ofTokens (chain first links) = .ok e) :
    (∀ term ∈ first :: links.map Link.operand, ∃ a, Expression.ofTokens term = .ok a) ∧
    e.tree = groupedAtCalls (treeOf first) links ∧
    (e.tree = leftNested (treeOf first) links ↔ ∀ l ∈ links.dropLast, ¬l.IsCall) := by
  obtain ⟨hreads, hlinksReads⟩ := readsTerm_of_chain he hfirst fun l hl => (hlinks l hl).2.2
  have hterms : Spine.Terms precedence links :=
    fun l hl => ⟨(hlinks l hl).1, (hlinks l hl).2.1, hlinksReads l hl⟩
  have htree : e.tree = groupedAtCalls (treeOf first) links := by
    obtain ⟨s, hs, hsame⟩ := Expression.exists_spine he
    obtain ⟨t, hread, hbehind⟩ := hreads [] trivial (links.flatMap Link.tokens)
    -- The first term is read like that of a link whose operator does not matter.
    obtain ⟨next, right, more, hnext, hright, hnested⟩ :=
      Spine.foldlM_terms links (l := ⟨.plus, false, first⟩) hterms (by simp [Spine.Halves]) hbehind
    have hboth : Spine.ofTokens (chain first links) = .ok next := hread.trans hnext
    obtain rfl : s = next := Except.ok.inj (hs.symm.trans hboth)
    rw [hsame, hnested, Spine.fold, Tree.tree_frame]
    exact nested_rightOperands hright
  refine ⟨?_, htree, ?_⟩
  · intro term hterm
    rcases List.mem_cons.mp hterm with rfl | hmem
    · exact hreads.exists_expression
    · obtain ⟨l, hl, rfl⟩ := List.mem_map.mp hmem
      exact (hlinksReads l hl).exists_expression
  · rw [htree, groupedAtCalls_eq_leftNested_iff]

/-- In `1 * sin(2) / mean(3, (4)) / 5 * cos(6)` the first call keeps the second, and that keeps
the division by `5`. -/
theorem tree_chain_calls_products :
    let links : List Link := [⟨.times, false, ["sin", "(", "2", ")"]⟩,
      ⟨.divide, false, ["mean", "(", "3", ",", "(", "4", ")", ")"]⟩, ⟨.divide, false, ["5"]⟩,
      ⟨.times, false, ["cos", "(", "6", ")"]⟩]
    IsTerm ["1"] ∧ (∀ l ∈ links, l.op.precedence = 2 ∧ l.negated = false ∧ IsTerm l.operand) ∧
      ∃ e, Expression.ofTokens (chain ["1"] links) = .ok e ∧
        e.tree = groupedAtCalls (treeOf ["1"]) links ∧ e.tree ≠ leftNested (treeOf ["1"]) links := by
  intro links
  have hfirst : IsTerm ["1"] := .operand (.number (by decide))
  have hlinks : ∀ l ∈ links, l.op.precedence = 2 ∧ l.negated = false ∧ IsTerm l.operand := by
    have hsin : IsTerm ("sin" :: "(" :: ([","].intercalate [["2"]] ++ [")"])) :=
      .call (by decide) (by decide) (by decide)
    have hmean : IsTerm ("mean" :: "(" ::
        ([","].intercalate [["3"], ["(", "4", ")"]] ++ [")"])) :=
      .call (by decide) (by decide) (by decide)
    have hfive : IsTerm ["5"] := .operand (.number (by decide))
    have hcos : IsTerm ("cos" :: "(" :: ([","].intercalate [["6"]] ++ [")"])) :=
      .call (by decide) (by decide) (by decide)
    intro l hl
    simp only [links, List.mem_cons, List.not_mem_nil, or_false] at hl
    rcases hl with rfl | rfl | rfl | rfl
    · exact ⟨rfl, rfl, hsin⟩
    · exact ⟨rfl, rfl, hmean⟩
    · exact ⟨rfl, rfl, hfive⟩
    · exact ⟨rfl, rfl, hcos⟩
  obtain ⟨e, he⟩ : ∃ e, Expression.ofTokens (chain ["1"] links) = .ok e := ⟨_, rfl⟩
  obtain ⟨-, htree, hiff⟩ := tree_chain_calls hfirst hlinks he
  refine ⟨hfirst, hlinks, e, he, htree, fun hleft => ?_⟩
  exact hiff.mp hleft ⟨.times, false, ["sin", "(", "2", ")"]⟩ (by simp [links]) (by decide)

/-- **Not every chain with calls groups from left to right**: in `10 - cos(0) - 3` the call keeps
the second difference. -/
theorem chain_calls_not_leftNested :
    ∃ (first : List String) (links : List Link) (e : Expression), 2 ≤ links.length ∧
      IsTerm first ∧ (∀ l ∈ links, l.op.precedence = 1 ∧ l.negated = false ∧ IsTerm l.operand) ∧
      Expression.ofTokens (chain first links) = .ok e ∧
      e.tree ≠ leftNested (treeOf first) links := by
  have hcos : IsTerm ("cos" :: "(" :: ([","].intercalate [["0"]] ++ [")"])) :=
    .call (by decide) (by decide) (by decide)
  have hthree : IsTerm ["3"] := .operand (.number (by decide))
  obtain ⟨e, he, hread⟩ : ∃ e, Expression.ofTokens
      (chain ["10"] [⟨.minus, false, ["cos", "(", "0", ")"]⟩, ⟨.minus, false, ["3"]⟩]) = .ok e ∧
        e.tree.children.map Tree.value = ["10", "-"] := ⟨_, rfl, rfl⟩
  have hnested : (leftNested (treeOf ["10"]) [⟨.minus, false, ["cos", "(", "0", ")"]⟩,
      ⟨.minus, false, ["3"]⟩]).children.map Tree.value = ["-", "3"] := rfl
  refine ⟨["10"], [⟨.minus, false, ["cos", "(", "0", ")"]⟩, ⟨.minus, false, ["3"]⟩], e, by decide,
    .operand (.number (by decide)), ?_, he, fun hleft => ?_⟩
  · intro l hl
    simp only [List.mem_cons, List.not_mem_nil, or_false] at hl
    rcases hl with rfl | rfl
    · exact ⟨rfl, rfl, hcos⟩
    · exact ⟨rfl, rfl, hthree⟩
  · rw [hleft, hnested] at hread
    exact absurd hread (by decide)

end Calculator
