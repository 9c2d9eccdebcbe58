/-
When a product may be left unwritten.

`2(3)` is `2*(3)`, node by node.  A written `*` climbs to its left operand, though, and a
product that is implied stays where it is: it takes the number or the group that was just
read.  The two are the same as long as there is nothing to climb, that is, under a group
or a sum.  Under anything that binds more tightly, and under a function, the written one
leaves the node behind, and the implied one keeps it.

From then on the node is beside the lineage in both drafts.  Nothing that comes later
changes its parent, so the expressions are never the same again.
-/
import Calculator.Proofs.Chain.Operands
import Calculator.Proofs.Draft.Steps
import Calculator.Proofs.Text.Kept

namespace Calculator

/-! ### With the symbol the tokens fit as well -/

/-- A token counts for the same at any two places but the first. -/
theorem effectiveKind?_congr {i j : Nat} (hi : 1 ≤ i) (hj : 1 ≤ j) (token : String) :
    effectiveKind? i token = effectiveKind? j token := by
  simp only [effectiveKind?, hi, hj, true_and]

/-- An operator can be put between two tokens if it may follow the first one and be followed by
the second. -/
theorem AllFit.insert {before after : List String} {token symbol : String} {op : Operator}
    {counted kind : Kind} (h : AllFit (before ++ token :: after))
    (hsymbol : Kind.of? symbol = some (.operator op)) (hkind : Kind.of? token = some kind)
    (hlast : ∃ last, before[before.length - 1]? = some last ∧
      effectiveKind? (before.length - 1) last = some counted)
    (hleft : counted.mayPrecede (.operator op) = true)
    (hright : (Kind.operator op).mayPrecede kind = true) :
    AllFit (before ++ symbol :: token :: after) := by
  obtain ⟨last, hlast, hcounted⟩ := hlast
  have hpos : 1 ≤ before.length := by
    by_contra hzero
    rw [List.length_eq_zero_iff.mp (by omega : before.length = 0)] at hlast
    cases hlast
  -- Behind the place everything has moved by one.
  have hshift : ∀ k, (before ++ symbol :: token :: after)[before.length + 1 + k]? =
      (before ++ token :: after)[before.length + k]? := by
    intro k
    rw [List.getElem?_append_right (by omega), List.getElem?_append_right (by omega),
      show before.length + 1 + k - before.length = k + 1 by omega,
      show before.length + k - before.length = k by omega, List.getElem?_cons_succ]
  have hplace : (before ++ symbol :: token :: after)[before.length]? = some symbol := by simp
  intro i hi
  rcases Nat.lt_trichotomy i before.length with hlt | rfl | hgt
  · have hfits : Fits (before ++ token :: after) i := by
      refine h i ?_
      rw [List.length_append]
      omega
    rw [Spine.fits_append hlt] at hfits ⊢
    exact hfits
  · refine ⟨symbol, .operator op, hplace, hsymbol, fun _ => ⟨last, counted, ?_, hcounted, hleft⟩⟩
    rw [List.getElem?_append_left (by omega), hlast]
  · obtain ⟨k, rfl⟩ := Nat.exists_eq_add_of_le (Nat.succ_le_of_lt hgt)
    rw [Nat.succ_eq_add_one] at hi ⊢
    cases k with
    | zero =>
        refine ⟨token, kind, ?_, hkind, fun _ => ⟨symbol, .operator op, ?_, ?_, hright⟩⟩
        · rw [hshift]
          simp
        · rw [Nat.add_zero, Nat.add_sub_cancel, hplace]
        · rw [Nat.add_zero, Nat.add_sub_cancel]
          exact (effectiveKind?_of_ne hsymbol Kind.noConfusion Kind.noConfusion).1
    | succ k =>
        have hold : before.length + (k + 1) < (before ++ token :: after).length := by
          simp only [List.length_append, List.length_cons] at hi ⊢
          omega
        obtain ⟨next, k', hnext, hk', hbefore⟩ := h _ hold
        refine ⟨next, k', by rw [hshift, hnext], hk', fun _ => ?_⟩
        obtain ⟨previous, counted', hprevious, heffective, hmay⟩ := hbefore (by omega)
        refine ⟨previous, counted', ?_, ?_, hmay⟩
        · rw [show before.length + 1 + (k + 1) - 1 = before.length + 1 + k by omega, hshift,
            ← hprevious, show before.length + (k + 1) - 1 = before.length + k by omega]
        · rw [← heffective]
          exact effectiveKind?_congr (by omega) (by omega) previous

/-! ### What a number hangs from -/

namespace Spine

/-- A number hangs from a node that waits for an operand, or from none. -/
theorem awaits_of_number {tokens : List String} {s : Spine} (h : ofTokens tokens = .ok s)
    (hnumber : s.current.kind = .number) : ∀ g ∈ s.above.head?, g.kind.awaits = true := by
  refine ofTokens_induction (P := fun _ s => s.current.kind = .number →
    ∀ g ∈ s.above.head?, g.kind.awaits = true) ?_ ?_ tokens s h hnumber
  · intro token kind _ _ g hg
    cases hg
  · intro tokens s token kind placement _ _ _ hplace hnumber
    cases placement with
    | rightOf op => cases hnumber
    | below =>
        obtain rfl : kind = .number := hnumber
        rcases Placement.of?_eq_below hplace with ⟨hawaits, -⟩ | ⟨-, hopen⟩
        · intro g hg
          obtain rfl := Option.some.inj hg
          exact hawaits
        · cases hopen
    | factor =>
        obtain rfl : kind = .number := hnumber
        rcases Placement.of?_eq_factor hplace with ⟨-, hk | hk⟩ | ⟨-, hk⟩ <;> cases hk
    | close => cases hnumber
    | separate =>
        have hopen : s.enclose.current.kind = .number := hnumber
        rw [kind_enclose s] at hopen
        cases hopen

end Spine

namespace Draft

variable {d : Draft} {s : Spine} {a : Arena} {x parent : Nat}

theorem Shows.kind_parent (h : d.Shows s) (hparent : d.current.parent = some parent) :
    ∃ g ∈ s.above.head?, (d.arena.node parent).kind = g.kind := by
  obtain ⟨f, above, hlaid, rfl⟩ := h
  rw [hlaid.current_eq] at hparent
  obtain ⟨g, hg, rfl⟩ := Option.map_eq_some_iff.mp hparent
  cases above with
  | nil => cases hg
  | cons g' above =>
      obtain rfl := Option.some.inj hg
      exact ⟨g'.erase, rfl, hlaid.kind_above⟩

/-- An operand hangs from a group, from an operator, or from a function, and then it is a group
itself. -/
theorem kind_parent_cases {tokens : List String} (hs : Spine.ofTokens tokens = .ok s)
    (h : d.Shows s) (hoperand : s.current.kind.isOperand = true)
    (hparent : d.current.parent = some parent) :
    (d.arena.node parent).kind = .openGroup ∨
      (∃ op, (d.arena.node parent).kind = .operator op) ∨
      ((d.arena.node parent).kind = .word ∧ d.current.kind = .closedGroup) := by
  obtain ⟨g, hg, hkind⟩ := h.kind_parent hparent
  rw [hkind, h.current_eq.2]
  have hpending := (Spine.proper_ofTokens hs).above g (List.mem_of_mem_head? hg)
  rcases hpending.kind_cases with hop | hopen | hword
  · exact Or.inr (Or.inl hop)
  · exact Or.inl hopen
  · refine Or.inr (Or.inr ⟨hword, ?_⟩)
    cases hk : s.current.kind with
    | closedGroup => rfl
    | number =>
        have hawaits := Spine.awaits_of_number hs hk g hg
        rw [hword] at hawaits
        cases hawaits
    | operator | openGroup | closer | word | comma =>
        rw [hk] at hoperand
        cases hoperand

/-! ### How far a written product climbs -/

namespace Shows

/-- An operator does not climb past a node that binds less tightly. -/
theorem operandEndingIn_eq_self (h : Shows ⟨a, x⟩ s) {precedence : Nat}
    (hloose : ∀ parent, a.HangsFrom x parent → (a.node parent).kind.precedence < precedence) :
    a.operandEndingIn precedence x = x := by
  rw [Arena.operandEndingIn, h.lineage_eq]
  cases hparent : (a.node x).parent with
  | none => rfl
  | some parent =>
      obtain ⟨⟨t, ht⟩, -⟩ := h.of_mem_lineage (List.mem_of_mem_tail (h.parent_mem hparent))
      have hlineage : a.lineage parent = parent :: _ := ht.lineage_eq
      have hstop : ¬precedence ≤ (a.node parent).kind.precedence :=
        Nat.not_le.mpr (hloose parent hparent)
      simp [hlineage, hstop]

/-- It does climb past one that binds as tightly. -/
theorem operandEndingIn_mem_of_parent (h : Shows ⟨a, x⟩ s) {precedence : Nat}
    (hparent : a.HangsFrom x parent) (htight : precedence ≤ (a.node parent).kind.precedence) :
    a.operandEndingIn precedence x ∈ a.lineage parent := by
  obtain ⟨⟨t, ht⟩, -⟩ := h.of_mem_lineage (List.mem_of_mem_tail (h.parent_mem hparent))
  have hlineage : a.lineage parent = parent :: _ := ht.lineage_eq
  rw [Arena.operandEndingIn, h.lineage_of_parent hparent, List.tail_cons, hlineage,
    List.takeWhile_cons, if_pos (by simpa using htight), List.getLastD_cons]
  exact (List.takeWhile_sublist _).cons_cons parent |>.subset List.getLastD_mem_cons

theorem leftOperand_eq_cursor (h : d.Shows s) {op : Operator}
    (hloose : ∀ parent, d.current.parent = some parent →
      (d.arena.node parent).kind.precedence < op.precedence ∧
        (d.arena.node parent).kind ≠ .word) :
    d.leftOperand op = d.cursor := by
  have hstay : d.arena.operandEndingIn op.precedence d.cursor = d.cursor :=
    operandEndingIn_eq_self h fun parent hparent => (hloose parent hparent).1
  rw [Draft.leftOperand, hstay, Arena.wholeCall]
  split
  · rename_i parent _ hparent
    rw [if_neg (hloose parent hparent).2]
  · rfl

/-- Under something that binds as tightly, or as the argument list of a call, the cursor is not
the left operand. -/
theorem leftOperand_mem_tail (h : d.Shows s) {op : Operator}
    (hparent : d.current.parent = some parent)
    (htight : op.precedence ≤ (d.arena.node parent).kind.precedence ∨
      ((d.arena.node parent).kind = .word ∧ d.current.kind = .closedGroup)) :
    d.leftOperand op ∈ (d.arena.lineage d.cursor).tail := by
  have hhangs : d.arena.HangsFrom d.cursor parent := hparent
  have htail : (d.arena.lineage d.cursor).tail = d.arena.lineage parent := by
    rw [lineage_of_parent h hhangs, List.tail_cons]
  obtain ⟨⟨t, ht⟩, -⟩ := h.of_mem_lineage (List.mem_of_mem_tail (parent_mem h hhangs))
  rw [htail]
  rcases htight with htight | ⟨hword, hclosed⟩
  · have hclimb : d.arena.operandEndingIn op.precedence d.cursor ∈ d.arena.lineage parent :=
      operandEndingIn_mem_of_parent h hhangs htight
    obtain ⟨⟨u, hu⟩, hsuffix⟩ := ht.of_mem_lineage hclimb
    exact hsuffix.subset hu.wholeCall_mem
  · have hstay : d.arena.operandEndingIn op.precedence d.cursor = d.cursor := by
      refine operandEndingIn_eq_self h fun parent' hparent' => ?_
      obtain rfl : parent = parent' := Option.some.inj (hhangs.symm.trans hparent')
      rw [hword]
      exact op.precedence_pos
    have hcall : d.leftOperand op = parent := by
      have hkind : (d.arena.node d.cursor).kind = .closedGroup := hclosed
      rw [Draft.leftOperand, hstay, Arena.wholeCall, hkind, hhangs]
      exact if_pos hword
    rw [hcall]
    exact d.arena.mem_lineage_self parent

/-! ### The node that is left behind -/

/-- Whatever node of its lineage an operator is put above, the cursor is left beside the new
lineage. -/
theorem beside_pushAbove (h : d.Shows s) (hx : x ∈ d.arena.lineage d.cursor) (value : String)
    (kind : Kind) : Beside ⟨d.arena.pushAbove x value kind, d.arena.size⟩ d.cursor := by
  obtain ⟨⟨t, ht⟩, -⟩ := h.of_mem_lineage hx
  refine ⟨?_, ?_⟩
  · rw [Arena.size_pushAbove]
    exact Nat.lt_succ_of_lt h.cursor_lt
  · rw [ht.lineage_pushAbove, List.mem_cons, not_or]
    exact ⟨Nat.ne_of_lt h.cursor_lt, fun hmem => not_mem_tail h (h.tail_subset hx hmem)⟩

/-- Put above the cursor, the operator is its parent. -/
theorem parent_pushAbove_self (h : d.Shows s) (value : String) (kind : Kind) :
    ((d.arena.pushAbove d.cursor value kind).node d.cursor).parent = some d.arena.size := by
  rw [node_pushAbove h, if_neg (Nat.ne_of_lt h.cursor_lt), if_pos rfl]

/-- Put above a node further up, it leaves the cursor as it is. -/
theorem node_pushAbove_of_mem_tail (h : d.Shows s) (hx : x ∈ (d.arena.lineage d.cursor).tail)
    (value : String) (kind : Kind) :
    (d.arena.pushAbove x value kind).node d.cursor = d.arena.node d.cursor := by
  obtain ⟨⟨t, ht⟩, -⟩ := h.of_mem_lineage (List.mem_of_mem_tail hx)
  have hne : d.cursor ≠ x := by
    intro hsame
    rw [← hsame] at hx
    exact not_mem_tail h hx
  have hparent : ¬(d.arena.node x).parent = some d.cursor := fun hhangs =>
    not_mem_tail h (h.tail_subset (List.mem_of_mem_tail hx) (ht.parent_mem hhangs))
  rw [ht.node_pushAbove, if_neg (Nat.ne_of_lt h.cursor_lt), if_neg hne, if_neg hparent]

/-- **Once left behind, left behind for good**: whatever comes later, the node of the cursor has
the implied product as its parent, and under the written one it keeps the parent it had. -/
theorem arena_ne (h : d.Shows s) (hparent : d.current.parent = some parent)
    (hx : x ∈ (d.arena.lineage d.cursor).tail) {token symbol : String} {kind : Kind}
    {op : Operator} {after : List String} {kept left : Draft}
    (hkept : after.foldlM Draft.step ((d.operate d.cursor symbol op).hang token kind) = .ok kept)
    (hleft : after.foldlM Draft.step ((d.operate x symbol op).hang token kind) = .ok left) :
    kept.arena ≠ left.arena := by
  -- Both drafts hang the token from the operator, and go on from there.
  have hspared : ∀ operand ∈ d.arena.lineage d.cursor, ∀ next,
      after.foldlM Draft.step ((d.operate operand symbol op).hang token kind) = .ok next →
      next.arena.node d.cursor =
        (d.arena.pushAbove operand symbol (.operator op)).node d.cursor := by
    intro operand hoperand next hrun
    obtain ⟨⟨t, ht⟩, -⟩ := h.of_mem_lineage hoperand
    have hshows : (d.operate operand symbol op).Shows _ := ht.operate d.cursor symbol op
    have hbeside : (d.operate operand symbol op).Beside d.cursor :=
      h.beside_pushAbove hoperand symbol (.operator op)
    have hhang := hbeside.hang hshows token kind
    exact (hhang.trans (hhang.beside.foldlM (hshows.hang token kind) hrun)).node_eq
  have hnew : (kept.arena.node d.cursor).parent = some d.arena.size := by
    rw [hspared d.cursor (d.arena.mem_lineage_self d.cursor) kept hkept]
    exact h.parent_pushAbove_self symbol (.operator op)
  have hold : (left.arena.node d.cursor).parent = some parent := by
    rw [hspared x (List.mem_of_mem_tail hx) left hleft,
      h.node_pushAbove_of_mem_tail hx symbol (.operator op)]
    exact hparent
  have hlt : parent < d.arena.size := h.rooted.1.parent_lt d.cursor parent hparent
  intro hsame
  rw [hsame, hold] at hnew
  exact absurd (Option.some.inj hnew) (Nat.ne_of_lt hlt)

end Shows

end Draft

/-! ### Implied and written -/

/-- The table of placements for the symbol and for the factor behind it, where without the symbol
the factor would be multiplied. -/
theorem placement_written {previous incoming : Kind}
    (h : Placement.of? previous incoming = some .factor) :
    Placement.of? previous (.operator .times) = some (.rightOf .times) ∧
      Placement.of? (.operator .times) incoming = some .below := by
  rcases Placement.of?_eq_factor h with ⟨rfl, rfl | rfl⟩ | ⟨rfl, rfl⟩ <;> exact ⟨rfl, rfl⟩

namespace Draft

variable {d : Draft} {token : String} {kind : Kind}

/-- With the symbol written, the token hangs from an operator above the left operand. -/
theorem foldlM_written {s : Spine} (hshows : d.Shows s) (hkind : Kind.of? token = some kind)
    (hplace : Placement.of? d.current.kind kind = some .factor) {after : List String}
    {next : Draft} (h : ("*" :: token :: after).foldlM step d = .ok next) :
    after.foldlM step ((d.operate (d.leftOperand .times) "*" .times).hang token kind) =
      .ok next := by
  obtain ⟨hsymbol, hfactor⟩ := placement_written hplace
  obtain ⟨product, hproduct, hrun⟩ := foldlM_cons_eq_ok h
  obtain ⟨kind₁, placement₁, hkind₁, hplace₁, rfl⟩ := step_eq_ok_iff.mp hproduct
  obtain rfl : .operator .times = kind₁ :=
    Option.some.inj ((Kind.of?_symbol .times).symm.trans hkind₁)
  obtain rfl : .rightOf .times = placement₁ := Option.some.inj (hsymbol.symm.trans hplace₁)
  obtain ⟨factor, hstep, hrest⟩ := foldlM_cons_eq_ok hrun
  obtain ⟨kind₂, placement₂, hkind₂, hplace₂, rfl⟩ := step_eq_ok_iff.mp hstep
  obtain rfl : kind = kind₂ := Option.some.inj (hkind.symm.trans hkind₂)
  have hcurrent : (d.place "*" (.operator .times) (.rightOf .times)).current.kind =
      .operator .times := (hshows.place "*" (.operator .times) (.rightOf .times)).current_eq.2
  rw [hcurrent] at hplace₂
  obtain rfl : .below = placement₂ := Option.some.inj (hfactor.symm.trans hplace₂)
  exact hrest

/-- The product that is implied and the one that is written are the same where the written one
finds no more than the cursor as its left operand. -/
theorem finish_eq_iff {before after : List String} {s : Spine}
    (hs : Spine.ofTokens before = .ok s) (h : d.Shows s)
    (hoperand : s.current.kind.isOperand = true) {kept left : Draft}
    (hkept : after.foldlM step ((d.operate d.cursor "*" .times).hang token kind) = .ok kept)
    (hleft : after.foldlM step ((d.operate (d.leftOperand .times) "*" .times).hang token kind) =
      .ok left) :
    kept.finish = left.finish ↔ ∀ parent, d.current.parent = some parent →
      (d.arena.node parent).kind ∈
        [.openGroup, .closedGroup, .operator .plus, .operator .minus] := by
  refine ⟨fun hsame parent hparent => ?_, fun hloose => ?_⟩
  · by_contra htight
    refine h.arena_ne hparent (h.leftOperand_mem_tail hparent ?_) hkept hleft
      (congrArg Expression.arena hsame)
    rcases kind_parent_cases hs h hoperand hparent with hk | ⟨op, hk⟩ | hword
    · exact absurd (by rw [hk]; decide) htight
    · rw [hk] at htight ⊢
      cases op <;> first | exact Or.inl (by decide) | exact absurd (by decide) htight
    · exact Or.inr hword
  · have hstay : d.leftOperand .times = d.cursor := by
      refine h.leftOperand_eq_cursor fun parent hparent => ?_
      have hmem := hloose parent hparent
      simp only [List.mem_cons, List.not_mem_nil, or_false] at hmem
      rcases hmem with hk | hk | hk | hk <;> rw [hk] <;> decide
    rw [hstay] at hleft
    rw [Except.ok.inj (hkept.symm.trans hleft)]

end Draft

/-- The tokens are an expression with the symbol as well. -/
theorem exists_written {before after : List String} {token : String} {kind : Kind} {s t : Spine}
    (h : Spine.ofTokens (before ++ token :: after) = .ok t) (hs : Spine.ofTokens before = .ok s)
    (hkind : Kind.of? token = some kind)
    (hplace : Placement.of? s.current.kind kind = some .factor) :
    ∃ written, Expression.ofTokens (before ++ "*" :: token :: after) = .ok written := by
  obtain ⟨last, hlast, hcounted, -⟩ := Spine.reflects_ofTokens hs
  obtain ⟨hsymbol, hfactor⟩ := placement_written hplace
  have hfit : AllFit (before ++ "*" :: token :: after) := by
    refine (allFit_of_ok h).insert (Kind.of?_symbol .times) hkind ⟨last, hlast, hcounted⟩ ?_ ?_
    · rw [← placement_isSome, hsymbol]
      rfl
    · rw [← placement_isSome, hfactor]
      rfl
  obtain ⟨-, u, hu⟩ | ⟨i, hi, hnot, -⟩ := Spine.ofTokens_cases
    (List.append_ne_nil_of_right_ne_nil before (List.cons_ne_nil "*" (token :: after)))
  · obtain ⟨written, hwritten, -⟩ := Expression.ofTokens_of_spine hu
    exact ⟨written, hwritten⟩
  · exact absurd (hfit i hi) hnot

/-- **An implied product is a written one under a group or a sum, and nowhere else.**  The node
under the cursor before the second factor is the first one, a number or a group. -/
theorem ofTokens_eq_written_iff {before after : List String} {token : String} {e : Expression}
    (himplied : ∃ last ∈ before.getLast?, juxtaposed last token = true)
    (he : Expression.ofTokens (before ++ token :: after) = .ok e) :
    ∃ d written, Draft.ofTokens before = .ok d ∧
      d.current.kind ∈ [.number, .closedGroup] ∧
      Expression.ofTokens (before ++ "*" :: token :: after) = .ok written ∧
      (e = written ↔ ∀ parent, d.current.parent = some parent → (d.arena.node parent).kind ∈
        [.openGroup, .closedGroup, .operator .plus, .operator .minus]) ∧
      ∀ parent, d.current.parent = some parent → (d.arena.node parent).kind ∈
        [.operator .times, .operator .divide, .operator .power, .word] → e ≠ written := by
  have hne : before ≠ [] := by
    rintro rfl
    obtain ⟨last, hlast, -⟩ := himplied
    cases hlast
  obtain ⟨t, ht, -⟩ := Expression.exists_spine he
  obtain ⟨kept, hkept, rfl⟩ := Expression.ofTokens_eq_ok_iff.mp he
  obtain ⟨d, hd, hrun⟩ := Draft.ofTokens_append_eq_ok hne hkept
  obtain ⟨s, hs, hshows⟩ := Draft.exists_spine hd
  obtain ⟨middle, hstep, hrest⟩ := Draft.foldlM_cons_eq_ok hrun
  obtain ⟨kind, placement, hkind, hplace, rfl⟩ := Draft.step_eq_ok_iff.mp hstep
  have hsame := hshows.current_eq.2
  obtain rfl : placement = .factor := by
    obtain ⟨last, hlast, hiff⟩ := (Spine.reflects_ofTokens hs).juxtaposed_iff hkind (hsame ▸ hplace)
    obtain ⟨last', hlast', himplied⟩ := himplied
    obtain rfl : last = last' := Option.some.inj (hlast.symm.trans hlast')
    exact hiff.mp himplied
  have hoperand : s.current.kind.isOperand = true :=
    (Placement.kinds_of_factor (hsame ▸ hplace)).1
  obtain ⟨written, hwritten⟩ := exists_written ht hs hkind (hsame ▸ hplace)
  obtain ⟨left, hleft, rfl⟩ := Expression.ofTokens_eq_ok_iff.mp hwritten
  obtain ⟨d', hd', hrun'⟩ := Draft.ofTokens_append_eq_ok hne hleft
  obtain rfl : d = d' := Except.ok.inj (hd.symm.trans hd')
  have hrest' := Draft.foldlM_written hshows hkind hplace hrun'
  have hiff := Draft.finish_eq_iff hs hshows hoperand hrest hrest'
  refine ⟨d, left.finish, hd, ?_, hwritten, hiff, ?_⟩
  · rw [hsame]
    cases hk : s.current.kind <;> rw [hk] at hoperand <;> first | decide | cases hoperand
  · intro parent hparent htight hsame
    have hloose := hiff.mp hsame parent hparent
    generalize (d.arena.node parent).kind = k at htight hloose
    simp only [List.mem_cons, List.not_mem_nil, or_false] at htight hloose
    rcases htight with rfl | rfl | rfl | rfl <;> simp at hloose

/-- In `2^3sin(0)` the product that is implied stands below the `^`, and the written one would
stand above it; in `2-3sin(0)` there is no difference. -/
theorem ofTokens_power_implied :
    (∃ e written, Expression.ofTokens ["2", "^", "3", "sin", "(", "0"] = .ok e ∧
      Expression.ofTokens ["2", "^", "3", "*", "sin", "(", "0"] = .ok written ∧ e ≠ written) ∧
    ∃ e, Expression.ofTokens ["2", "-", "3", "sin", "(", "0"] = .ok e ∧
      Expression.ofTokens ["2", "-", "3", "*", "sin", "(", "0"] = .ok e := by
  have himplied : juxtaposed "3" "sin" = true := by decide
  refine ⟨?_, ?_⟩
  · obtain ⟨e, he⟩ : ∃ e, Expression.ofTokens ["2", "^", "3", "sin", "(", "0"] = .ok e := ⟨_, rfl⟩
    obtain ⟨d, written, hd, -, hwritten, -, htight⟩ :=
      @ofTokens_eq_written_iff ["2", "^", "3"] ["(", "0"] "sin" e ⟨"3", rfl, himplied⟩ he
    obtain rfl := Except.ok.inj hd
    exact ⟨e, written, he, hwritten, htight 1 rfl (by decide)⟩
  · obtain ⟨e, he⟩ : ∃ e, Expression.ofTokens ["2", "-", "3", "sin", "(", "0"] = .ok e := ⟨_, rfl⟩
    obtain ⟨d, written, hd, -, hwritten, hiff, -⟩ :=
      @ofTokens_eq_written_iff ["2", "-", "3"] ["(", "0"] "sin" e ⟨"3", rfl, himplied⟩ he
    obtain rfl := Except.ok.inj hd
    have hsame : e = written := by
      refine hiff.mpr fun parent hparent => ?_
      obtain rfl : 1 = parent := Option.some.inj hparent
      decide
    exact ⟨e, he, hsame ▸ hwritten⟩

end Calculator
