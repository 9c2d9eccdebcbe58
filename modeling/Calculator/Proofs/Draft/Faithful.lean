/-
Which tokens an expression was read from.

A `)` and a `,` make no node where a group is open, and a group that was opened around
everything looks like one that was written.  Yet the tokens can be told from the arena, as
long as every product is written and no comma comes last.

Take the first place where two lists of tokens differ, and the draft of the tokens before it.
Whatever comes later, the two arenas are different:

* if both tokens make a node, it keeps the text of its token;
* an operator is for good the parent of its left operand, and behind a `)` or a `,` the same
  node is left below the group, hanging from what it hung from before;
* behind a `)` the group never gets another child, and behind a `,` it gets one;
* if one list ends there, the other one makes a node more, or closes a group that is open.
-/
import Calculator.Proofs.Draft.Growth
import Calculator.Proofs.Draft.Open
import Calculator.Proofs.Draft.Products

namespace Calculator

/-- Every product is written with its symbol, and no comma comes last. -/
structure Explicit (tokens : List String) : Prop where
  products : tokens.IsChain fun a b => juxtaposed a b = false
  comma : tokens.getLast? ≠ some ","

instance (tokens : List String) : Decidable (Explicit tokens) :=
  decidable_of_iff _ ⟨fun h => ⟨h.1, h.2⟩, fun h => And.intro h.products h.comma⟩

/-- Two tokens that the same node may stem from are the same, unless one of them is a pair of
parentheses and the other one a `(` that was closed. -/
theorem Node.StemsFrom.token_eq {n : Node} {token token' : String} {kind kind' : Kind}
    (h : n.StemsFrom token kind) (h' : n.StemsFrom token' kind')
    (hkind : Kind.of? token = some kind) (hkind' : Kind.of? token' = some kind')
    (hpair : kind = .openGroup → kind' ≠ .closedGroup)
    (hpair' : kind' = .openGroup → kind ≠ .closedGroup) : token = token' := by
  have hgroup : ∀ k, n.kind.isGroup = true → n.kind = k → k = .openGroup ∨ k = .closedGroup := by
    rintro k hgroup rfl
    cases hk : n.kind <;> simp_all [Kind.isGroup]
  by_cases hopen : kind = .openGroup
  · by_cases hopen' : kind' = .openGroup
    · rw [hopen] at hkind
      rw [hopen'] at hkind'
      rw [Kind.eq_of_spelling hkind rfl, Kind.eq_of_spelling hkind' rfl]
    · rw [hopen] at h
      rcases hgroup kind' h.isGroup (h'.of_not_open hopen').2 with hk | hk
      · exact absurd hk hopen'
      · exact absurd hk (hpair hopen)
  · by_cases hopen' : kind' = .openGroup
    · rw [hopen'] at h'
      rcases hgroup kind h'.isGroup (h.of_not_open hopen).2 with hk | hk
      · exact absurd hk hopen
      · exact absurd hk (hpair' hopen')
    · rw [← (h.of_not_open hopen).1, ← (h'.of_not_open hopen').1]

namespace Draft

variable {d next : Draft} {s : Spine} {x : Nat} {tokens : List String}

/-! ### The node of the cursor -/

namespace Shows

theorem children_pushAbove_cursor (h : d.Shows s) (hx : x ∈ d.arena.lineage d.cursor)
    (value : String) (kind : Kind) :
    ((d.arena.pushAbove x value kind).node d.cursor).children = d.current.children := by
  obtain ⟨⟨t, ht⟩, -⟩ := h.of_mem_lineage hx
  have hparent : ¬(d.arena.node x).parent = some d.cursor := fun hhangs =>
    not_mem_tail h (h.tail_subset hx (ht.parent_mem hhangs))
  rw [ht.node_pushAbove, if_neg (Nat.ne_of_lt h.cursor_lt)]
  by_cases hsame : d.cursor = x
  · rw [if_pos hsame]
    rfl
  · rw [if_neg hsame, if_neg hparent]
    rfl

/-- A walk to a group leaves the cursor behind, unless it is on that group. -/
theorem left_by_enclose (h : d.Shows s) (hclosed : d.current.kind ≠ .openGroup) :
    d.enclose.Beside d.cursor ∧
      (d.enclose.arena.node d.cursor).children = d.current.children := by
  rcases h.enclose_cases with ⟨group, hgroup, hopen, heq⟩ | ⟨-, root, hroot, -, -, heq⟩
  · obtain ⟨⟨t, ht⟩, -⟩ := h.of_mem_lineage hgroup
    have hlineage : d.arena.lineage group = group :: _ := ht.lineage_eq
    have hne : d.cursor ≠ group := by
      intro hsame
      rw [← hsame] at hopen
      exact hclosed hopen
    rw [heq]
    refine ⟨⟨h.cursor_lt, fun hmem => not_mem_tail h (h.tail_subset hgroup ?_)⟩, rfl⟩
    rw [hlineage] at hmem ⊢
    exact (List.mem_cons.mp hmem).resolve_left hne
  · rw [heq]
    exact ⟨h.beside_pushAbove hroot "(" .openGroup,
      h.children_pushAbove_cursor hroot "(" .openGroup⟩

/-- **A complete operand is left behind** by whatever token comes next, with its children. -/
theorem left_behind (h : d.Shows s) {token : String} {kind : Kind} {placement : Placement}
    (hplace : Placement.of? d.current.kind kind = some placement)
    (hoperand : d.current.kind.isOperand = true) :
    (d.place token kind placement).Beside d.cursor ∧
      ((d.place token kind placement).arena.node d.cursor).children = d.current.children := by
  have hclosed := Spine.not_open_of_isOperand hoperand
  cases placement with
  | rightOf op =>
      exact ⟨h.beside_pushAbove (h.leftOperand_mem op) token (.operator op),
        h.children_pushAbove_cursor (h.leftOperand_mem op) token (.operator op)⟩
  | below =>
      rw [(Placement.kinds_of_below hplace).1] at hoperand
      cases hoperand
  | factor =>
      have hself := d.arena.mem_lineage_self d.cursor
      have hbeside : d.implied.Beside d.cursor := h.beside_pushAbove hself _ _
      have hspares := hbeside.hang h.implied token kind
      exact ⟨hspares.beside, (congrArg Node.children hspares.node_eq).trans
        (h.children_pushAbove_cursor hself _ _)⟩
  | close =>
      obtain ⟨hbeside, hchildren⟩ := h.left_by_enclose hclosed
      have hspares := hbeside.closed h.enclose
      exact ⟨hspares.beside, (congrArg Node.children hspares.node_eq).trans hchildren⟩
  | separate => exact h.left_by_enclose hclosed

/-- A complete operand never gets another child. -/
theorem children_of_operand (h : d.Shows s) (hoperand : d.current.kind.isOperand = true)
    (hrun : tokens.foldlM Draft.step d = .ok next) :
    (next.arena.node d.cursor).children = d.current.children := by
  cases tokens with
  | nil =>
      obtain rfl : d = next := Except.ok.inj hrun
      rfl
  | cons token rest =>
      obtain ⟨middle, hstep, hrest⟩ := foldlM_cons_eq_ok hrun
      obtain ⟨t, -, hshows⟩ := h.step hstep
      obtain ⟨kind, placement, -, hplace, rfl⟩ := step_eq_ok_iff.mp hstep
      obtain ⟨hbeside, hchildren⟩ := h.left_behind hplace hoperand
      exact (congrArg Node.children (hbeside.foldlM hshows hrest).node_eq).trans hchildren

/-- An open group under the cursor gets a child with the next token. -/
theorem children_of_open (h : d.Shows s) (hopen : d.current.kind = .openGroup)
    (hne : tokens ≠ []) (hrun : tokens.foldlM Draft.step d = .ok next) :
    d.current.children.length < (next.arena.node d.cursor).children.length := by
  obtain ⟨token, rest, rfl⟩ := List.exists_cons_of_ne_nil hne
  obtain ⟨middle, hstep, hrest⟩ := foldlM_cons_eq_ok hrun
  obtain ⟨t, -, hshows⟩ := h.step hstep
  obtain ⟨kind, placement, -, hplace, rfl⟩ := step_eq_ok_iff.mp hstep
  rw [hopen] at hplace
  obtain rfl : placement = .below := Placement.eq_below hplace rfl
  have hlt : d.cursor < (d.hang token kind).arena.size := by
    show d.cursor < (d.arena.pushBelow d.cursor token kind).size
    rw [Arena.size_pushBelow]
    exact Nat.lt_succ_of_lt h.cursor_lt
  have hchildren : ((d.hang token kind).arena.node d.cursor).children =
      d.current.children ++ [d.arena.size] := by
    show ((d.arena.pushBelow d.cursor token kind).node d.cursor).children = _
    rw [Arena.node_pushBelow h.cursor_lt, if_neg (Nat.ne_of_lt h.cursor_lt), if_pos rfl]
    rfl
  have hle := ((hshows.evolves_foldlM hrest).node d.cursor hlt).length_le
  rw [show (d.place token kind .below) = d.hang token kind from rfl, hchildren,
    List.length_append] at hle
  exact hle

/-- The left operand of an operator is below every open group. -/
theorem leftOperand_not_mem (h : d.Shows s) (hoperand : d.current.kind.isOperand = true)
    (op : Operator) {group : Nat} (hgroup : group ∈ d.arena.lineage d.cursor)
    (hopen : (d.arena.node group).kind = .openGroup) :
    d.leftOperand op ∉ d.arena.lineage group := by
  have hx := h.leftOperand_mem op
  have hclosed : s.current.kind ≠ .openGroup := by
    rw [← h.current_eq.2]
    exact Spine.not_open_of_isOperand hoperand
  have hopens : ((s.leftOperand op).operate op.symbol op).opens = s.opens := by
    rw [Spine.opens_operate (Spine.leftOperand_not_open s op hclosed),
      (Spine.rises_leftOperand s op hclosed).opens_eq]
  have hsame : (d.operate (d.leftOperand op) op.symbol op).openPath = d.openPath :=
    h.openPath_operate hx (h.leftOperand op) hopens
  have hpath : (d.operate (d.leftOperand op) op.symbol op).openPath = _ :=
    h.openPath_pushAbove hx op.symbol (.operator op)
  have hmem : group ∈ d.openPath := List.mem_filter.mpr ⟨hgroup, decide_eq_true hopen⟩
  rw [← hsame, hpath, if_neg nofun, List.nil_append] at hmem
  have habove : group ∈ (d.arena.lineage (d.leftOperand op)).tail := (List.mem_filter.mp hmem).1
  obtain ⟨⟨t, ht⟩, -⟩ := h.of_mem_lineage hgroup
  exact fun hbelow => not_mem_tail ht (tail_subset ht hbelow habove)

end Shows

/-! ### One token and those behind it -/

/-- The draft reads a token, and behind it the rest.  The token is no factor of a product that
is implied, and if it is a comma, then not the last token. -/
structure ReadsOn (d : Draft) (token : String) (rest : List String) (kind : Kind)
    (placement : Placement) (next : Draft) : Prop where
  kind_eq : Kind.of? token = some kind
  place_eq : Placement.of? d.current.kind kind = some placement
  run : rest.foldlM step (d.place token kind placement) = .ok next
  written : placement ≠ .factor
  goes_on : token = "," → rest ≠ []

namespace ReadsOn

variable {token token' : String} {rest rest' : List String} {kind kind' : Kind}
  {placement placement' : Placement} {next' : Draft}

/-- The token makes a node. -/
theorem made (r : d.ReadsOn token rest kind placement next) (h : d.Shows s)
    (hmakes : placement = .below ∨ ∃ op, placement = .rightOf op) :
    d.arena.size < next.arena.size ∧ (next.arena.node d.arena.size).StemsFrom token kind := by
  have hnew : (d.place token kind placement).arena.size = d.arena.size + 1 ∧
      ((d.place token kind placement).arena.node d.arena.size).value = token ∧
      ((d.place token kind placement).arena.node d.arena.size).kind = kind := by
    rcases hmakes with rfl | ⟨op, rfl⟩
    · exact ⟨Arena.size_pushBelow .., (Arena.value_pushBelow ..).trans (if_pos rfl),
        (Arena.kind_pushBelow ..).trans (if_pos rfl)⟩
    · obtain ⟨-, rfl⟩ := Placement.of?_eq_rightOf r.place_eq
      exact ⟨Arena.size_pushAbove .., (Arena.value_pushAbove ..).trans (if_pos rfl),
        (Arena.kind_pushAbove ..).trans (if_pos rfl)⟩
  obtain ⟨hsize, hvalue, hkind⟩ := hnew
  have hevolves := (h.place token kind placement).evolves_foldlM r.run
  have hlt : d.arena.size < (d.place token kind placement).arena.size := by omega
  refine ⟨Nat.lt_of_lt_of_le hlt hevolves.size_le, ?_⟩
  have htext := (hevolves.node d.arena.size hlt).text
  rwa [hvalue, hkind] at htext

theorem enclose_evolves (r : d.ReadsOn token rest kind placement next) (h : d.Shows s)
    (hends : placement = .close ∨ placement = .separate) : d.enclose.Evolves next := by
  have hrun := (h.place token kind placement).evolves_foldlM r.run
  rcases hends with rfl | rfl
  · exact (evolves_closed h.kind_enclose).trans hrun
  · exact hrun

/-- What a `)` or a `,` leaves below the group stays as it is. -/
theorem enclose_spares (r : d.ReadsOn token rest kind placement next) (h : d.Shows s)
    (hends : placement = .close ∨ placement = .separate) (hbeside : d.enclose.Beside x) :
    next.arena.node x = d.enclose.arena.node x := by
  rcases hends with rfl | rfl
  · have hspares := hbeside.closed h.enclose
    exact (hspares.beside.foldlM h.close r.run).node_eq.trans hspares.node_eq
  · exact (hbeside.foldlM h.enclose r.run).node_eq

/-- Behind a `)` the group has the children it has when it is closed. -/
theorem children_closed (r : d.ReadsOn token rest kind .close next) (h : d.Shows s) :
    (next.arena.node d.enclose.cursor).children = d.enclose.current.children := by
  have hkind : d.close.current.kind = .closedGroup := h.close.current_eq.2
  have hchildren := h.close.children_of_operand (by rw [hkind]; rfl) r.run
  exact hchildren.trans (Arena.children_close ..)

/-- Behind a `,` it gets one child more. -/
theorem children_separated (r : d.ReadsOn token rest kind .separate next) (h : d.Shows s) :
    d.enclose.current.children.length <
      (next.arena.node d.enclose.cursor).children.length := by
  obtain ⟨-, rfl⟩ := Placement.of?_eq_separate r.place_eq
  have hcomma : token = "," := Kind.eq_of_spelling r.kind_eq rfl
  exact h.enclose.children_of_open h.kind_enclose (r.goes_on hcomma) r.run

/-! ### What is read on is different -/

/-- **Reading on changes the arena.** -/
theorem arena_ne_stop (r : d.ReadsOn token rest kind placement next) (h : d.Shows s) :
    d.arena ≠ next.arena := by
  intro hsame
  have hends : (placement = .close ∨ placement = .separate) → d.enclose.arena = d.arena := by
    intro hends
    rcases h.enclose_cases with ⟨group, -, -, heq⟩ | ⟨-, root, -, -, -, heq⟩
    · rw [heq]
    · have hle := (r.enclose_evolves h hends).size_le
      rw [heq, ← hsame, Arena.size_pushAbove] at hle
      omega
  cases placement with
  | rightOf op =>
      have hlt := (r.made h (Or.inr ⟨op, rfl⟩)).1
      rw [hsame] at hlt
      exact Nat.lt_irrefl _ hlt
  | below =>
      have hlt := (r.made h (Or.inl rfl)).1
      rw [hsame] at hlt
      exact Nat.lt_irrefl _ hlt
  | factor => exact r.written rfl
  | close =>
      have hopen : (next.arena.node d.enclose.cursor).kind = .openGroup := by
        rw [← hsame, ← hends (Or.inl rfl)]
        exact h.kind_enclose
      have hclosed : d.close.current.kind = .closedGroup := h.close.current_eq.2
      have hnode := (h.close.evolves_foldlM r.run).node d.close.cursor h.close.cursor_lt
      have hkind : (next.arena.node d.enclose.cursor).kind = d.close.current.kind := by
        refine (hnode.text.of_not_open ?_).2
        show d.close.current.kind ≠ .openGroup
        rw [hclosed]
        exact nofun
      rw [hkind, hclosed] at hopen
      cases hopen
  | separate =>
      have hlt := r.children_separated h
      rw [← hsame, ← hends (Or.inr rfl)] at hlt
      exact Nat.lt_irrefl _ hlt

/-- An operator takes from below the group what a `)` or a `,` leaves there. -/
theorem arena_ne_of_operator {op : Operator}
    (r : d.ReadsOn token rest kind (.rightOf op) next)
    (r' : d.ReadsOn token' rest' kind' placement' next') (h : d.Shows s)
    (hends : placement' = .close ∨ placement' = .separate) : next.arena ≠ next'.arena := by
  intro hsame
  obtain ⟨hoperand, rfl⟩ := Placement.of?_eq_rightOf r.place_eq
  rcases h.enclose_cases with ⟨group, hgroup, hopen, heq⟩ | ⟨-, root, -, -, -, heq⟩
  · have hx := h.leftOperand_mem op
    obtain ⟨⟨t, ht⟩, -⟩ := h.of_mem_lineage hx
    have htaken : (next.arena.node (d.leftOperand op)).parent = some d.arena.size := by
      have hshows : (d.operate (d.leftOperand op) token op).Shows _ := ht.operate d.cursor token op
      have hbeside : (d.operate (d.leftOperand op) token op).Beside (d.leftOperand op) :=
        ht.beside_pushAbove (d.arena.mem_lineage_self _) token (.operator op)
      rw [(hbeside.foldlM hshows r.run).node_eq]
      exact ht.parent_pushAbove_self token (.operator op)
    have hleft : next'.arena.node (d.leftOperand op) = d.arena.node (d.leftOperand op) := by
      have hbeside : d.enclose.Beside (d.leftOperand op) := by
        rw [heq]
        exact ⟨ht.cursor_lt, h.leftOperand_not_mem hoperand op hgroup hopen⟩
      rw [r'.enclose_spares h hends hbeside, heq]
    rw [hsame, hleft] at htaken
    exact Nat.lt_irrefl _ (h.rooted.1.parent_lt (d.leftOperand op) _ htaken)
  · -- Where no group is open, the one side makes an operator and the other one a group.
    have hoperator := (r.made h (Or.inr ⟨op, rfl⟩)).2.of_not_open nofun
    have hevolves := r'.enclose_evolves h hends
    rw [heq] at hevolves
    have hgroup := (hevolves.node d.arena.size (by
      show d.arena.size < (d.arena.pushAbove root "(" .openGroup).size
      rw [Arena.size_pushAbove]
      exact Nat.lt_succ_self _)).text
    rw [Arena.kind_pushAbove, if_pos rfl] at hgroup
    have hkind := hgroup.isGroup
    rw [← hsame, hoperator.2] at hkind
    cases hkind

theorem arena_ne_of_separate (r : d.ReadsOn token rest kind .close next)
    (r' : d.ReadsOn token' rest' kind' .separate next') (h : d.Shows s) :
    next.arena ≠ next'.arena := by
  intro hsame
  have hlt := r'.children_separated h
  rw [← hsame, r.children_closed h] at hlt
  exact Nat.lt_irrefl _ hlt

/-- **Different tokens are different for good**, whatever comes behind them. -/
theorem token_eq (r : d.ReadsOn token rest kind placement next)
    (r' : d.ReadsOn token' rest' kind' placement' next') (h : d.Shows s)
    (hsame : next.arena = next'.arena) : token = token' := by
  have hmake : ∀ {token rest kind placement next}, d.ReadsOn token rest kind placement next →
      (placement = .below ∨ ∃ op, placement = .rightOf op) → kind ≠ .closedGroup := by
    intro token rest kind placement next r hmakes
    rcases hmakes with rfl | ⟨op, rfl⟩
    · exact (Placement.kinds_of_below r.place_eq).2.2.2
    · rw [(Placement.of?_eq_rightOf r.place_eq).2]
      exact nofun
  have hboth : (placement = .below ∨ ∃ op, placement = .rightOf op) →
      (placement' = .below ∨ ∃ op, placement' = .rightOf op) → token = token' := by
    intro hmakes hmakes'
    have htext := (r.made h hmakes).2
    rw [hsame] at htext
    exact htext.token_eq (r'.made h hmakes').2 r.kind_eq r'.kind_eq
      (fun _ => hmake r' hmakes') (fun _ => hmake r hmakes)
  cases placement with
  | factor => exact absurd rfl r.written
  | below =>
      have hawaits := (Placement.kinds_of_below r.place_eq).1
      obtain rfl : placement' = .below := Placement.eq_below r'.place_eq hawaits
      exact hboth (Or.inl rfl) (Or.inl rfl)
  | rightOf op =>
      cases placement' with
      | factor => exact absurd rfl r'.written
      | below => exact hboth (Or.inr ⟨op, rfl⟩) (Or.inl rfl)
      | rightOf op' => exact hboth (Or.inr ⟨op, rfl⟩) (Or.inr ⟨op', rfl⟩)
      | close => exact absurd hsame (r.arena_ne_of_operator r' h (Or.inl rfl))
      | separate => exact absurd hsame (r.arena_ne_of_operator r' h (Or.inr rfl))
  | close =>
      obtain ⟨hoperand, rfl⟩ := Placement.of?_eq_close r.place_eq
      cases placement' with
      | factor => exact absurd rfl r'.written
      | below =>
          rw [(Placement.kinds_of_below r'.place_eq).1] at hoperand
          cases hoperand
      | rightOf op => exact absurd hsame.symm (r'.arena_ne_of_operator r h (Or.inl rfl))
      | close =>
          obtain ⟨-, rfl⟩ := Placement.of?_eq_close r'.place_eq
          rw [Kind.eq_of_spelling r.kind_eq rfl, Kind.eq_of_spelling r'.kind_eq rfl]
      | separate => exact absurd hsame (r.arena_ne_of_separate r' h)
  | separate =>
      obtain ⟨hoperand, rfl⟩ := Placement.of?_eq_separate r.place_eq
      cases placement' with
      | factor => exact absurd rfl r'.written
      | below =>
          rw [(Placement.kinds_of_below r'.place_eq).1] at hoperand
          cases hoperand
      | rightOf op => exact absurd hsame.symm (r'.arena_ne_of_operator r h (Or.inr rfl))
      | close => exact absurd hsame.symm (r'.arena_ne_of_separate r h)
      | separate =>
          obtain ⟨-, rfl⟩ := Placement.of?_eq_separate r'.place_eq
          rw [Kind.eq_of_spelling r.kind_eq rfl, Kind.eq_of_spelling r'.kind_eq rfl]

end ReadsOn

/-! ### All tokens -/

/-- The next of some explicit tokens is read on. -/
theorem exists_readsOn {token : String} {rest : List String} (hne : tokens ≠ [])
    (hexplicit : Explicit (tokens ++ token :: rest))
    (h : ofTokens (tokens ++ token :: rest) = .ok next) :
    ∃ d kind placement, ofTokens tokens = .ok d ∧ d.ReadsOn token rest kind placement next := by
  obtain ⟨d, hd, hrun⟩ := ofTokens_append_eq_ok hne h
  obtain ⟨s, hs, hshows⟩ := exists_spine hd
  obtain ⟨middle, hstep, hrest⟩ := foldlM_cons_eq_ok hrun
  obtain ⟨kind, placement, hkind, hplace, rfl⟩ := step_eq_ok_iff.mp hstep
  refine ⟨d, kind, placement, hd, hkind, hplace, hrest, ?_, ?_⟩
  · obtain ⟨last, hlast, hiff⟩ := (Spine.reflects_ofTokens hs).juxtaposed_iff hkind
      (hshows.current_eq.2 ▸ hplace)
    have hpair := (List.isChain_append.mp hexplicit.products).2.2 last hlast token rfl
    intro hfactor
    rw [hiff.mpr hfactor] at hpair
    cases hpair
  · rintro rfl rfl
    exact hexplicit.comma (List.getLast?_concat ..)

/-- The first token is a node of its own, and the others are read behind it. -/
theorem exists_single {token : String} {rest : List String}
    (h : ofTokens (token :: rest) = .ok next) :
    ∃ kind s, Kind.of? token = some kind ∧ (single token kind).Shows s ∧
      rest.foldlM step (single token kind) = .ok next := by
  have hstart : ofTokens [token] = start token := by
    show (start token >>= fun d => pure d) = start token
    rw [bind_pure]
  obtain ⟨d, hd, hrun⟩ := ofTokens_append_eq_ok (List.cons_ne_nil token []) h
  obtain ⟨s, -, hshows⟩ := exists_spine hd
  obtain ⟨kind, hkind, rfl⟩ := start_eq_ok_iff.mp (hstart ▸ hd)
  exact ⟨kind, s, hkind, hshows, hrun⟩

/-- A pair of parentheses that is one token never has a child, and a `(` has one before it is
closed. -/
theorem first_ne_pair {token token' : String} {rest rest' : List String} {d e : Draft}
    (hd : ofTokens (token :: rest) = .ok d) (he : ofTokens (token' :: rest') = .ok e)
    (hsame : d.arena = e.arena) (hopen : Kind.of? token = some .openGroup) :
    Kind.of? token' ≠ some .closedGroup := by
  intro hclosed
  obtain ⟨kind, s, hkind, hshows, hrun⟩ := exists_single hd
  obtain ⟨kind', s', hkind', hshows', hrun'⟩ := exists_single he
  obtain rfl := Option.some.inj (hopen.symm.trans hkind)
  obtain rfl := Option.some.inj (hclosed.symm.trans hkind')
  have hnone : (e.arena.node 0).children = [] := hshows'.children_of_operand rfl hrun'
  have htext := ((hshows'.evolves_foldlM hrun').node 0 Nat.zero_lt_one).text.of_not_open nofun
  rw [← hsame] at hnone htext
  by_cases hrest : rest = []
  · subst hrest
    obtain rfl : single token .openGroup = d := Except.ok.inj hrun
    cases htext.2
  · have hlt : 0 < (d.arena.node 0).children.length :=
      hshows.children_of_open rfl hrest hrun
    rw [hnone] at hlt
    exact Nat.lt_irrefl _ hlt

/-- The first token is known from the first node. -/
theorem first_eq {token token' : String} {rest rest' : List String} {d e : Draft}
    (hd : ofTokens (token :: rest) = .ok d) (he : ofTokens (token' :: rest') = .ok e)
    (hsame : d.arena = e.arena) : token = token' := by
  obtain ⟨kind, s, hkind, hshows, hrun⟩ := exists_single hd
  obtain ⟨kind', s', hkind', hshows', hrun'⟩ := exists_single he
  have htext := ((hshows.evolves_foldlM hrun).node 0 Nat.zero_lt_one).text
  have htext' := ((hshows'.evolves_foldlM hrun').node 0 Nat.zero_lt_one).text
  rw [hsame] at htext
  refine Node.StemsFrom.token_eq htext htext' hkind hkind' ?_ ?_
  · rintro rfl rfl
    exact first_ne_pair hd he hsame hkind hkind'
  · rintro rfl rfl
    exact first_ne_pair he hd hsame.symm hkind' hkind

/-- Tokens that go on have another arena than those that stop. -/
theorem arena_ne_append {token : String} {rest : List String} {d : Draft} (hne : tokens ≠ [])
    (hexplicit : Explicit (tokens ++ token :: rest)) (hd : ofTokens tokens = .ok d)
    (h : ofTokens (tokens ++ token :: rest) = .ok next) : d.arena ≠ next.arena := by
  obtain ⟨b, kind, placement, hb, r⟩ := exists_readsOn hne hexplicit h
  obtain ⟨s, -, hshows⟩ := exists_spine hb
  obtain rfl : b = d := Except.ok.inj (hb.symm.trans hd)
  exact r.arena_ne_stop hshows

/-- What is read behind the same tokens to the same arena is the same. -/
theorem rest_eq {ts us : List String} {d e : Draft} (hne : tokens ≠ [])
    (hts : Explicit (tokens ++ ts)) (hus : Explicit (tokens ++ us))
    (hd : ofTokens (tokens ++ ts) = .ok d) (he : ofTokens (tokens ++ us) = .ok e)
    (hsame : d.arena = e.arena) : ts = us := by
  induction ts generalizing tokens us with
  | nil =>
      cases us with
      | nil => rfl
      | cons u us =>
          rw [List.append_nil] at hd
          exact absurd hsame (arena_ne_append hne hus hd he)
  | cons t ts ih =>
      cases us with
      | nil =>
          rw [List.append_nil] at he
          exact absurd hsame.symm (arena_ne_append hne hts he hd)
      | cons u us =>
          obtain ⟨b, kind, placement, hb, r⟩ := exists_readsOn hne hts hd
          obtain ⟨b', kind', placement', hb', r'⟩ := exists_readsOn hne hus he
          obtain rfl : b = b' := Except.ok.inj (hb.symm.trans hb')
          obtain ⟨s, -, hshows⟩ := exists_spine hb
          obtain rfl : t = u := r.token_eq r' hshows hsame
          rw [List.append_cons] at hts hus hd he
          rw [ih (by simp) hts hus hd he]

end Draft

/-- **Explicit tokens can be told from the expression.**  Two lists of them are the same
expression, node by node, only if they are the same list. -/
theorem ofTokens_eq_iff {ts us : List String} {e f : Expression} (hts : Explicit ts)
    (hus : Explicit us) (he : Expression.ofTokens ts = .ok e)
    (hf : Expression.ofTokens us = .ok f) : e = f ↔ ts = us := by
  refine ⟨?_, ?_⟩
  · rintro rfl
    obtain ⟨d, hd, hfinish⟩ := Expression.ofTokens_eq_ok_iff.mp he
    obtain ⟨d', hd', hfinish'⟩ := Expression.ofTokens_eq_ok_iff.mp hf
    have hsame : d.arena = d'.arena := congrArg Expression.arena (hfinish.symm.trans hfinish')
    cases ts with
    | nil => cases hd
    | cons t ts =>
        cases us with
        | nil => cases hd'
        | cons u us =>
            obtain rfl := Draft.first_eq hd hd' hsame
            rw [Draft.rest_eq (List.cons_ne_nil t []) hts hus hd hd' hsame]
  · rintro rfl
    exact Except.ok.inj (he.symm.trans hf)

/-- In `(1+2)` the group was made first, and in `1+2)` last. -/
theorem ofTokens_group_around_sum :
    ∃ e f, Expression.ofTokens ["(", "1", "+", "2", ")"] = .ok e ∧
      Expression.ofTokens ["1", "+", "2", ")"] = .ok f ∧ e ≠ f := by
  obtain ⟨e, he⟩ : ∃ e, Expression.ofTokens ["(", "1", "+", "2", ")"] = .ok e := ⟨_, rfl⟩
  obtain ⟨f, hf⟩ : ∃ f, Expression.ofTokens ["1", "+", "2", ")"] = .ok f := ⟨_, rfl⟩
  have hiff := ofTokens_eq_iff (by decide) (by decide) he hf
  exact ⟨e, f, he, hf, mt hiff.mp (by decide)⟩

/-! An implied product is its written form, and a comma at the end is not seen. -/

example : Expression.ofTokens ["2", "(", "3"] = Expression.ofTokens ["2", "*", "(", "3"] := by
  rfl

example : Expression.ofTokens ["(", "1", ","] = Expression.ofTokens ["(", "1"] := by
  rfl

end Calculator
