/-
The arity of every node.

An arena accounts for its tokens if it has a node for each of their origins, in the order
in which they are made, and each of these nodes is what its origin says and has as many
children as the tokens say.  Reading keeps this.  A token that hangs from the cursor is
one child more for it, and for no other node.  An operator or a group that is put in the
place of another node takes that node as its child and leaves all others with as many
children as they had.

What hangs from a function is its argument list, unless an implied product has taken the
place of it.  That happens where a word comes behind the `)` of the list, and it cannot be
undone; an operator that is written takes the whole call instead.
-/
import Calculator.Proofs.Arity.Origins
import Calculator.Proofs.Draft.Open

namespace Calculator

/-! ### What is asked of an arena -/

/-- The node hangs from the function at the place: it is the group that was opened behind it, or
an operator in the place of the group. -/
def IsArgument (tokens : List String) (a : Arena) (place child : Nat) : Prop :=
  if WordBehind tokens (place + 1) then ∃ op, (a.node child).kind = .operator op
  else (origins tokens)[child]? = some (.token (place + 1)) ∧ tokens[place + 1]? = some "("

/-- The nodes of the arena are those of the tokens. -/
structure Accounts (tokens : List String) (a : Arena) : Prop where
  size_eq : a.size = (origins tokens).length
  describes : ∀ id (origin : Origin), (origins tokens)[id]? = some origin →
    origin.Describes tokens (a.node id)
  argument : ∀ id place child, (origins tokens)[id]? = some (.token place) →
    (a.node id).kind = .word → a.HangsFrom child id → IsArgument tokens a place child

/-- The draft knows which node the last token belongs to and which tokens opened its groups. -/
structure Draft.Accounted (tokens : List String) (d : Draft) : Prop
    extends Accounts tokens d.arena where
  cursor : ∀ before last, tokens = before ++ [last] →
    (origins tokens)[d.cursor]? = some (.token (placeOf before last))
  opened : Continuable tokens → List.Forall₂ (fun id place => (origins tokens)[id]? =
    some (.token place)) d.openPath (openPlaces tokens)

/-! ### The nodes of the last token -/

section Last

variable {tokens : List String} {token : String} {kind : Kind} {node : Node}

theorem names_last (hkind : Kind.of? token = some kind) (hcloser : kind ≠ .closer)
    (hcomma : kind ≠ .comma) (hvalue : node.value = token) (hnode : node.kind = kind) :
    (Origin.token tokens.length).Names (tokens ++ [token]) node := by
  refine ⟨token, kind, by simp, hkind, ?_⟩
  split
  · rename_i hgroup
    have hopen : kind = .openGroup :=
      hgroup.resolve_right fun hends => hends.1.elim hcloser hcomma
    rw [hopen] at hkind hnode
    exact Or.inl ⟨hnode, hvalue.trans (Kind.eq_of_spelling hkind rfl)⟩
  · exact ⟨hnode, hvalue⟩

/-- An operator has the left operand already, if there is one. -/
theorem arity_last_operator {op : Operator} (hkind : Kind.of? token = some (.operator op)) :
    arity (tokens ++ [token]) (.token tokens.length) = if EndsOperand tokens then 1 else 0 := by
  have htoken : (tokens ++ [token])[tokens.length]? = some token := by simp
  simp only [arity, htoken, Option.bind_some, hkind, Option.elim_some]
  simp [arityAt]

/-- Everything else is a leaf as yet. -/
theorem arity_last_leaf (hkind : Kind.of? token = some kind) (hcloser : kind ≠ .closer)
    (hcomma : kind ≠ .comma) (hoperator : ∀ op, kind ≠ .operator op) :
    arity (tokens ++ [token]) (.token tokens.length) = 0 := by
  have htoken : (tokens ++ [token])[tokens.length]? = some token := by simp
  simp only [arity, htoken, Option.bind_some, hkind, Option.elim_some]
  cases kind with
  | word | openGroup | number | closedGroup => simp [arityAt]
  | operator op => exact absurd rfl (hoperator op)
  | closer => exact absurd rfl hcloser
  | comma => exact absurd rfl hcomma

theorem describes_leaf (hkind : Kind.of? token = some kind) (hcloser : kind ≠ .closer)
    (hcomma : kind ≠ .comma) (hoperator : ∀ op, kind = .operator op → ¬EndsOperand tokens)
    (hvalue : node.value = token) (hnode : node.kind = kind) (hchildren : node.children = []) :
    (Origin.token tokens.length).Describes (tokens ++ [token]) node := by
  refine ⟨names_last hkind hcloser hcomma hvalue hnode, ?_⟩
  rw [hchildren, List.length_nil]
  by_cases hop : ∃ op, kind = .operator op
  · obtain ⟨op, rfl⟩ := hop
    rw [arity_last_operator hkind, if_neg (hoperator op rfl)]
  · rw [arity_last_leaf hkind hcloser hcomma fun op hsame => hop ⟨op, hsame⟩]

theorem describes_operator {op : Operator} (hkind : Kind.of? token = some (.operator op))
    (hends : EndsOperand tokens) (hvalue : node.value = token) (hnode : node.kind = .operator op)
    (hchildren : node.children.length = 1) :
    (Origin.token tokens.length).Describes (tokens ++ [token]) node :=
  ⟨names_last hkind nofun nofun hvalue hnode, by
    rw [hchildren, arity_last_operator hkind, if_pos hends]⟩

/-- A group that is opened around everything has one child, whatever it was opened for. -/
theorem describes_group (hkind : Kind.of? token = some kind)
    (hends : kind = .closer ∨ kind = .comma) (hne : tokens ≠ []) (hvalue : node.value = "(")
    (hnode : node.kind = .openGroup) (hchildren : node.children.length = 1) :
    (Origin.token tokens.length).Describes (tokens ++ [token]) node := by
  have hpos : 0 < tokens.length := List.length_pos_iff.mpr hne
  have htoken : (tokens ++ [token])[tokens.length]? = some token := by simp
  refine ⟨⟨token, kind, htoken, hkind, ?_⟩, ?_⟩
  · rw [if_pos (Or.inr ⟨hends, hpos⟩)]
    exact Or.inl ⟨hnode, hvalue⟩
  · have hcommas : commasIn (tokens ++ [token]) tokens.length = 0 := commasIn_opener tokens
    simp only [arity, htoken, Option.bind_some, hkind, Option.elim_some]
    rcases hends with rfl | rfl
    all_goals rw [hchildren, arityAt, if_neg (Nat.ne_of_gt hpos), hcommas]

end Last

/-! ### The nodes there are already -/

section Old

variable {tokens : List String} {token : String} {origin : Origin} {node next : Node}

theorem Origin.Names.congr (h : origin.Names tokens node) (hvalue : next.value = node.value)
    (hkind : next.kind = node.kind) : origin.Names tokens next := by
  cases origin with
  | product place =>
      rw [Origin.Names, hvalue, hkind]
      exact h
  | token place =>
      obtain ⟨token, kind, htoken, hk, hnode⟩ := h
      refine ⟨token, kind, htoken, hk, ?_⟩
      rw [hvalue, hkind]
      exact hnode

theorem Origin.Names.concat (h : origin.Names tokens node) (token : String) :
    origin.Names (tokens ++ [token]) node := by
  cases origin with
  | product place => exact h
  | token place =>
      obtain ⟨own, kind, hown, hk, hnode⟩ := h
      refine ⟨own, kind, ?_, hk, hnode⟩
      rw [List.getElem?_append_left (List.getElem?_eq_some_iff.mp hown).1, hown]

/-- What is no group has the kind of its token. -/
theorem Origin.Names.kind_eq {place : Nat} (h : (Origin.token place).Names tokens node)
    (hgroup : node.kind.isGroup = false) :
    ∃ own, tokens[place]? = some own ∧ Kind.of? own = some node.kind := by
  obtain ⟨own, kind, hown, hk, hnode⟩ := h
  split at hnode
  · rcases hnode with ⟨hopen, -⟩ | ⟨hclosed, -⟩
    · rw [hopen] at hgroup
      cases hgroup
    · rw [hclosed] at hgroup
      cases hgroup
  · exact ⟨own, hown, hnode.1 ▸ hk⟩

/-- What was made for a `(` is a group. -/
theorem Origin.Names.isGroup {place : Nat} (h : (Origin.token place).Names tokens node)
    (hopener : tokens[place]? = some "(") : node.kind.isGroup = true := by
  obtain ⟨own, kind, hown, hk, hnode⟩ := h
  obtain rfl : "(" = own := Option.some.inj (hopener.symm.trans hown)
  rw [if_pos (Or.inl (Option.some.inj hk).symm)] at hnode
  rcases hnode with ⟨hopen, -⟩ | ⟨hclosed, -⟩
  · rw [hopen]
    rfl
  · rw [hclosed]
    rfl

/-- Only a first token makes a `)` or a `,` a node of its own. -/
theorem Origin.Names.not_continuable (h : origin.Names tokens node)
    (hends : node.kind = .closer ∨ node.kind = .comma) : ¬Continuable tokens := by
  cases origin with
  | product place =>
      rw [h.2] at hends
      simp at hends
  | token place =>
      obtain ⟨own, kind, hown, hk, hnode⟩ := h
      split at hnode
      · rcases hnode with ⟨hk, -⟩ | ⟨hk, -⟩ <;> rw [hk] at hends <;> simp at hends
      · rename_i hfirst
        rw [hnode.1] at hends
        have hzero : place = 0 := by
          by_contra hne
          exact hfirst (Or.inr ⟨hends, Nat.pos_of_ne_zero hne⟩)
        rw [hzero, ← List.head?_eq_getElem?] at hown
        intro hfront
        rcases hends with rfl | rfl
        · exact hfront.closer (hown.trans (congrArg some (Kind.eq_of_spelling hk rfl)))
        · exact hfront.comma (hown.trans (congrArg some (Kind.eq_of_spelling hk rfl)))

/-- Whatever an open group was opened for, it may be closed. -/
theorem Origin.Names.close (h : origin.Names tokens node) (hopen : node.kind = .openGroup)
    (hvalue : next.value = node.value ++ ")") (hkind : next.kind = .closedGroup) :
    origin.Names tokens next := by
  cases origin with
  | product place =>
      obtain ⟨-, hproduct⟩ := h
      rw [hproduct] at hopen
      cases hopen
  | token place =>
      obtain ⟨own, kind, hown, hk, hnode⟩ := h
      refine ⟨own, kind, hown, hk, ?_⟩
      split at hnode
      · rename_i hgroup
        rw [if_pos hgroup]
        rcases hnode with ⟨-, hnode⟩ | ⟨hclosed, -⟩
        · exact Or.inr ⟨hkind, by rw [hvalue, hnode]; rfl⟩
        · rw [hclosed] at hopen
          cases hopen
      · rename_i hgroup
        exact absurd (Or.inl (hnode.1.symm.trans hopen)) hgroup

end Old

/-! ### The nodes after a step -/

/-- The nodes keep their texts and kinds, and get as many children more as is said. -/
structure Arena.Keeps (a next : Arena) (more : Nat → Nat) : Prop where
  value : ∀ id < a.size, (next.node id).value = (a.node id).value
  kind : ∀ id < a.size, (next.node id).kind = (a.node id).kind
  children : ∀ id < a.size,
    (next.node id).children.length = (a.node id).children.length + more id

section Step

variable {before : List String} {last token : String} {a next : Arena} {x cursor id : Nat}
  {d : Draft} {s : Spine}

theorem Draft.Shows.keeps_hang (h : d.Shows s) (value : String) (kind : Kind) :
    d.arena.Keeps (d.hang value kind).arena fun id => if id = d.cursor then 1 else 0 where
  value := by
    intro id hid
    exact (d.arena.value_pushBelow ..).trans (if_neg (Nat.ne_of_lt hid))
  kind := by
    intro id hid
    exact (d.arena.kind_pushBelow ..).trans (if_neg (Nat.ne_of_lt hid))
  children := by
    intro id hid
    show ((d.arena.pushBelow d.cursor value kind).node id).children.length = _
    rw [Arena.node_pushBelow h.cursor_lt, if_neg (Nat.ne_of_lt hid)]
    split <;> simp

theorem Draft.Shows.keeps_pushAbove (h : Shows ⟨a, x⟩ s) (value : String) (kind : Kind) :
    a.Keeps (a.pushAbove x value kind) fun _ => 0 where
  value := by
    intro id hid
    exact (a.value_pushAbove ..).trans (if_neg (Nat.ne_of_lt hid))
  kind := by
    intro id hid
    exact (a.kind_pushAbove ..).trans (if_neg (Nat.ne_of_lt hid))
  children := by
    intro id hid
    rw [h.node_pushAbove, if_neg (Nat.ne_of_lt hid)]
    split <;> [rfl; split <;> simp]

theorem Draft.size_multiply (d : Draft) (value : String) (kind : Kind) :
    (d.multiply value kind).arena.size = d.arena.size + 2 :=
  (Arena.size_pushBelow ..).trans (congrArg Nat.succ d.size_implied)

theorem Draft.cursor_multiply (d : Draft) (value : String) (kind : Kind) :
    (d.multiply value kind).cursor = d.arena.size + 1 :=
  d.size_implied

theorem Draft.Shows.node_product (h : d.Shows s) (value : String) (kind : Kind) :
    (d.multiply value kind).arena.node d.arena.size =
      ⟨Operator.times.symbol, .operator .times, [d.cursor, d.arena.size + 1],
        (d.arena.node d.cursor).parent⟩ := by
  have hproduct : d.implied.arena.node d.arena.size =
      ⟨Operator.times.symbol, .operator .times, [d.cursor], (d.arena.node d.cursor).parent⟩ :=
    (node_pushAbove h ..).trans (if_pos rfl)
  have hne : d.arena.size ≠ d.implied.arena.size := by simp
  have hnode := Arena.node_pushBelow h.implied.cursor_lt value kind d.arena.size
  rw [if_neg hne, d.cursor_implied, if_pos rfl, hproduct, d.size_implied] at hnode
  exact hnode

theorem Draft.Shows.node_factor (h : d.Shows s) (value : String) (kind : Kind) :
    (d.multiply value kind).arena.node (d.arena.size + 1) =
      { value, kind, parent := some d.arena.size } :=
  (Arena.node_pushBelow h.implied.cursor_lt ..).trans (if_pos d.size_implied.symm)

theorem Draft.Shows.keeps_multiply (h : d.Shows s) (value : String) (kind : Kind) :
    d.arena.Keeps (d.multiply value kind).arena fun _ => 0 := by
  have hlift : ∀ id < d.arena.size, id < d.implied.arena.size := by
    intro id hid
    rw [d.size_implied]
    exact Nat.lt_succ_of_lt hid
  have hpush : d.arena.Keeps d.implied.arena _ :=
    keeps_pushAbove h Operator.times.symbol (.operator .times)
  have hhang := h.implied.keeps_hang value kind
  refine ⟨fun id hid => ?_, fun id hid => ?_, fun id hid => ?_⟩
  · exact (hhang.value id (hlift id hid)).trans (hpush.value id hid)
  · exact (hhang.kind id (hlift id hid)).trans (hpush.kind id hid)
  · have hchildren := hhang.children id (hlift id hid)
    rw [hpush.children id hid, d.cursor_implied, if_neg (Nat.ne_of_lt hid)] at hchildren
    exact hchildren

theorem Draft.Shows.hangsFrom_multiply (h : d.Shows s) (value : String) (kind : Kind)
    (child id : Nat) : (d.multiply value kind).arena.HangsFrom child id ↔
      child = d.arena.size + 1 ∧ id = d.arena.size ∨
        child = d.arena.size ∧ d.arena.HangsFrom d.cursor id ∨
        child = d.cursor ∧ id = d.arena.size ∨
        child ≠ d.arena.size ∧ child ≠ d.arena.size + 1 ∧ child ≠ d.cursor ∧
          d.arena.HangsFrom child id := by
  have hlinks : d.implied.arena.HangsFrom child id ↔ _ :=
    hangsFrom_pushAbove h Operator.times.symbol (.operator .times) child id
  have hlt : d.cursor < d.arena.size := h.cursor_lt
  rw [d.multiply_eq, h.implied.hangsFrom_hang, hlinks, d.size_implied, d.cursor_implied]
  by_cases hnew : child = d.arena.size + 1
  · have hcursor : d.arena.size + 1 ≠ d.cursor := by omega
    simp [hnew, hcursor]
  · simp [hnew]

/-- A node that is not new gets a child if the cursor is on it and waits for one. -/
theorem Accounts.describes_old (acc : Accounts (before ++ [last]) a)
    (hfront : Continuable (before ++ [last]))
    (hcursor : (origins (before ++ [last]))[cursor]? = some (.token (placeOf before last)))
    (hkeeps : a.Keeps next fun id => if id = cursor ∧ ¬EndsOperand (before ++ [last]) then 1 else 0)
    {origin : Origin} (horigin : (origins (before ++ [last]))[id]? = some origin)
    (token : String) : origin.Describes (before ++ [last] ++ [token]) (next.node id) := by
  have hold := acc.describes id origin horigin
  have hlt : id < a.size := by
    rw [acc.size_eq]
    exact (List.getElem?_eq_some_iff.mp horigin).1
  refine ⟨(hold.names.congr (hkeeps.value id hlt) (hkeeps.kind id hlt)).concat token, ?_⟩
  have hwaits : id = cursor ↔ origin = .token (placeOf before last) := by
    refine ⟨?_, ?_⟩
    · rintro rfl
      exact Option.some.inj (horigin.symm.trans hcursor)
    · rintro rfl
      exact (List.getElem?_inj (List.getElem?_eq_some_iff.mp horigin).1
        (nodup_origins _)).mp (horigin.trans hcursor.symm)
  rw [hkeeps.children id hlt, hold.arity]
  cases origin with
  | product place =>
      rw [if_neg fun hboth => Origin.noConfusion (hwaits.mp hboth.1)]
      rfl
  | token place =>
      obtain ⟨own, kind, hown, hk, -⟩ := hold.names
      rw [arity_concat hfront hown hk]
      simp only [hwaits, Origin.token.injEq]

/-- **One token more** is accounted for by its new nodes, and by what hangs from the functions. -/
theorem Accounts.concat (acc : Accounts (before ++ [last]) a)
    (hfront : Continuable (before ++ [last]))
    (hcursor : (origins (before ++ [last]))[cursor]? = some (.token (placeOf before last)))
    (hkeeps : a.Keeps next fun id => if id = cursor ∧ ¬EndsOperand (before ++ [last]) then 1 else 0)
    (hsize : next.size = a.size + (madeFor (before ++ [last]) token).length)
    (hnew : ∀ i (origin : Origin), (madeFor (before ++ [last]) token)[i]? = some origin →
      origin.Describes (before ++ [last] ++ [token]) (next.node (a.size + i)))
    (hold : ∀ id place child, (origins (before ++ [last]))[id]? = some (.token place) →
      (a.node id).kind = .word → next.HangsFrom child id →
      IsArgument (before ++ [last] ++ [token]) next place child)
    (hfree : ∀ id child, a.size ≤ id → (next.node id).kind = .word → ¬next.HangsFrom child id) :
    Accounts (before ++ [last] ++ [token]) next where
  size_eq := by
    rw [hsize, acc.size_eq, origins_concat (before ++ [last]), List.length_append]
  describes := by
    intro id origin horigin
    rw [origins_concat] at horigin
    rcases Nat.lt_or_ge id a.size with hlt | hge
    · rw [List.getElem?_append_left (acc.size_eq ▸ hlt)] at horigin
      exact acc.describes_old hfront hcursor hkeeps horigin token
    · rw [List.getElem?_append_right (acc.size_eq ▸ hge), ← acc.size_eq] at horigin
      have hid := hnew _ origin horigin
      rwa [Nat.add_sub_cancel' hge] at hid
  argument := by
    intro id place child horigin hword hhangs
    rw [origins_concat] at horigin
    rcases Nat.lt_or_ge id a.size with hlt | hge
    · rw [List.getElem?_append_left (acc.size_eq ▸ hlt)] at horigin
      exact hold id place child horigin (hkeeps.kind id hlt ▸ hword) hhangs
    · exact absurd hhangs (hfree id child hge hword)

/-- What hung from a function goes on to do so, unless the token comes behind its group. -/
theorem IsArgument.concat {place child : Nat} (h : IsArgument (before ++ [last]) a place child)
    (hsame : (next.node child).kind = (a.node child).kind)
    (hbehind : (origins (before ++ [last]))[child]? = some (.token (place + 1)) →
      last = ")" → (openPlaces before).head? = some (place + 1) → Kind.of? token ≠ some .word) :
    IsArgument (before ++ [last] ++ [token]) next place child := by
  unfold IsArgument at h ⊢
  split at h
  · rename_i hword
    rw [if_pos ((wordBehind_concat ..).mpr (Or.inl hword)), hsame]
    exact h
  · rename_i hword
    obtain ⟨horigin, hopener⟩ := h
    have hnot : ¬WordBehind (before ++ [last] ++ [token]) (place + 1) := by
      rw [wordBehind_concat]
      rintro (hold | ⟨hcloser, hhead, hnext⟩)
      · exact hword hold
      · exact hbehind horigin hcloser hhead hnext
    rw [if_neg hnot, origins_concat,
      List.getElem?_append_left (List.getElem?_eq_some_iff.mp horigin).1,
      List.getElem?_append_left (List.getElem?_eq_some_iff.mp hopener).1]
    exact ⟨horigin, hopener⟩

/-- A group that was opened around everything may be closed. -/
theorem Accounts.close {tokens : List String} (acc : Accounts tokens a)
    (hopen : (a.node cursor).kind = .openGroup) : Accounts tokens (a.close cursor) := by
  have hkind : ∀ id, (a.node id).kind ≠ .openGroup →
      ((a.close cursor).node id).kind = (a.node id).kind := by
    intro id hid
    rw [Arena.kind_close, if_neg]
    rintro ⟨rfl, -⟩
    exact hid hopen
  have hhangs : ∀ child id, (a.close cursor).HangsFrom child id ↔ a.HangsFrom child id := by
    simp [Arena.HangsFrom]
  refine ⟨by rw [Arena.size_close, acc.size_eq], ?_, ?_⟩
  · intro id origin horigin
    have hold := acc.describes id origin horigin
    refine ⟨?_, by rw [Arena.children_close, hold.arity]⟩
    by_cases hgroup : cursor = id ∧ cursor < a.size
    · refine hold.names.close (hgroup.1 ▸ hopen) ?_ ?_
      · rw [Arena.value_close, if_pos hgroup]
      · rw [Arena.kind_close, if_pos hgroup]
    · refine hold.names.congr ?_ ?_
      · rw [Arena.value_close, if_neg hgroup]
      · rw [Arena.kind_close, if_neg hgroup]
  · intro id place child horigin hword hchild
    have hwas : (a.node id).kind = .word := by
      rw [Arena.kind_close] at hword
      split at hword
      · cases hword
      · exact hword
    have hargument := acc.argument id place child horigin hwas ((hhangs child id).mp hchild)
    unfold IsArgument at hargument ⊢
    split at hargument
    · rename_i hbehind
      obtain ⟨op, hop⟩ := hargument
      rw [if_pos hbehind, hkind child (by rw [hop]; exact Kind.noConfusion)]
      exact ⟨op, hop⟩
    · rename_i hbehind
      rw [if_neg hbehind]
      exact hargument

/-- **A node is put in the place of another one**, for a token that is no function. -/
theorem Accounts.pushAbove (acc : Accounts (before ++ [last]) a)
    (hfront : Continuable (before ++ [last]))
    (hcursor : (origins (before ++ [last]))[cursor]? = some (.token (placeOf before last)))
    (h : Draft.Shows ⟨a, x⟩ s) (hends : EndsOperand (before ++ [last]))
    (hmade : madeFor (before ++ [last]) token = [.token (before ++ [last]).length])
    (htoken : Kind.of? token ≠ some .word) {value : String} {kind : Kind} (hkind : kind ≠ .word)
    (hnew : (Origin.token (before ++ [last]).length).Describes (before ++ [last] ++ [token])
      ⟨value, kind, [x], (a.node x).parent⟩)
    (hold : ∀ id place, (origins (before ++ [last]))[id]? = some (.token place) →
      (a.node id).kind = .word → a.HangsFrom x id →
      IsArgument (before ++ [last] ++ [token]) (a.pushAbove x value kind) place a.size) :
    Accounts (before ++ [last] ++ [token]) (a.pushAbove x value kind) := by
  have hsize : (a.pushAbove x value kind).node a.size =
      ⟨value, kind, [x], (a.node x).parent⟩ := by
    rw [h.node_pushAbove, if_pos rfl]
  have hlinked := h.rooted.1
  refine acc.concat hfront hcursor ?_ ?_ ?_ ?_ ?_
  · simpa [hends] using h.keeps_pushAbove value kind
  · rw [hmade]
    exact Arena.size_pushAbove ..
  · intro i origin hi
    rw [hmade, List.getElem?_singleton] at hi
    split at hi
    · rename_i hzero
      obtain rfl := Option.some.inj hi
      rw [hzero, Nat.add_zero, hsize]
      exact hnew
    · cases hi
  · intro id place child horigin hword hchild
    have hlt : id < a.size := by
      rw [acc.size_eq]
      exact (List.getElem?_eq_some_iff.mp horigin).1
    rcases (h.hangsFrom_pushAbove ..).mp hchild with ⟨rfl, hhangs⟩ | ⟨-, rfl⟩ | ⟨hne, -, hhangs⟩
    · exact hold id place horigin hword hhangs
    · exact absurd hlt (Nat.lt_irrefl _)
    · refine (acc.argument id place child horigin hword hhangs).concat ?_ fun _ _ _ => htoken
      exact (a.kind_pushAbove ..).trans (if_neg hne)
  · intro id child hid hword hchild
    rcases (h.hangsFrom_pushAbove ..).mp hchild with ⟨-, hhangs⟩ | ⟨-, rfl⟩ | ⟨-, -, hhangs⟩
    · exact absurd (hlinked.parent_lt x id hhangs) (Nat.not_lt.mpr hid)
    · rw [hsize] at hword
      exact hkind hword
    · exact absurd (hlinked.parent_lt child id hhangs) (Nat.not_lt.mpr hid)

end Step

end Calculator
