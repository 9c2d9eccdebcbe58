/-
Reading keeps the accounts.

There is one lemma for each placement, and they follow one scheme: which nodes are new and
what they are, that no other node changes more than it may, and what happens to a node
that hung from a function.  Only two placements touch the latter.  An operator may be put
in the place of it, but then it is no argument list any more, since an argument list
stands for the whole call; and a factor may, when the list has just been closed.
-/
import Calculator.Proofs.Arity.Nodes

namespace Calculator

/-! ### What the placement tells -/

section Placement

variable {tokens before : List String} {last token : String} {kind : Kind} {s : Spine}
  {placement : Placement}

/-- Where a token can be placed, the first one of all ends nothing. -/
theorem continuable_of_placement (hs : Spine.ofTokens tokens = .ok s)
    (hplace : Placement.of? s.current.kind kind = some placement) : Continuable tokens := by
  refine ⟨fun hfirst => ?_, fun hfirst => ?_⟩
  · rw [Spine.eq_single_of_head hs hfirst rfl (Or.inl rfl)] at hplace
    cases hplace
  · rw [Spine.eq_single_of_head hs hfirst rfl (Or.inr rfl)] at hplace
    cases hplace

theorem endsOperand_iff_of_placement (hs : Spine.ofTokens tokens = .ok s)
    (hplace : Placement.of? s.current.kind kind = some placement) :
    EndsOperand tokens ↔ s.current.kind.isOperand = true := by
  refine Spine.endsOperand_iff hs ?_
  intro hcloser
  rw [hcloser] at hplace
  cases hplace

/-- A token that makes a node of its own and is no factor makes nothing else. -/
theorem madeFor_of_placement (hs : Spine.ofTokens tokens = .ok s)
    (hkind : Kind.of? token = some kind) (hcloser : kind ≠ .closer) (hcomma : kind ≠ .comma)
    (hplace : Placement.of? s.current.kind kind = some placement) :
    madeFor tokens token = (if placement = .factor then [.product tokens.length] else []) ++
      [.token tokens.length] := by
  obtain ⟨last, hlast, hiff⟩ := (Spine.reflects_ofTokens hs).juxtaposed_iff hkind hplace
  have hends : ¬(token = ")" ∨ token = ",") := by
    rintro (rfl | rfl)
    · exact hcloser (Option.some.inj hkind).symm
    · exact hcomma (Option.some.inj hkind).symm
  have hjuxtaposed : (∃ last ∈ tokens.getLast?, juxtaposed last token = true) ↔
      placement = .factor := by
    simp [hlast, hiff]
  rw [madeFor, if_neg hends]
  simp only [hjuxtaposed]
  split <;> rfl

theorem placeOf_of_placement (hkind : Kind.of? token = some kind) (hcloser : kind ≠ .closer)
    (hcomma : kind ≠ .comma) : placeOf tokens token = tokens.length := by
  rw [placeOf, if_neg]
  rintro (rfl | rfl)
  · exact hcloser (Option.some.inj hkind).symm
  · exact hcomma (Option.some.inj hkind).symm

/-- A group behind which a word may come was opened before the last token. -/
theorem lt_of_wordBehind {place : Nat} (h : WordBehind tokens place) :
    place + 1 < tokens.length := by
  obtain ⟨i, -, -, hhead, next, hnext, -⟩ := h
  have hmem := lt_of_mem_openPlaces (List.mem_of_mem_head? hhead)
  have hlt := (List.getElem?_eq_some_iff.mp (Option.mem_def.mp hnext)).1
  rw [List.length_take] at hmem
  omega

end Placement

/-- A closed group that stands for itself is no argument list. -/
theorem Arena.wholeCall_not_argument {a : Arena} {x id : Nat}
    (hclosed : (a.node (a.wholeCall x)).kind = .closedGroup)
    (hhangs : a.HangsFrom (a.wholeCall x) id) : (a.node id).kind ≠ .word := by
  intro hword
  have hcases : a.wholeCall x = x ∨ (a.node (a.wholeCall x)).kind = .word := by
    unfold Arena.wholeCall
    split
    · split
      · rename_i hparent
        exact Or.inr hparent
      · exact Or.inl rfl
    · exact Or.inl rfl
  rcases hcases with hself | hcall
  · rw [hself] at hclosed hhangs
    have hstep : a.wholeCall x = id := by
      rw [Arena.wholeCall, hclosed, hhangs]
      exact if_pos hword
    rw [← hself, hstep, hword] at hclosed
    cases hclosed
  · rw [hcall] at hclosed
    cases hclosed

namespace Draft

section Step

variable {before : List String} {last token : String} {kind : Kind} {d : Draft} {s : Spine}

theorem Accounted.cursor_eq (acc : d.Accounted (before ++ [last])) :
    (origins (before ++ [last]))[d.cursor]? = some (.token (placeOf before last)) :=
  acc.cursor before last rfl

/-- The last token is the only one that is last. -/
theorem cursor_concat {tokens : List String} {cursor : Nat}
    (h : (origins (tokens ++ [token]))[cursor]? = some (.token (placeOf tokens token))) :
    ∀ before last, tokens ++ [token] = before ++ [last] →
      (origins (tokens ++ [token]))[cursor]? = some (.token (placeOf before last)) := by
  intro before last hsame
  obtain ⟨rfl, hlast⟩ := List.append_inj' hsame rfl
  obtain rfl := List.singleton_inj.mp hlast
  exact h

/-- What a placement leaves to be shown when the last token has made the node of the cursor. -/
theorem Accounted.of_accounts {tokens : List String} {next : Draft}
    (acc : Accounts (tokens ++ [token]) next.arena)
    (hkind : Kind.of? token = some kind) (hcloser : kind ≠ .closer) (hcomma : kind ≠ .comma)
    (hcursor : (origins (tokens ++ [token]))[next.cursor]? = some (.token tokens.length))
    (hopened : List.Forall₂ (fun id place => (origins (tokens ++ [token]))[id]? =
      some (.token place)) next.openPath (openPlaces (tokens ++ [token]))) :
    next.Accounted (tokens ++ [token]) where
  toAccounts := acc
  cursor := cursor_concat (by rw [hcursor, placeOf_of_placement hkind hcloser hcomma])
  opened := fun _ => hopened

/-- The open groups that there were have their places. -/
theorem Accounted.opened_concat {tokens : List String} (acc : d.Accounted tokens)
    (hfront : Continuable tokens) (token : String) :
    List.Forall₂ (fun id place => (origins (tokens ++ [token]))[id]? = some (.token place))
      d.openPath (openPlaces tokens) := by
  refine (acc.opened hfront).imp fun id place horigin => ?_
  rw [origins_concat, List.getElem?_append_left (List.getElem?_eq_some_iff.mp horigin).1, horigin]

/-- A new node that stands for its token is an open group if the token is a `(`, and otherwise
leaves the open groups alone. -/
theorem opened_hang {tokens : List String} {path : List Nat} {new : Nat}
    (hkind : Kind.of? token = some kind) (hcloser : kind ≠ .closer) (hcomma : kind ≠ .comma)
    (hnew : (origins (tokens ++ [token]))[new]? = some (.token tokens.length))
    (hpath : List.Forall₂ (fun id place => (origins (tokens ++ [token]))[id]? =
      some (.token place)) path (openPlaces tokens)) :
    List.Forall₂ (fun id place => (origins (tokens ++ [token]))[id]? = some (.token place))
      (if kind = .openGroup then new :: path else path) (openPlaces (tokens ++ [token])) := by
  split
  · rename_i hopen
    rw [hopen] at hkind
    obtain rfl : "(" = token := (Kind.eq_of_spelling hkind rfl).symm
    rw [openPlaces_opener]
    exact .cons hnew hpath
  · rename_i hopen
    rw [openPlaces_other hkind hopen hcloser hcomma]
    exact hpath

/-- A function that the cursor is on is the last token. -/
theorem Accounted.placeOf_word (acc : d.Accounted (before ++ [last]))
    (hword : (d.arena.node d.cursor).kind = .word) : placeOf before last = before.length := by
  have hnames := (acc.describes d.cursor _ acc.cursor_eq).names
  obtain ⟨own, hown, hkind⟩ := hnames.kind_eq (by rw [hword]; rfl)
  rw [hword] at hkind
  exact (placeOf_eq_iff hown hkind nofun nofun nofun).mp rfl

/-- Behind a function there can only be the `(` of its argument list. -/
theorem Accounted.isArgument_opener (acc : d.Accounted (before ++ [last])) {place : Nat}
    (horigin : (origins (before ++ [last]))[d.cursor]? = some (.token place))
    (hword : (d.arena.node d.cursor).kind = .word) {next : Arena} {child : Nat}
    (hchild : (origins (before ++ [last] ++ ["("]))[child]? =
      some (.token (before ++ [last]).length)) :
    IsArgument (before ++ [last] ++ ["("]) next place child := by
  obtain rfl : placeOf before last = place :=
    Origin.token.inj (Option.some.inj (acc.cursor_eq.symm.trans horigin))
  have hlength : placeOf before last + 1 = (before ++ [last]).length := by
    rw [acc.placeOf_word hword, List.length_append, List.length_singleton]
  have hnot : ¬WordBehind (before ++ [last] ++ ["("]) (before ++ [last]).length := by
    intro hbehind
    have hlt := lt_of_wordBehind hbehind
    simp only [List.length_append, List.length_singleton] at hlt
    omega
  rw [IsArgument, hlength, if_neg hnot]
  exact ⟨hchild, by simp⟩

/-- **A token is hung from the cursor.** -/
theorem Accounted.hang (acc : d.Accounted (before ++ [last])) (h : d.Shows s)
    (hs : Spine.ofTokens (before ++ [last]) = .ok s) (hkind : Kind.of? token = some kind)
    (hplace : Placement.of? s.current.kind kind = some .below) :
    (d.hang token kind).Accounted (before ++ [last] ++ [token]) := by
  obtain ⟨hoperand, hcloser, hcomma, -⟩ := Placement.kinds_of_below hplace
  have hfront := continuable_of_placement hs hplace
  have hends : ¬EndsOperand (before ++ [last]) := by
    rw [endsOperand_iff_of_placement hs hplace, hoperand]
    exact Bool.false_ne_true
  have hmade : madeFor (before ++ [last]) token = [.token (before ++ [last]).length] :=
    madeFor_of_placement hs hkind hcloser hcomma hplace
  have hsize : (origins (before ++ [last] ++ [token]))[d.arena.size]? =
      some (.token (before ++ [last]).length) := by
    rw [origins_concat (before ++ [last]), hmade, acc.size_eq]
    simp
  have hnode : (d.hang token kind).arena.node d.arena.size =
      { value := token, kind, parent := some d.cursor } :=
    (Arena.node_pushBelow h.cursor_lt ..).trans (if_pos rfl)
  refine .of_accounts ?_ hkind hcloser hcomma hsize ?_
  · refine acc.concat hfront acc.cursor_eq ?_ ?_ ?_ ?_ ?_
    · simpa [hends] using h.keeps_hang token kind
    · rw [hmade]
      exact Arena.size_pushBelow ..
    · intro i origin hi
      rw [hmade, List.getElem?_singleton] at hi
      split at hi
      · rename_i hzero
        obtain rfl := Option.some.inj hi
        rw [hzero, Nat.add_zero, hnode]
        exact describes_leaf hkind hcloser hcomma (fun _ _ => hends) rfl rfl rfl
      · cases hi
    · intro id place child horigin hword hhangs
      rcases (h.hangsFrom_hang ..).mp hhangs with ⟨rfl, rfl⟩ | ⟨hne, hhangs⟩
      · have hcurrent : s.current.kind = .word := h.current_eq.2.symm.trans hword
        rw [hcurrent] at hplace
        rcases Placement.of?_eq_below hplace with ⟨hawaits, -⟩ | ⟨-, rfl⟩
        · cases hawaits
        · obtain rfl : "(" = token := (Kind.eq_of_spelling hkind rfl).symm
          exact acc.isArgument_opener horigin hword hsize
      · refine (acc.argument id place child horigin hword hhangs).concat ?_ ?_
        · exact (d.arena.kind_pushBelow ..).trans (if_neg hne)
        · intro _ hlast
          rw [hlast] at hends
          exact absurd ((endsOperand_concat before ")").mpr (by decide)) hends
    · intro id child hid hword hhangs
      rcases (h.hangsFrom_hang ..).mp hhangs with ⟨-, rfl⟩ | ⟨-, hhangs⟩
      · exact absurd h.cursor_lt (Nat.not_lt.mpr hid)
      · exact absurd (h.rooted.1.parent_lt child id hhangs) (Nat.not_lt.mpr hid)
  · rw [h.openPath_hang]
    exact opened_hang hkind hcloser hcomma hsize (acc.opened_concat hfront token)

/-- What an operator finds as its left operand hangs from a function only if a product has taken
the place of the argument list. -/
theorem Accounted.wordBehind_leftOperand (acc : d.Accounted (before ++ [last])) (h : d.Shows s)
    (hclosed : s.current.kind ≠ .openGroup) (op : Operator) {id place : Nat}
    (horigin : (origins (before ++ [last]))[id]? = some (.token place))
    (hword : (d.arena.node id).kind = .word)
    (hhangs : d.arena.HangsFrom (d.leftOperand op) id) :
    WordBehind (before ++ [last]) (place + 1) := by
  by_contra hbehind
  have hargument := acc.argument id place _ horigin hword hhangs
  rw [IsArgument, if_neg hbehind] at hargument
  have hgroup := (acc.describes _ _ hargument.1).names.isGroup hargument.2
  have hopen : (d.arena.node (d.leftOperand op)).kind ≠ .openGroup := by
    have hshown := (h.leftOperand op).current_eq.2
    exact hshown ▸ Spine.leftOperand_not_open s op hclosed
  have hpair : (d.arena.node (d.leftOperand op)).kind = .closedGroup := by
    cases hk : (d.arena.node (d.leftOperand op)).kind <;> simp_all [Kind.isGroup]
  exact Arena.wholeCall_not_argument hpair hhangs hword

/-- **An operator takes its left operand.** -/
theorem Accounted.operate {op : Operator} (acc : d.Accounted (before ++ [last])) (h : d.Shows s)
    (hs : Spine.ofTokens (before ++ [last]) = .ok s)
    (hkind : Kind.of? token = some (.operator op))
    (hplace : Placement.of? s.current.kind (.operator op) = some (.rightOf op)) :
    (d.operate (d.leftOperand op) token op).Accounted (before ++ [last] ++ [token]) := by
  have hoperand := (Placement.of?_eq_rightOf hplace).1
  have hfront := continuable_of_placement hs hplace
  have hclosed := Spine.not_open_of_isOperand hoperand
  have hends : EndsOperand (before ++ [last]) :=
    (endsOperand_iff_of_placement hs hplace).mpr hoperand
  have hmade : madeFor (before ++ [last]) token = [.token (before ++ [last]).length] :=
    madeFor_of_placement hs hkind nofun nofun hplace
  have hsize : (origins (before ++ [last] ++ [token]))[d.arena.size]? =
      some (.token (before ++ [last]).length) := by
    rw [origins_concat (before ++ [last]), hmade, acc.size_eq]
    simp
  have hleft := h.leftOperand op
  refine .of_accounts ?_ hkind nofun nofun hsize ?_
  · refine acc.toAccounts.pushAbove hfront acc.cursor_eq hleft hends hmade
      (by rw [hkind]; exact nofun) nofun (describes_operator hkind hends rfl rfl rfl) ?_
    intro id place horigin hword hhangs
    have hbehind := acc.wordBehind_leftOperand h hclosed op horigin hword hhangs
    rw [IsArgument, if_pos ((wordBehind_concat ..).mpr (Or.inl hbehind))]
    exact ⟨op, (d.arena.kind_pushAbove ..).trans (if_pos rfl)⟩
  · have hopens : ((s.leftOperand op).operate token op).opens = s.opens := by
      rw [Spine.opens_operate (Spine.leftOperand_not_open s op hclosed),
        (Spine.rises_leftOperand s op hclosed).opens_eq]
    rw [h.openPath_operate (h.leftOperand_mem op) hleft hopens,
      openPlaces_other hkind nofun nofun nofun]
    exact acc.opened_concat hfront token

/-- What a factor is multiplied with hangs from a function only if it is the argument list that
was just closed, or if a product has taken its place already. -/
theorem Accounted.wordBehind_cursor (acc : d.Accounted (before ++ [last])) (h : d.Shows s)
    (hoperand : s.current.kind.isOperand = true) (hends : EndsOperand (before ++ [last]))
    (htoken : s.current.kind = .closedGroup → Kind.of? token = some .word) {id place : Nat}
    (horigin : (origins (before ++ [last]))[id]? = some (.token place))
    (hword : (d.arena.node id).kind = .word) (hhangs : d.arena.HangsFrom d.cursor id) :
    WordBehind (before ++ [last] ++ [token]) (place + 1) := by
  rw [wordBehind_concat]
  refine or_iff_not_imp_left.mpr fun hbehind => ?_
  have hargument := acc.argument id place _ horigin hword hhangs
  rw [IsArgument, if_neg hbehind] at hargument
  obtain ⟨hchild, hopener⟩ := hargument
  have hgroup := (acc.describes _ _ hchild).names.isGroup hopener
  have hcurrent : (d.arena.node d.cursor).kind = s.current.kind := h.current_eq.2
  have hpair : s.current.kind = .closedGroup := by
    rw [hcurrent] at hgroup
    cases hk : s.current.kind <;> simp_all [Kind.isGroup, Kind.isOperand]
  have hplaceOf : placeOf before last = place + 1 :=
    Origin.token.inj (Option.some.inj (acc.cursor_eq.symm.trans hchild))
  rw [endsOperand_concat] at hends
  rcases placeOf_cases before last with hhere | ⟨hhead, rfl | rfl⟩
  · rw [← hplaceOf, hhere] at hopener
    obtain rfl : last = "(" := by simpa using hopener
    exact absurd hends (by decide)
  · exact ⟨rfl, hplaceOf ▸ hhead, htoken hpair⟩
  · exact absurd hends (by decide)

/-- **A factor makes a product of the node of the cursor.** -/
theorem Accounted.multiply (acc : d.Accounted (before ++ [last])) (h : d.Shows s)
    (hs : Spine.ofTokens (before ++ [last]) = .ok s) (hkind : Kind.of? token = some kind)
    (hplace : Placement.of? s.current.kind kind = some .factor) :
    (d.multiply token kind).Accounted (before ++ [last] ++ [token]) := by
  obtain ⟨hoperand, hcloser, hcomma, -⟩ := Placement.kinds_of_factor hplace
  have hfront := continuable_of_placement hs hplace
  have hends : EndsOperand (before ++ [last]) :=
    (endsOperand_iff_of_placement hs hplace).mpr hoperand
  have hmade : madeFor (before ++ [last]) token =
      [.product (before ++ [last]).length, .token (before ++ [last]).length] :=
    madeFor_of_placement hs hkind hcloser hcomma hplace
  have hsize : (origins (before ++ [last] ++ [token]))[d.arena.size + 1]? =
      some (.token (before ++ [last]).length) := by
    rw [origins_concat (before ++ [last]), hmade, acc.size_eq]
    simp
  have hfactor := Placement.of?_eq_factor hplace
  have hoperator : ∀ op, kind ≠ .operator op := by
    rintro op rfl
    rcases hfactor with ⟨-, hk | hk⟩ | ⟨-, hk⟩ <;> cases hk
  refine .of_accounts ?_ hkind hcloser hcomma ((d.cursor_multiply token kind).symm ▸ hsize) ?_
  · refine acc.concat hfront acc.cursor_eq ?_ ?_ ?_ ?_ ?_
    · simpa [hends] using h.keeps_multiply token kind
    · rw [hmade]
      exact d.size_multiply token kind
    · intro i origin hi
      rw [hmade] at hi
      match i, hi with
      | 0, hi =>
          obtain rfl := Option.some.inj hi
          rw [Nat.add_zero, h.node_product]
          exact ⟨⟨rfl, rfl⟩, rfl⟩
      | 1, hi =>
          obtain rfl := Option.some.inj hi
          rw [h.node_factor]
          exact describes_leaf hkind hcloser hcomma (fun op hop => absurd hop (hoperator op))
            rfl rfl rfl
      | i + 2, hi => cases hi
    · intro id place child horigin hword hchild
      have hlt : id < d.arena.size := by
        rw [acc.size_eq]
        exact (List.getElem?_eq_some_iff.mp horigin).1
      rcases (h.hangsFrom_multiply ..).mp hchild with
        ⟨-, rfl⟩ | ⟨rfl, hhangs⟩ | ⟨-, rfl⟩ | ⟨hne, -, hother, hhangs⟩
      · exact absurd hlt (Nat.lt_irrefl _)
      · have hbehind : WordBehind (before ++ [last] ++ [token]) (place + 1) := by
          refine acc.wordBehind_cursor h hoperand hends ?_ horigin hword hhangs
          intro hclosed
          rcases hfactor with ⟨hnumber, -⟩ | ⟨-, rfl⟩
          · rw [hclosed] at hnumber
            cases hnumber
          · exact hkind
        rw [IsArgument, if_pos hbehind, h.node_product]
        exact ⟨.times, rfl⟩
      · exact absurd hlt (Nat.lt_irrefl _)
      · refine (acc.argument id place child horigin hword hhangs).concat ?_ ?_
        · exact (h.keeps_multiply token kind).kind child (h.rooted.1.child_lt id child
            ((h.rooted.1.mem_children_iff id child).mpr hhangs))
        · -- The group that was just closed is the cursor.
          rintro hsame rfl hhead
          have hplaceOf : placeOf before ")" = place + 1 := by
            rw [placeOf, if_pos (Or.inl rfl), List.headD_eq_head?_getD, hhead, Option.getD_some]
          have hcursor := acc.cursor_eq
          rw [hplaceOf, ← hsame] at hcursor
          exact absurd ((List.getElem?_inj (List.getElem?_eq_some_iff.mp hsame).1
            (nodup_origins _)).mp hcursor.symm) hother
    · intro id child hid hword hchild
      rcases (h.hangsFrom_multiply ..).mp hchild with
        ⟨-, rfl⟩ | ⟨-, hhangs⟩ | ⟨-, rfl⟩ | ⟨-, -, -, hhangs⟩
      · rw [h.node_product] at hword
        cases hword
      · exact absurd (h.rooted.1.parent_lt _ id hhangs) (Nat.not_lt.mpr hid)
      · rw [h.node_product] at hword
        cases hword
      · exact absurd (h.rooted.1.parent_lt child id hhangs) (Nat.not_lt.mpr hid)
  · have hclosed := Spine.not_open_of_isOperand hoperand
    have himplied : d.implied.openPath = d.openPath :=
      h.openPath_operate (d.arena.mem_lineage_self d.cursor) h
        (Spine.opens_operate hclosed Operator.times.symbol .times)
    rw [d.multiply_eq, h.implied.openPath_hang, himplied, d.size_implied]
    exact opened_hang hkind hcloser hcomma hsize (acc.opened_concat hfront token)

/-- What a `)` and a `,` have in common: they go to the innermost open group, which is a new one
if there is none. -/
theorem Accounted.enclose (acc : d.Accounted (before ++ [last])) (h : d.Shows s)
    (hs : Spine.ofTokens (before ++ [last]) = .ok s) {placement : Placement}
    (hkind : Kind.of? token = some kind) (hdelimits : kind = .closer ∨ kind = .comma)
    (hplace : Placement.of? s.current.kind kind = some placement)
    (hoperand : s.current.kind.isOperand = true) :
    Accounts (before ++ [last] ++ [token]) d.enclose.arena ∧
      (origins (before ++ [last] ++ [token]))[d.enclose.cursor]? =
        some (.token (placeOf (before ++ [last]) token)) ∧
      List.Forall₂ (fun id place => (origins (before ++ [last] ++ [token]))[id]? =
        some (.token place)) d.enclose.openPath
        (placeOf (before ++ [last]) token :: (openPlaces (before ++ [last])).tail) := by
  have hfront := continuable_of_placement hs hplace
  have hends : EndsOperand (before ++ [last]) :=
    (endsOperand_iff_of_placement hs hplace).mpr hoperand
  have hword : Kind.of? token ≠ some .word := by
    rw [hkind]
    rcases hdelimits with rfl | rfl <;> decide
  have htoken : token = ")" ∨ token = "," := by
    rcases hdelimits with rfl | rfl
    · exact Or.inl (Kind.eq_of_spelling hkind rfl)
    · exact Or.inr (Kind.eq_of_spelling hkind rfl)
  have hopened := acc.opened_concat hfront token
  rcases h.openPath_enclose with ⟨group, rest, hpath, heq, hsame⟩ |
    ⟨hpath, root, hroot, hparent, ⟨t, ht⟩, heq, hnew⟩
  · rw [hpath] at hopened
    cases hplaces : openPlaces (before ++ [last]) with
    | nil =>
        rw [hplaces] at hopened
        cases hopened
    | cons place places =>
        rw [hplaces] at hopened
        obtain ⟨hgroup, hrest⟩ := List.forall₂_cons.mp hopened
        have hplaceOf : placeOf (before ++ [last]) token = place := by
          rw [placeOf, if_pos htoken, hplaces]
          rfl
        have hmade : madeFor (before ++ [last]) token = [] := by
          rw [madeFor, if_pos htoken, if_neg (by rw [hplaces]; exact List.cons_ne_nil _ _)]
        rw [hsame, hpath, hplaceOf, heq]
        refine ⟨?_, hgroup, .cons hgroup hrest⟩
        refine acc.concat hfront acc.cursor_eq ?_ ?_ ?_ ?_ ?_
        · exact ⟨fun _ _ => rfl, fun _ _ => rfl, fun id _ => by simp [hends]⟩
        · rw [hmade]
          rfl
        · intro i origin hi
          rw [hmade] at hi
          cases hi
        · intro id place child horigin hword' hhangs
          exact (acc.argument id place child horigin hword' hhangs).concat rfl fun _ _ _ => hword
        · intro id child hid _ hhangs
          exact absurd (h.rooted.1.parent_lt child id hhangs) (Nat.not_lt.mpr hid)
  · have hplaces : openPlaces (before ++ [last]) = [] := by
      rw [hpath] at hopened
      exact List.forall₂_nil_left_iff.mp hopened
    have hplaceOf : placeOf (before ++ [last]) token = (before ++ [last]).length := by
      rw [placeOf, if_pos htoken, hplaces]
      rfl
    have hmade : madeFor (before ++ [last]) token = [.token (before ++ [last]).length] := by
      rw [madeFor, if_pos htoken, if_pos hplaces]
    have hsize : (origins (before ++ [last] ++ [token]))[d.arena.size]? =
        some (.token (before ++ [last]).length) := by
      rw [origins_concat (before ++ [last]), hmade, acc.size_eq]
      simp
    rw [hnew, hplaceOf, hplaces, heq]
    refine ⟨?_, hsize, .cons hsize .nil⟩
    refine acc.toAccounts.pushAbove hfront acc.cursor_eq ht hends hmade hword Kind.noConfusion
      (describes_group hkind hdelimits (by simp) rfl rfl rfl) ?_
    intro id place _ _ hhangs
    rw [Arena.HangsFrom, hparent] at hhangs
    cases hhangs

/-- **A group is closed.** -/
theorem Accounted.close (acc : d.Accounted (before ++ [last])) (h : d.Shows s)
    (hs : Spine.ofTokens (before ++ [last]) = .ok s) (hkind : Kind.of? token = some kind)
    (hplace : Placement.of? s.current.kind kind = some .close) :
    d.close.Accounted (before ++ [last] ++ [token]) := by
  obtain ⟨hoperand, rfl⟩ := Placement.of?_eq_close hplace
  obtain rfl := Kind.eq_of_spelling hkind rfl
  obtain ⟨haccounts, hcursor, hopened⟩ :=
    acc.enclose h hs hkind (Or.inl rfl) hplace hoperand
  have hopen : (d.enclose.arena.node d.enclose.cursor).kind = .openGroup :=
    h.enclose.current_eq.2.trans (Spine.kind_enclose s)
  refine { toAccounts := haccounts.close hopen, cursor := cursor_concat hcursor,
           opened := fun _ => ?_ }
  rw [h.openPath_close, openPlaces_closer]
  generalize d.enclose.openPath = path at hopened
  cases hopened with
  | cons _ hrest => exact hrest

/-- **A value of a group has ended.** -/
theorem Accounted.separate (acc : d.Accounted (before ++ [last])) (h : d.Shows s)
    (hs : Spine.ofTokens (before ++ [last]) = .ok s) (hkind : Kind.of? token = some kind)
    (hplace : Placement.of? s.current.kind kind = some .separate) :
    d.enclose.Accounted (before ++ [last] ++ [token]) := by
  obtain ⟨hoperand, rfl⟩ := Placement.of?_eq_separate hplace
  obtain rfl := Kind.eq_of_spelling hkind rfl
  obtain ⟨haccounts, hcursor, hopened⟩ :=
    acc.enclose h hs hkind (Or.inr rfl) hplace hoperand
  refine { toAccounts := haccounts, cursor := cursor_concat hcursor, opened := fun _ => ?_ }
  rw [openPlaces_comma]
  exact hopened

/-- **Every placement keeps the accounts.** -/
theorem Accounted.place (acc : d.Accounted (before ++ [last])) (h : d.Shows s)
    (hs : Spine.ofTokens (before ++ [last]) = .ok s) (hkind : Kind.of? token = some kind)
    {placement : Placement} (hplace : Placement.of? s.current.kind kind = some placement) :
    (d.place token kind placement).Accounted (before ++ [last] ++ [token]) := by
  cases placement with
  | rightOf op =>
      obtain ⟨-, rfl⟩ := Placement.of?_eq_rightOf hplace
      exact acc.operate h hs hkind hplace
  | below => exact acc.hang h hs hkind hplace
  | factor => exact acc.multiply h hs hkind hplace
  | close => exact acc.close h hs hkind hplace
  | separate => exact acc.separate h hs hkind hplace

/-- A first token is a leaf, whatever it is. -/
theorem accounted_single (hkind : Kind.of? token = some kind) :
    (single token kind).Accounted [token] := by
  have hnode : (single token kind).arena.node 0 = { value := token, kind } :=
    Arena.node_push Arena.empty token kind 0
  have hdescribes : (Origin.token 0).Describes [token] ((single token kind).arena.node 0) := by
    rw [hnode]
    by_cases hdelimits : kind = .closer ∨ kind = .comma
    · refine ⟨⟨token, kind, rfl, hkind, ?_⟩, ?_⟩
      · rw [if_neg]
        · exact ⟨rfl, rfl⟩
        · rintro (rfl | ⟨-, hzero⟩)
          · rcases hdelimits with hk | hk <;> cases hk
          · exact Nat.lt_irrefl 0 hzero
      · have hleaf : arity [token] (.token 0) = arityAt [token] 0 kind := by
          simp [arity, hkind]
        rw [hleaf]
        rcases hdelimits with rfl | rfl <;> rfl
    · obtain ⟨hcloser, hcomma⟩ := not_or.mp hdelimits
      exact @describes_leaf [] token kind _ hkind hcloser hcomma (fun _ _ => by decide) rfl rfl rfl
  have hfirst : ∀ id (origin : Origin), (origins [token])[id]? = some origin →
      id = 0 ∧ origin = .token 0 := by
    intro id origin horigin
    rw [origins_single, List.getElem?_singleton] at horigin
    split at horigin
    · rename_i hid
      exact ⟨hid, (Option.some.inj horigin).symm⟩
    · cases horigin
  refine { size_eq := ?_, describes := ?_, argument := ?_, cursor := ?_, opened := ?_ }
  · rw [origins_single]
    rfl
  · intro id origin horigin
    obtain ⟨rfl, rfl⟩ := hfirst id origin horigin
    exact hdescribes
  · intro id place child _ _ hhangs
    have hparent : ((single token kind).arena.node child).parent = none := by
      show ((Arena.empty.push token kind).node child).parent = none
      rw [Arena.node_push]
      split
      · rfl
      · rw [Arena.node_of_size_le (Nat.zero_le child)]
        rfl
    rw [Arena.HangsFrom, hparent] at hhangs
    cases hhangs
  · refine @cursor_concat token [] 0 ?_
    have hplaceOf : placeOf [] token = 0 := by
      rw [placeOf]
      split <;> rfl
    rw [hplaceOf]
    exact congrArg (·[0]?) (origins_single token)
  · intro hfront
    obtain ⟨hcloser, hcomma⟩ := hfront.kind_ne hkind
    have hlineage : (single token kind).arena.lineage 0 = [0] := by
      show (single token kind).arena.lineageWithin 1 0 = [0]
      rw [Arena.lineageWithin, hnode]
    have hpath : (single token kind).openPath = if kind = .openGroup then [0] else [] := by
      show ((single token kind).arena.lineage 0).filter _ = _
      rw [hlineage, List.filter_cons, List.filter_nil, hnode]
      simp only [decide_eq_true_eq]
    rw [hpath]
    exact @opened_hang token kind [] [] 0 hkind hcloser hcomma
      (congrArg (·[0]?) (origins_single token)) .nil

end Step

/-- **Every draft accounts for its tokens.** -/
theorem accounted_ofTokens {tokens : List String} {d : Draft} (h : ofTokens tokens = .ok d) :
    d.Accounted tokens := by
  refine ofTokens_induction (fun _ _ => accounted_single) ?_ tokens d h
  intro tokens d s token kind placement hd hs hshows acc hkind hplace
  have hne : tokens ≠ [] := by
    rintro rfl
    cases hd
  obtain ⟨before, last, rfl⟩ := (List.eq_nil_or_concat' tokens).resolve_left hne
  exact acc.place hshows hs hkind hplace

end Draft

/-- A `)` or a `,` that is a node is the only token. -/
theorem length_of_first {tokens : List String} {d : Draft} (h : Draft.ofTokens tokens = .ok d)
    (hfirst : ¬Continuable tokens) : tokens.length = 1 := by
  refine @Draft.ofTokens_induction (fun tokens _ => ¬Continuable tokens → tokens.length = 1)
    (fun _ _ _ _ => rfl) ?_ tokens d h hfirst
  intro tokens d s token kind placement hd hs _ _ _ hplace hfirst
  refine absurd ?_ hfirst
  obtain ⟨hcloser, hcomma⟩ := continuable_of_placement hs hplace
  cases tokens with
  | nil => cases hd
  | cons first rest => exact ⟨hcloser, hcomma⟩

/-- **Every node of an expression has the arity that the tokens say.**  There is a node for every
origin and it has as many children as `arity` counts; what hangs from a function is the group
behind it, or an operator if a word comes behind that group; and a node is a `)` or a `,` only
where that is the one token there is. -/
theorem arity_ofTokens {tokens : List String} {e : Expression}
    (h : Expression.ofTokens tokens = .ok e) :
    e.arena.size = (origins tokens).length ∧
    (∀ id (origin : Origin), (origins tokens)[id]? = some origin →
      origin.Describes tokens (e.arena.node id)) ∧
    (∀ id place, (origins tokens)[id]? = some (.token place) → (e.arena.node id).kind = .word →
      ∀ child ∈ (e.arena.node id).children,
        if WordBehind tokens (place + 1) then ∃ op, (e.arena.node child).kind = .operator op
        else (origins tokens)[child]? = some (.token (place + 1)) ∧
          (e.arena.node child).kind.isGroup = true) ∧
    ∀ id < e.arena.size, (e.arena.node id).kind ∈ [.closer, .comma] →
      tokens.length = 1 ∧ e.arena.size = 1 := by
  obtain ⟨d, hd, rfl⟩ := Expression.ofTokens_eq_ok_iff.mp h
  obtain ⟨s, -, hshows⟩ := Draft.exists_spine hd
  obtain ⟨hsize, hdescribes, hargument⟩ := (Draft.accounted_ofTokens hd).toAccounts
  refine ⟨hsize, hdescribes, ?_, ?_⟩
  · intro id place horigin hword child hchild
    have hchild' := hargument id place child horigin hword
      ((hshows.rooted.1.mem_children_iff id child).mp hchild)
    unfold IsArgument at hchild'
    split at hchild'
    · rename_i hbehind
      rw [if_pos hbehind]
      exact hchild'
    · rename_i hbehind
      rw [if_neg hbehind]
      exact ⟨hchild'.1, (hdescribes child _ hchild'.1).names.isGroup hchild'.2⟩
  · intro id hid hkind
    obtain ⟨origin, horigin⟩ : ∃ origin, (origins tokens)[id]? = some origin :=
      ⟨_, List.getElem?_eq_getElem (hsize ▸ hid)⟩
    have hends : (d.finish.arena.node id).kind = .closer ∨ (d.finish.arena.node id).kind = .comma := by
      simpa using hkind
    have hlength := length_of_first hd
      ((hdescribes id origin horigin).names.not_continuable hends)
    obtain ⟨token, rfl⟩ := List.length_eq_one_iff.mp hlength
    exact ⟨hlength, hsize.trans (congrArg List.length (origins_single token))⟩

/-- In `1,cos(2)sin(-` the group around everything is made second and has two values, and what
hangs from the cosine is the product that is implied behind its argument list. -/
theorem arity_word_behind :
    let tokens := ["1", ",", "cos", "(", "2", ")", "sin", "(", "-"]
    ∃ e, Expression.ofTokens tokens = .ok e ∧
      origins tokens = [.token 0, .token 1, .token 2, .token 3, .token 4, .product 6, .token 6,
        .token 7, .token 8] ∧
      (List.range e.arena.size).map (fun id => (e.arena.node id).children.length) =
        [0, 2, 1, 1, 0, 2, 1, 1, 0] ∧
      ∀ child ∈ (e.arena.node 2).children, ∃ op, (e.arena.node child).kind = .operator op := by
  intro tokens
  obtain ⟨e, he, hword⟩ : ∃ e, Expression.ofTokens tokens = .ok e ∧
      (e.arena.node 2).kind = .word := ⟨_, rfl, by decide⟩
  have horigins : origins tokens = [.token 0, .token 1, .token 2, .token 3, .token 4, .product 6,
      .token 6, .token 7, .token 8] := by decide
  have hbehind : WordBehind tokens 3 := by decide
  obtain ⟨hsize, hdescribes, hargument, -⟩ := arity_ofTokens he
  refine ⟨e, he, horigins, ?_, ?_⟩
  · have harities : (List.range e.arena.size).map (fun id => (e.arena.node id).children.length) =
        (origins tokens).map (arity tokens) := by
      refine List.ext_getElem (by simp [hsize]) fun id _ hid => ?_
      have horigin := List.getElem?_eq_getElem (show id < (origins tokens).length by simpa using hid)
      simpa using (hdescribes id _ horigin).arity
    rw [harities, horigins]
    decide
  · intro child hchild
    have hoperator := hargument 2 2 (by rw [horigins]; rfl) hword child hchild
    rwa [if_pos hbehind] at hoperator

end Calculator
