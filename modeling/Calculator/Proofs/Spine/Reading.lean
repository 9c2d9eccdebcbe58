/-
Drafts and spines read tokens alike.

`Draft.Shows` forgets the numbers of a layout, and what is left is a spine.  Walking up
in an arena follows the numbers of a lineage, and walking up a spine completes one
frame after the other; the lineage of the cursor is the path of the layout, so the two
walks stop at the same place.  Placing a token then keeps `Shows`, and a list of tokens
is read to the same tree, or refused with the same error, on either side.
-/
import Calculator.Expression
import Calculator.Proofs.Spine.Layout

namespace Calculator

/-! ### Lineages -/

namespace Arena

theorem Path.lineageWithin {a : Arena} {below : Option Nat} {f : NumberedFrame}
    {above : List NumberedFrame} (h : a.Path below (f :: above)) :
    ∀ fuel, above.length ≤ fuel →
      a.lineageWithin fuel f.id = (f :: above).map NumberedFrame.id := by
  induction above generalizing below f with
  | nil =>
      intro fuel _
      cases fuel with
      | zero => rfl
      | succ fuel => simp [Arena.lineageWithin, h.1]
  | cons g above ih =>
      intro fuel hfuel
      cases fuel with
      | zero => simp at hfuel
      | succ fuel =>
          have hrest := ih h.2.2 fuel (by simpa using hfuel)
          simp only [Arena.lineageWithin, h.1, List.head?_cons, Option.map_some]
          rw [hrest]
          rfl

end Arena

theorem length_le_length_ids (frames : List NumberedFrame) :
    frames.length ≤ (frames.flatMap NumberedFrame.ids).length := by
  induction frames with
  | nil => exact Nat.le_refl _
  | cons f above ih =>
      simp only [List.flatMap_cons, List.length_append, List.length_cons, NumberedFrame.ids]
      omega

namespace Draft

namespace LaidOut

variable {d : Draft} {f g : NumberedFrame} {above : List NumberedFrame}

theorem length_lt (h : d.LaidOut f above) : above.length < d.arena.size := by
  have hle := length_le_length_ids (f :: above)
  rw [h.numbers.length_eq, List.length_range, List.length_cons] at hle
  omega

/-- The lineage of the cursor is the path it lies on. -/
theorem lineage_eq (h : d.LaidOut f above) :
    d.arena.lineage f.id = (f :: above).map NumberedFrame.id :=
  h.path.lineageWithin _ (Nat.le_of_lt h.length_lt)

theorem lineage_cons (h : d.LaidOut f (g :: above)) :
    d.arena.lineage f.id = f.id :: d.arena.lineage g.id := by
  have hup := h.up.lineage_eq
  rw [NumberedFrame.id_take] at hup
  rw [h.lineage_eq, hup]
  rfl

theorem top_cons (h : d.LaidOut f (g :: above)) : d.arena.top f.id = d.arena.top g.id := by
  have hup := h.up.lineage_eq
  rw [NumberedFrame.id_take] at hup
  simp [Arena.top, h.lineage_cons, hup, List.getLast?_cons]

theorem kind_above (h : d.LaidOut f (g :: above)) : (d.arena.node g.id).kind = g.kind :=
  congrArg Node.kind h.up.current_eq

end LaidOut

/-- The spine that is left of a draft when the numbers of its nodes are forgotten. -/
def Shows (d : Draft) (s : Spine) : Prop :=
  ∃ f above, d.LaidOut f above ∧ s = ⟨f.erase, above.map NumberedFrame.erase⟩

/-! ### Walking up -/

namespace LaidOut

variable {a : Arena}

/-- Climbing completes the frames that bind at least as tightly. -/
theorem climb (precedence : Nat) : ∀ {above : List NumberedFrame} {f : NumberedFrame},
    LaidOut ⟨a, f.id⟩ f above →
      Shows ⟨a, a.operandEndingIn precedence f.id⟩
        (Spine.climb precedence f.erase (above.map NumberedFrame.erase)) := by
  intro above
  induction above with
  | nil =>
      intro f h
      have hstay : a.operandEndingIn precedence f.id = f.id := by
        simp [Arena.operandEndingIn, h.lineage_eq]
      rw [hstay]
      exact ⟨f, [], h, rfl⟩
  | cons g above ih =>
      intro f h
      have hkind : (a.node g.id).kind = g.kind := h.kind_above
      have hlineage : a.lineage g.id = g.id :: above.map NumberedFrame.id := h.up.lineage_eq
      have hcons : a.lineage f.id = f.id :: a.lineage g.id := h.lineage_cons
      simp only [List.map_cons, Spine.climb]
      by_cases hle : precedence ≤ g.kind.precedence
      · rw [if_pos (show precedence ≤ g.erase.kind.precedence from hle)]
        have hstep : a.operandEndingIn precedence f.id = a.operandEndingIn precedence g.id := by
          simp [Arena.operandEndingIn, hcons, hlineage, hkind, hle, List.getLast?_cons]
        have hih := ih (f := g.take f.tree) h.up
        rw [NumberedFrame.erase_take, NumberedFrame.erase_tree] at hih
        rw [hstep]
        exact hih
      · rw [if_neg (show ¬precedence ≤ g.erase.kind.precedence from hle)]
        have hstay : a.operandEndingIn precedence f.id = f.id := by
          simp [Arena.operandEndingIn, hcons, hlineage, hkind, hle]
        rw [hstay]
        exact ⟨f, g :: above, h, rfl⟩

/-- Enclosing completes frames up to an open group, or all of them. -/
theorem enclosing : ∀ {above : List NumberedFrame} {f : NumberedFrame},
    LaidOut ⟨a, f.id⟩ f above →
      Shows (Draft.enclose ⟨a, f.id⟩)
        (Spine.enclosing f.erase (above.map NumberedFrame.erase)) := by
  intro above
  induction above with
  | nil =>
      intro f h
      have hkind : (a.node f.id).kind = f.kind := congrArg Node.kind h.current_eq
      have hlineage : a.lineage f.id = [f.id] := h.lineage_eq
      simp only [List.map_nil, Spine.enclosing]
      by_cases hopen : f.kind = .openGroup
      · rw [if_pos (show f.erase.kind = .openGroup from hopen)]
        have hstay : Draft.enclose ⟨a, f.id⟩ = ⟨a, f.id⟩ := by
          simp [Draft.enclose, Arena.innermostOpen?, hlineage, hkind, hopen]
        rw [hstay]
        exact ⟨f, [], h, rfl⟩
      · rw [if_neg (show ¬f.erase.kind = .openGroup from hopen)]
        have hnew : Draft.enclose ⟨a, f.id⟩ = ⟨a.pushAbove f.id "(" .openGroup, a.size⟩ := by
          simp [Draft.enclose, Arena.innermostOpen?, Arena.top, hlineage, hkind, hopen]
        rw [hnew]
        exact ⟨_, [], h.pushAbove "(" .openGroup, rfl⟩
  | cons g above ih =>
      intro f h
      have hkind : (a.node f.id).kind = f.kind := congrArg Node.kind h.current_eq
      have hcons : a.lineage f.id = f.id :: a.lineage g.id := h.lineage_cons
      simp only [List.map_cons, Spine.enclosing]
      by_cases hopen : f.kind = .openGroup
      · rw [if_pos (show f.erase.kind = .openGroup from hopen)]
        have hstay : Draft.enclose ⟨a, f.id⟩ = ⟨a, f.id⟩ := by
          simp [Draft.enclose, Arena.innermostOpen?, hcons, hkind, hopen]
        rw [hstay]
        exact ⟨f, g :: above, h, rfl⟩
      · rw [if_neg (show ¬f.erase.kind = .openGroup from hopen)]
        have hinner : a.innermostOpen? f.id = a.innermostOpen? g.id := by
          simp [Arena.innermostOpen?, hcons, hkind, hopen]
        have htop : a.top f.id = a.top g.id := h.top_cons
        have hstep : Draft.enclose ⟨a, f.id⟩ = Draft.enclose ⟨a, g.id⟩ := by
          simp only [Draft.enclose, hinner, htop]
        have hih := ih (f := g.take f.tree) h.up
        rw [NumberedFrame.erase_take, NumberedFrame.erase_tree] at hih
        rw [hstep]
        exact hih

/-- When every frame is complete, the arena holds the whole tree and nothing else. -/
theorem whole : ∀ {above : List NumberedFrame} {f : NumberedFrame},
    LaidOut ⟨a, f.id⟩ f above →
      ∃ t : Numbered, a.Holds none t ∧ t.ids.Perm (List.range a.size) ∧ t.id = a.top f.id ∧
        t.erase = Spine.fold f.erase (above.map NumberedFrame.erase) := by
  intro above
  induction above with
  | nil =>
      intro f h
      have hlineage : a.lineage f.id = [f.id] := h.lineage_eq
      refine ⟨f.tree, .node (by simpa using h.path.1) h.path.2.1, ?_, ?_, f.erase_tree⟩
      · simpa using h.numbers
      · simp [Arena.top, hlineage]
  | cons g above ih =>
      intro f h
      have htop : a.top f.id = a.top g.id := h.top_cons
      have hih := ih (f := g.take f.tree) h.up
      rw [NumberedFrame.erase_take, NumberedFrame.erase_tree] at hih
      rw [htop]
      exact hih

theorem unfold_top {above : List NumberedFrame} {f : NumberedFrame}
    (h : LaidOut ⟨a, f.id⟩ f above) :
    a.unfold (a.top f.id) = Spine.fold f.erase (above.map NumberedFrame.erase) := by
  obtain ⟨t, hholds, hids, htop, herase⟩ := h.whole
  have hlength : t.ids.length = a.size := by rw [hids.length_eq, List.length_range]
  rw [← htop, ← herase, Arena.unfold]
  exact hholds.unfoldWithin a.size (by omega)

end LaidOut

/-! ### Placing a token -/

namespace Shows

variable {d : Draft} {s : Spine}

theorem current_eq (h : d.Shows s) :
    d.current.value = s.current.value ∧ d.current.kind = s.current.kind := by
  obtain ⟨f, above, hlaid, rfl⟩ := h
  rw [hlaid.current_eq]
  exact ⟨rfl, rfl⟩

theorem hang (h : d.Shows s) (value : String) (kind : Kind) :
    (d.hang value kind).Shows (s.hang value kind) := by
  obtain ⟨f, above, hlaid, rfl⟩ := h
  exact ⟨_, _, hlaid.hang value kind, rfl⟩

theorem operate {a : Arena} {operand : Nat} (h : Shows ⟨a, operand⟩ s) (cursor : Nat)
    (value : String) (op : Operator) :
    (Draft.operate ⟨a, cursor⟩ operand value op).Shows (s.operate value op) := by
  obtain ⟨f, above, hlaid, rfl⟩ := h
  obtain rfl : operand = f.id := hlaid.cursor
  exact ⟨_, _, hlaid.pushAbove value (.operator op), rfl⟩

theorem wholeCall {a : Arena} {id : Nat} (h : Shows ⟨a, id⟩ s) :
    Shows ⟨a, a.wholeCall id⟩ s.wholeCall := by
  obtain ⟨f, above, hlaid, rfl⟩ := h
  obtain rfl : id = f.id := hlaid.cursor
  have hnode := hlaid.current_eq
  simp only [Draft.current] at hnode
  cases above with
  | nil =>
      have hstay : a.wholeCall f.id = f.id := by
        simp only [Arena.wholeCall, hnode, List.head?_nil, Option.map_none]
        split <;> simp_all
      rw [hstay]
      exact ⟨f, [], hlaid, rfl⟩
  | cons g above =>
      have hkind : (a.node g.id).kind = g.kind := hlaid.kind_above
      by_cases hcall : f.kind = .closedGroup ∧ g.kind = .word
      · have hstep : a.wholeCall f.id = g.id := by
          simp [Arena.wholeCall, hnode, hcall.1, hkind, hcall.2]
        have hspine : Spine.wholeCall ⟨f.erase, (g :: above).map NumberedFrame.erase⟩ =
            ⟨g.erase.take f.erase.tree, above.map NumberedFrame.erase⟩ := if_pos hcall
        rw [hstep, hspine]
        refine ⟨g.take f.tree, above, hlaid.up, ?_⟩
        rw [NumberedFrame.erase_take, NumberedFrame.erase_tree]
      · have hstay : a.wholeCall f.id = f.id := by
          simp only [Arena.wholeCall, hnode, List.head?_cons, Option.map_some]
          split
          · rename_i parent hclosed hparent
            obtain rfl := Option.some.inj hparent
            rw [if_neg]
            exact fun hword => hcall ⟨hclosed, hkind ▸ hword⟩
          · rfl
        have hspine : Spine.wholeCall ⟨f.erase, (g :: above).map NumberedFrame.erase⟩ =
            ⟨f.erase, (g :: above).map NumberedFrame.erase⟩ := if_neg hcall
        rw [hstay, hspine]
        exact ⟨f, g :: above, hlaid, rfl⟩

theorem leftOperand (h : d.Shows s) (op : Operator) :
    Shows ⟨d.arena, d.leftOperand op⟩ (s.leftOperand op) := by
  obtain ⟨f, above, hlaid, rfl⟩ := h
  obtain ⟨a, cursor⟩ := d
  obtain rfl : cursor = f.id := hlaid.cursor
  exact (hlaid.climb op.precedence).wholeCall

theorem enclose (h : d.Shows s) : d.enclose.Shows s.enclose := by
  obtain ⟨f, above, hlaid, rfl⟩ := h
  obtain ⟨a, cursor⟩ := d
  obtain rfl : cursor = f.id := hlaid.cursor
  exact hlaid.enclosing

theorem close (h : d.Shows s) : d.close.Shows s.close := by
  obtain ⟨f, above, hlaid, hs⟩ := h.enclose
  have hclose : d.close = ⟨d.enclose.arena.close f.id, f.id⟩ := by
    rw [← hlaid.cursor]
    rfl
  rw [hclose]
  refine ⟨_, above, hlaid.close, ?_⟩
  rw [Spine.close, hs]
  rfl

/-- **Placing a token keeps what is shown.** -/
theorem place (h : d.Shows s) (value : String) (kind : Kind) (placement : Placement) :
    (d.place value kind placement).Shows (s.place value kind placement) := by
  cases placement with
  | rightOf op => exact (h.leftOperand op).operate d.cursor value op
  | below => exact h.hang value kind
  | factor => exact (operate h d.cursor _ .times).hang value kind
  | close => exact h.close
  | separate => exact h.enclose

end Shows

/-! ### Reading tokens -/

/-- Both were read, to a draft and the spine it shows, or both failed with one error. -/
inductive Alike : Except Error Draft → Except Error Spine → Prop
  | ok {d : Draft} {s : Spine} (shows : d.Shows s) : Alike (.ok d) (.ok s)
  | error (e : Error) : Alike (.error e) (.error e)

theorem start_alike (token : String) : Alike (start token) (Spine.start token) := by
  unfold start Spine.start
  cases Kind.classify token with
  | error e => exact .error e
  | ok kind =>
      refine .ok ⟨⟨0, token, kind, []⟩, [], ⟨rfl, ⟨?_, by simp, trivial⟩, ?_⟩, rfl⟩
      · rfl
      · exact List.Perm.refl _

theorem step_alike {d : Draft} {s : Spine} (h : d.Shows s) (token : String) :
    Alike (d.step token) (s.step token) := by
  obtain ⟨hvalue, hkind⟩ := h.current_eq
  unfold step Spine.step
  cases Kind.classify token with
  | error e => exact .error e
  | ok kind =>
      simp only [bind, Except.bind, hvalue, hkind]
      cases Placement.of? s.current.kind kind with
      | none => exact .error _
      | some placement => exact .ok (h.place token kind placement)

theorem foldlM_alike (tokens : List String) : ∀ {d : Draft} {s : Spine}, d.Shows s →
    Alike (tokens.foldlM step d) (tokens.foldlM Spine.step s) := by
  induction tokens with
  | nil =>
      intro d s h
      exact .ok h
  | cons token rest ih =>
      intro d s h
      have hstep := step_alike h token
      rw [List.foldlM_cons, List.foldlM_cons]
      generalize d.step token = x at hstep
      generalize s.step token = y at hstep
      cases hstep with
      | ok shows => exact ih shows
      | error e => exact .error e

theorem ofTokens_alike (tokens : List String) :
    Alike (ofTokens tokens) (Spine.ofTokens tokens) := by
  cases tokens with
  | nil => exact .error _
  | cons token rest =>
      have hstart := start_alike token
      show Alike (start token >>= fun d => rest.foldlM step d)
        (Spine.start token >>= fun s => rest.foldlM Spine.step s)
      generalize start token = x at hstart
      generalize Spine.start token = y at hstart
      cases hstart with
      | ok shows => exact foldlM_alike rest shows
      | error e => exact .error e

/-- A draft that was read shows the spine with the same tokens. -/
theorem exists_spine {tokens : List String} {d : Draft} (h : ofTokens tokens = .ok d) :
    ∃ s, Spine.ofTokens tokens = .ok s ∧ d.Shows s := by
  have halike := ofTokens_alike tokens
  rw [h] at halike
  generalize Spine.ofTokens tokens = x at halike
  cases halike with
  | ok shows => exact ⟨_, rfl, shows⟩

end Draft

/-- **An expression has the tree that its tokens have as a spine**, and where there is none
the error is the same. -/
theorem Expression.map_tree_ofTokens (tokens : List String) :
    (Expression.ofTokens tokens).map Expression.tree =
      (Spine.ofTokens tokens).map Spine.tree := by
  have halike := Draft.ofTokens_alike tokens
  show ((Draft.ofTokens tokens) >>= fun d => pure d.finish).map Expression.tree = _
  generalize Draft.ofTokens tokens = x at halike
  generalize Spine.ofTokens tokens = y at halike
  cases halike with
  | error e => rfl
  | @ok d s shows =>
      obtain ⟨f, above, hlaid, rfl⟩ := shows
      obtain ⟨a, cursor⟩ := d
      obtain rfl : cursor = f.id := hlaid.cursor
      exact congrArg Except.ok hlaid.unfold_top

/-- Tokens that are read as a spine are an expression with its tree. -/
theorem Expression.ofTokens_of_spine {tokens : List String} {s : Spine}
    (h : Spine.ofTokens tokens = .ok s) :
    ∃ e, Expression.ofTokens tokens = .ok e ∧ e.tree = s.tree := by
  have hmap := Expression.map_tree_ofTokens tokens
  rw [h] at hmap
  cases he : Expression.ofTokens tokens with
  | error e =>
      rw [he] at hmap
      cases hmap
  | ok e =>
      rw [he] at hmap
      exact ⟨e, rfl, Except.ok.inj hmap⟩

/-- An expression is the tree of a spine with the same tokens. -/
theorem Expression.exists_spine {tokens : List String} {e : Expression}
    (h : Expression.ofTokens tokens = .ok e) :
    ∃ s, Spine.ofTokens tokens = .ok s ∧ e.tree = s.tree := by
  have hmap := Expression.map_tree_ofTokens tokens
  rw [h] at hmap
  cases hs : Spine.ofTokens tokens with
  | error e =>
      rw [hs] at hmap
      cases hmap
  | ok s =>
      rw [hs] at hmap
      exact ⟨s, rfl, Except.ok.inj hmap⟩

/-- Tokens are refused with the same error as a spine. -/
theorem Expression.ofTokens_eq_error_iff {tokens : List String} {err : Error} :
    Expression.ofTokens tokens = .error err ↔ Spine.ofTokens tokens = .error err := by
  have hmap := Expression.map_tree_ofTokens tokens
  refine ⟨?_, ?_⟩
  · intro h
    rw [h] at hmap
    cases hs : Spine.ofTokens tokens with
    | error e =>
        rw [hs] at hmap
        exact congrArg Except.error (Except.error.inj hmap).symm
    | ok s =>
        rw [hs] at hmap
        cases hmap
  · intro h
    rw [h] at hmap
    cases he : Expression.ofTokens tokens with
    | error e =>
        rw [he] at hmap
        exact congrArg Except.error (Except.error.inj hmap)
    | ok e =>
        rw [he] at hmap
        cases hmap

end Calculator
