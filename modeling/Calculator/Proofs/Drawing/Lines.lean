/-
The lines of a drawing, and the tree they come from.

Every token has a line, and the line ends in its text.  So a drawing falls apart into its lines
again if no text has a line break in it, and no text of a token has.

The lines of a tree can be read back from the top.  A sibling starts in the column of the
corner, and everything that hangs from a node that has siblings still to come has a stroke in
that column, so the first line without that stroke is where the next sibling starts.  What the
texts look like does not matter, since the column is known; that a text has one kind only gives
the kinds.
-/
import Mathlib.Data.List.Forall2
import Calculator.Proofs.Tokens
import Calculator.Tree.Drawing

namespace Calculator

/-- The lines of a text. -/
def textLines (text : String) : List String :=
  (text.toList.splitOn '\n').map String.ofList

namespace Tree

/-! ### The lines of siblings -/

/-- The strokes of a child depend on whether siblings are still to come. -/
def strokesBefore (rest : List Tree) : Strokes :=
  if rest.isEmpty then .last else .inner

theorem branches_cons (margin : String) (t : Tree) (rest : List Tree) :
    branches margin (t :: rest) = (margin ++ (strokesBefore rest).corner ++ t.value) ::
      (branches (margin ++ (strokesBefore rest).below) t.children ++ branches margin rest) := by
  obtain ⟨value, kind, children⟩ := t
  cases rest with
  | nil =>
      show (node value kind children).branch margin .last = _
      rw [branch, branches, List.append_nil]
      rfl
  | cons next rest =>
      show (node value kind children).branch margin .inner ++ branches margin (next :: rest) = _
      rw [branch]
      rfl

/-! ### One line for each token -/

mutual

/-- The texts of the tokens, each before those that hang from it. -/
def texts : Tree → List String
  | node value _ children => value :: textsAll children

/-- The texts of the tokens of neighbouring trees. -/
def textsAll : List Tree → List String
  | [] => []
  | t :: rest => t.texts ++ textsAll rest

end

theorem textsAll_eq_flatMap (ts : List Tree) : textsAll ts = ts.flatMap texts := by
  induction ts with
  | nil => rfl
  | cons t rest ih => rw [textsAll, ih, List.flatMap_cons]

/-- The line is some strokes and then the text. -/
def EndsIn (line text : String) : Prop :=
  ∃ strokes, line = strokes ++ text

theorem endsIn_branches (margin : String) : ∀ ts : List Tree,
    List.Forall₂ EndsIn (branches margin ts) (textsAll ts)
  | [] => .nil
  | node value kind children :: rest => by
      rw [branches_cons, textsAll, texts]
      exact .cons ⟨_, rfl⟩
        (List.rel_append (endsIn_branches _ children) (endsIn_branches margin rest))

/-- **Every token has a line**, and the lines stand in preorder. -/
theorem endsIn_lines (t : Tree) : List.Forall₂ EndsIn t.lines t.texts := by
  obtain ⟨value, kind, children⟩ := t
  rw [lines, texts]
  exact .cons ⟨"", (String.empty_append).symm⟩ (endsIn_branches "" children)

/-! ### Line breaks -/

theorem unbroken_strokes (rest : List Tree) :
    '\n' ∉ (strokesBefore rest).corner.toList ∧ '\n' ∉ (strokesBefore rest).below.toList := by
  unfold strokesBefore
  split <;> decide

theorem unbroken_branches : ∀ (ts : List Tree) {margin : String}, '\n' ∉ margin.toList →
    (∀ text ∈ textsAll ts, '\n' ∉ text.toList) →
      ∀ line ∈ branches margin ts, '\n' ∉ line.toList
  | [], _ => by
      intro _ _ line hline
      cases hline
  | node value kind children :: rest, margin => by
      intro hmargin htexts line hline
      obtain ⟨hcorner, hbelow⟩ := unbroken_strokes rest
      rw [textsAll, texts, List.forall_mem_append, List.forall_mem_cons] at htexts
      obtain ⟨⟨hvalue, hchildren⟩, hrest⟩ := htexts
      rw [branches_cons, List.mem_cons, List.mem_append] at hline
      rcases hline with rfl | hline | hline
      · have hnode : '\n' ∉ (node value kind children).value.toList := hvalue
        simp [hmargin, hcorner, hnode]
      · exact unbroken_branches children (by simp [hmargin, hbelow]) hchildren line hline
      · exact unbroken_branches rest hmargin hrest line hline

/-- A drawing has the lines that it is made of. -/
theorem textLines_draw {t : Tree} (htexts : ∀ text ∈ t.texts, '\n' ∉ text.toList) :
    textLines t.draw = t.lines := by
  have hunbroken : ∀ line ∈ t.lines, '\n' ∉ line.toList := by
    obtain ⟨value, kind, children⟩ := t
    rw [texts, List.forall_mem_cons] at htexts
    rw [lines, List.forall_mem_cons]
    exact ⟨htexts.1, unbroken_branches children (by decide) htexts.2⟩
  have hne : t.lines ≠ [] := by
    obtain ⟨value, kind, children⟩ := t
    exact List.cons_ne_nil _ _
  rw [textLines, draw, String.toList_ofList,
    List.splitOn_intercalate '\n' (by simpa using hunbroken) (by simpa using hne)]
  simp

/-! ### Reading the lines back -/

/-- The texts of the tokens are written as tokens of their kinds are. -/
inductive Spelled : Tree → Prop
  | node {value : String} {kind : Kind} {children : List Tree}
      (hkind : Kind.of? value = some kind) (below : ∀ t ∈ children, t.Spelled) :
      Spelled (.node value kind children)

theorem margin_branches : ∀ (ts : List Tree) (margin : String),
    ∀ line ∈ branches margin ts, margin.toList <+: line.toList
  | [], _ => by
      intro line hline
      cases hline
  | node value kind children :: rest, margin => by
      intro line hline
      rw [branches_cons, List.mem_cons, List.mem_append] at hline
      rcases hline with rfl | hline | hline
      · rw [String.toList_append, String.toList_append, List.append_assoc]
        exact List.prefix_append _ _
      · have hdeeper := margin_branches children _ line hline
        rw [String.toList_append] at hdeeper
        exact (List.prefix_append _ _).trans hdeeper
      · exact margin_branches rest margin line hline

/-- The line has a vertical stroke in the column where the margin ends. -/
def crosses (margin line : String) : Bool :=
  (margin ++ "│").toList.isPrefixOf line.toList

theorem crosses_of_below {margin line : String}
    (h : (margin ++ Strokes.inner.below).toList <+: line.toList) : crosses margin line = true := by
  rw [crosses, List.isPrefixOf_iff_prefix]
  refine List.IsPrefix.trans ?_ h
  rw [String.toList_append, String.toList_append]
  exact (List.prefix_append_right_inj _).mpr ⟨[' ', ' '], rfl⟩

/-- A sibling has a corner there. -/
theorem not_crosses_corner (margin : String) (strokes : Strokes)
    (hstrokes : strokes = .inner ∨ strokes = .last) (value : String) :
    crosses margin (margin ++ strokes.corner ++ value) = false := by
  rw [Bool.eq_false_iff, Ne, crosses, List.isPrefixOf_iff_prefix]
  simp only [String.toList_append, List.append_assoc]
  rw [List.prefix_append_right_inj]
  intro hprefix
  rcases hstrokes with rfl | rfl
  · exact absurd (List.cons_prefix_cons.mp hprefix).1 (by decide)
  · exact absurd (List.cons_prefix_cons.mp hprefix).1 (by decide)

theorem not_crosses_head (margin : String) (ts : List Tree) :
    ∀ line ∈ (branches margin ts).head?, crosses margin line = false := by
  intro line hline
  cases ts with
  | nil => cases hline
  | cons t rest =>
      rw [branches_cons, List.head?_cons] at hline
      obtain rfl := Option.some.inj hline
      refine not_crosses_corner margin (strokesBefore rest) ?_ t.value
      unfold strokesBefore
      split <;> simp

/-- The lines of a node end where the stroke below it does. -/
theorem branches_append_inj {margin : String} {ts us rest rest' : List Tree}
    (h : branches (margin ++ Strokes.inner.below) ts ++ branches margin rest =
      branches (margin ++ Strokes.inner.below) us ++ branches margin rest') :
    branches (margin ++ Strokes.inner.below) ts = branches (margin ++ Strokes.inner.below) us ∧
      branches margin rest = branches margin rest' := by
  have htake : ∀ ts rest, (branches (margin ++ Strokes.inner.below) ts ++
      branches margin rest).takeWhile (crosses margin) =
        branches (margin ++ Strokes.inner.below) ts := by
    intro ts rest
    rw [List.takeWhile_append_of_pos fun line hline =>
      crosses_of_below (margin_branches ts _ line hline)]
    have hhead := not_crosses_head margin rest
    cases hlines : branches margin rest with
    | nil => simp
    | cons line lines =>
        rw [hlines] at hhead
        rw [List.takeWhile_cons, hhead line rfl]
        simp
  have hsame : branches (margin ++ Strokes.inner.below) ts =
      branches (margin ++ Strokes.inner.below) us := by
    rw [← htake ts rest, h, htake us rest']
  rw [hsame] at h
  exact ⟨hsame, List.append_cancel_left h⟩

/-- A line tells its strokes and its text, where its margin is known. -/
theorem line_inj {margin value value' : String} {rest rest' : List Tree}
    (h : margin ++ (strokesBefore rest).corner ++ value =
      margin ++ (strokesBefore rest').corner ++ value') :
    rest.isEmpty = rest'.isEmpty ∧ value = value' := by
  have hcorner : ((strokesBefore rest).corner ++ value).toList =
      ((strokesBefore rest').corner ++ value').toList := by
    have hlists := congrArg String.toList h
    simp only [String.toList_append, List.append_assoc] at hlists ⊢
    exact List.append_cancel_left hlists
  unfold strokesBefore at hcorner
  rw [String.toList_append, String.toList_append] at hcorner
  cases hrest : rest.isEmpty <;> cases hrest' : rest'.isEmpty <;> rw [hrest, hrest'] at hcorner
  · exact ⟨rfl, String.toList_inj.mp (List.append_cancel_left hcorner)⟩
  · exact absurd (List.cons.inj hcorner).1 (by decide)
  · exact absurd (List.cons.inj hcorner).1 (by decide)
  · exact ⟨rfl, String.toList_inj.mp (List.append_cancel_left hcorner)⟩

/-- **Siblings can be read off their lines.** -/
theorem branches_injective (margin : String) : ∀ ts us : List Tree,
    (∀ t ∈ ts, t.Spelled) → (∀ u ∈ us, u.Spelled) →
      branches margin ts = branches margin us → ts = us
  | [], [] => fun _ _ _ => rfl
  | [], u :: us => by
      intro _ _ h
      rw [branches_cons] at h
      cases h
  | t :: ts, [] => by
      intro _ _ h
      rw [branches_cons] at h
      cases h
  | node value kind children :: rest, node value' kind' children' :: rest' => by
      intro ht hu h
      rw [List.forall_mem_cons] at ht hu
      obtain ⟨⟨hkind, hbelow⟩, hrest⟩ := ht
      obtain ⟨⟨hkind', hbelow'⟩, hrest'⟩ := hu
      rw [branches_cons, branches_cons] at h
      obtain ⟨hline, hlines⟩ := List.cons.inj h
      obtain ⟨hends, hvalue⟩ := line_inj hline
      obtain rfl : value = value' := hvalue
      obtain rfl : kind = kind' := Option.some.inj (hkind.symm.trans hkind')
      have hparts : children = children' ∧ rest = rest' := by
        cases rest with
        | nil =>
            obtain rfl : rest' = [] := List.isEmpty_iff.mp hends.symm
            rw [branches, List.append_nil, List.append_nil] at hlines
            exact ⟨branches_injective _ children children' hbelow hbelow' hlines, rfl⟩
        | cons next rest =>
            obtain ⟨next', rest', rfl⟩ : ∃ next' rest'', rest' = next' :: rest'' := by
              cases rest' with
              | nil => cases hends
              | cons next' rest' => exact ⟨next', rest', rfl⟩
            obtain ⟨hdeeper, hnext⟩ := branches_append_inj hlines
            exact ⟨branches_injective _ children children' hbelow hbelow' hdeeper,
              branches_injective margin (next :: rest) (next' :: rest') hrest hrest' hnext⟩
      rw [hparts.1, hparts.2]

/-- **A tree can be read off its lines.** -/
theorem lines_injective {t u : Tree} (ht : t.Spelled) (hu : u.Spelled) (h : t.lines = u.lines) :
    t = u := by
  obtain ⟨hkind, hbelow⟩ := ht
  obtain ⟨hkind', hbelow'⟩ := hu
  rw [lines, lines] at h
  obtain ⟨rfl, hlines⟩ := List.cons.inj h
  obtain rfl := Option.some.inj (hkind.symm.trans hkind')
  rw [branches_injective "" _ _ hbelow hbelow' hlines]

end Tree

end Calculator
