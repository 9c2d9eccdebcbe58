/-
The open groups of a spine.

A spine knows which groups are open and what is in them: they are its open frames, and a
group is an argument list if the frame above it is a word.  A scan of the tokens knows the
same without a spine.  An open group has one complete value for each of its commas, since
the value behind the last comma is still growing in front of it.
-/
import Calculator.Proofs.Text.Kept
import Calculator.Proofs.Value.Scan

namespace Calculator.Spine

/-! ### Open frames -/

/-- The word whose argument list hangs below these frames, if it is one. -/
def callerOf : List Frame → Option String
  | [] => none
  | f :: _ => if f.kind = .word then some f.value else none

/-- The open groups among frames. -/
def groupsOf : List Frame → List OpenGroup
  | [] => []
  | f :: above =>
      if f.kind = .openGroup then ⟨callerOf above, f.children.length⟩ :: groupsOf above
      else groupsOf above

theorem groupsOf_open {f : Frame} (h : f.kind = .openGroup) (above : List Frame) :
    groupsOf (f :: above) = ⟨callerOf above, f.children.length⟩ :: groupsOf above := by
  rw [groupsOf, if_pos h]

theorem groupsOf_other {f : Frame} (h : f.kind ≠ .openGroup) (above : List Frame) :
    groupsOf (f :: above) = groupsOf above := by
  rw [groupsOf, if_neg h]

theorem groupsOf_eq_nil {above : List Frame} (h : ∀ f ∈ above, f.kind ≠ .openGroup) :
    groupsOf above = [] := by
  induction above with
  | nil => rfl
  | cons f above ih =>
      rw [groupsOf_other (h f List.mem_cons_self)]
      exact ih fun g hg => h g (List.mem_cons_of_mem _ hg)

/-- A walk leaves open groups as they are, up to the one that it may end on, which gains a
value. -/
theorem Rises.groupsOf_above {s t : Spine} (h : Rises s t)
    (hclosed : s.current.kind ≠ .openGroup) :
    groupsOf s.above = if t.current.kind = .openGroup
      then ⟨callerOf t.above, t.current.children.length - 1⟩ :: groupsOf t.above
      else groupsOf t.above := by
  induction h with
  | refl s => rw [if_neg hclosed]
  | @up f g above t _ rest ih =>
      by_cases hopen : g.kind = .openGroup
      · -- The walk cannot go on from an open group.
        cases rest with
        | refl => simp [groupsOf_open hopen, hopen]
        | up hg _ => exact absurd hopen hg
      · rw [← ih hopen]
        exact groupsOf_other hopen above

/-- The innermost open group gains the value before the cursor.  Where there is none, there
is one around everything. -/
theorem groupsOf_enclose {s : Spine} (hclosed : s.current.kind ≠ .openGroup) :
    (∃ n, s.enclose.current.children.length = n + 1 ∧
      groupsOf s.above = ⟨callerOf s.enclose.above, n⟩ :: groupsOf s.enclose.above) ∨
    (∃ t, groupsOf s.above = [] ∧ s.enclose = ⟨⟨"(", .openGroup, [t]⟩, []⟩) := by
  rcases enclosing_cases s.current s.above with ⟨hrises, hopen⟩ | ⟨hnone, t, -, heq⟩
  · have habove := hrises.groupsOf_above hclosed
    rw [if_pos hopen] at habove
    have hpos := List.length_pos_iff.mpr (children_enclose hclosed)
    exact Or.inl ⟨_, (Nat.sub_add_cancel hpos).symm, habove⟩
  · exact Or.inr ⟨t.tree, groupsOf_eq_nil fun f hf => hnone f (List.mem_cons_of_mem _ hf), heq⟩

/-! ### What the scan knows -/

/-- The scan of the tokens has the open groups of the spine.  Of a group that was just
closed the spine still knows whether it was an argument list. -/
structure Grouped (tokens : List String) (s : Spine) : Prop where
  groups : (scan tokens).groups = groupsOf (s.current :: s.above)
  closed : ∀ before, tokens = before ++ [")"] →
    (InCall before ↔ (callerOf s.above).isSome = true)

section Step

variable {tokens : List String} {s : Spine} {token : String} {kind : Kind}

/-- The last token is the caller of a group that is opened behind it. -/
theorem Reflects.callerOf_eq (h : Reflects tokens s) (hplain : Plain tokens) :
    callerOf (s.current :: s.above) =
      tokens.getLast?.filter fun word => Kind.of? word = some .word := by
  obtain ⟨last, hlast, hcases⟩ := h.last hplain
  rw [hlast, callerOf]
  rcases hcases with ⟨rfl, hkind⟩ | ⟨rfl, hkind⟩ | ⟨hkind, hvalue, -⟩
  · rw [hkind]
    rfl
  · rw [hkind]
    rfl
  · by_cases hword : s.current.kind = .word
    · rw [if_pos hword, ← hvalue]
      simp [Option.filter, hkind, hword]
    · rw [if_neg hword]
      simp [Option.filter, hkind, hword]

/-- A token that ends nothing leaves the groups as they are, unless it opens one. -/
theorem scan_add (hkind : Kind.of? token = some kind) (hcloser : kind ≠ .closer)
    (hcomma : kind ≠ .comma) : (scan (tokens ++ [token])).groups =
      (if kind = .openGroup then
        [⟨tokens.getLast?.filter fun word => Kind.of? word = some .word, 0⟩] else []) ++
        (scan tokens).groups ∧
      (scan (tokens ++ [token])).calls = (scan tokens).calls := by
  rw [scan_concat, ← previous_scan]
  by_cases hopen : kind = .openGroup
  · rw [if_pos hopen]
    rw [hopen] at hkind
    obtain rfl := Kind.eq_of_spelling hkind rfl
    exact ⟨rfl, rfl⟩
  · have hdelimits := delimits_eq_false hkind hopen hcloser hcomma
    simp only [delimits, Bool.or_eq_false_iff, decide_eq_false_iff_not] at hdelimits
    rw [if_neg hopen, Scan.step, if_neg hdelimits.1.1, if_neg hdelimits.1.2,
      if_neg hdelimits.2]
    exact ⟨rfl, rfl⟩

theorem not_closed (hkind : Kind.of? token = some kind) (hcloser : kind ≠ .closer)
    {before : List String} : tokens ++ [token] ≠ before ++ [")"] := by
  intro heq
  obtain rfl : token = ")" := by
    have hlast := congrArg List.getLast? heq
    simpa using hlast
  exact hcloser (Option.some.inj hkind).symm

/-- An operator takes its place among the frames without touching a group. -/
theorem Grouped.operate (h : Grouped tokens s) {t : Spine} (hrises : Rises s t)
    (hcurrent : s.current.kind ≠ .openGroup) (hclosed : t.current.kind ≠ .openGroup)
    {op : Operator} (hkind : Kind.of? token = some (.operator op)) :
    Grouped (tokens ++ [token]) (t.operate token op) := by
  refine ⟨?_, fun before heq => absurd heq (not_closed hkind Kind.noConfusion)⟩
  rw [(scan_add hkind Kind.noConfusion Kind.noConfusion).1, if_neg Kind.noConfusion, h.groups,
    groupsOf_other hcurrent, hrises.groupsOf_above hcurrent, if_neg hclosed]
  exact (groupsOf_other Kind.noConfusion t.above).symm

/-- A token hangs below the frames; below a product that was not written no group has a
caller, as behind the token before. -/
theorem Grouped.hang (h : Grouped tokens s) (hreflects : Reflects tokens s)
    (hplain : Plain tokens) {f : Frame} {above : List Frame}
    (hgroups : groupsOf (f :: above) = groupsOf (s.current :: s.above))
    (hcaller : callerOf (f :: above) = callerOf (s.current :: s.above))
    (hkind : Kind.of? token = some kind) (hcloser : kind ≠ .closer) (hcomma : kind ≠ .comma) :
    Grouped (tokens ++ [token]) (Spine.hang ⟨f, above⟩ token kind) := by
  refine ⟨?_, fun before heq => absurd heq (not_closed hkind hcloser)⟩
  rw [(scan_add hkind hcloser hcomma).1, h.groups, ← hgroups, ← hreflects.callerOf_eq hplain,
    ← hcaller]
  by_cases hopen : kind = .openGroup
  · rw [if_pos hopen]
    exact (groupsOf_open (f := ⟨token, kind, []⟩) hopen _).symm
  · rw [if_neg hopen]
    exact (groupsOf_other (f := ⟨token, kind, []⟩) hopen _).symm

theorem Grouped.close (h : Grouped tokens s) (hoperand : s.current.kind.isOperand = true) :
    Grouped (tokens ++ [")"]) s.close := by
  have hcurrent := not_open_of_isOperand hoperand
  have hgroups := h.groups
  rw [groupsOf_other hcurrent] at hgroups
  have hbefore : ∀ before, tokens ++ [")"] = before ++ [")"] → before = tokens :=
    fun before heq => (List.append_cancel_right heq).symm
  have hscan : (scan (tokens ++ [")"])).groups = (scan tokens).groups.tail := by
    rw [scan_concat]
    show (Scan.step (scan tokens) ")").groups = _
    simp only [Scan.step]
    cases (scan tokens).groups <;> rfl
  have hclose : groupsOf (s.close.current :: s.close.above) = groupsOf s.enclose.above :=
    groupsOf_other Kind.noConfusion _
  rw [hgroups] at hscan
  rcases groupsOf_enclose hcurrent with ⟨n, -, habove⟩ | ⟨t, habove, heq⟩
  · refine ⟨by rw [hscan, hclose, habove, List.tail_cons], fun before hb => ?_⟩
    rw [hbefore before hb, InCall, hgroups, habove]
    simp [Spine.close]
  · refine ⟨by rw [hscan, hclose, habove, heq]; rfl, fun before hb => ?_⟩
    rw [hbefore before hb, InCall, hgroups, habove, Spine.close, heq]
    simp [callerOf]

theorem Grouped.separate (h : Grouped tokens s) (hoperand : s.current.kind.isOperand = true) :
    Grouped (tokens ++ [","]) s.enclose := by
  have hcurrent := not_open_of_isOperand hoperand
  have hgroups := h.groups
  rw [groupsOf_other hcurrent] at hgroups
  have hkind : Kind.of? "," = some .comma := rfl
  refine ⟨?_, fun before heq => absurd heq (not_closed hkind Kind.noConfusion)⟩
  rw [scan_concat]
  simp only [Scan.step]
  rw [hgroups]
  rcases groupsOf_enclose hcurrent with ⟨n, hlen, habove⟩ | ⟨t, habove, heq⟩
  · rw [habove, groupsOf_open (kind_enclose s), hlen]
    rfl
  · rw [habove, heq]
    rfl

theorem Grouped.place (h : Grouped tokens s) (hreflects : Reflects tokens s)
    (hplain : Plain tokens) {placement : Placement} (hkind : Kind.of? token = some kind)
    (hplace : Placement.of? s.current.kind kind = some placement) :
    Grouped (tokens ++ [token]) (s.place token kind placement) := by
  cases placement with
  | rightOf op =>
      obtain ⟨hoperand, rfl⟩ := Placement.of?_eq_rightOf hplace
      have hcurrent := not_open_of_isOperand hoperand
      exact h.operate (rises_leftOperand s op hcurrent) hcurrent
        (leftOperand_not_open s op hcurrent) hkind
  | below =>
      obtain ⟨-, hcloser, hcomma, -⟩ := Placement.kinds_of_below hplace
      exact h.hang hreflects hplain rfl rfl hkind hcloser hcomma
  | factor =>
      obtain ⟨hoperand, hcloser, hcomma, -⟩ := Placement.kinds_of_factor hplace
      refine h.hang hreflects hplain ?_ ?_ hkind hcloser hcomma
      · rw [groupsOf_other (not_open_of_isOperand hoperand)]
        exact groupsOf_other Kind.noConfusion s.above
      · rw [callerOf, callerOf, if_neg (Kind.noConfusion), if_neg]
        intro hword
        rw [hword] at hoperand
        cases hoperand
  | close =>
      obtain ⟨hoperand, rfl⟩ := Placement.of?_eq_close hplace
      obtain rfl := Kind.eq_of_spelling hkind rfl
      exact h.close hoperand
  | separate =>
      obtain ⟨hoperand, rfl⟩ := Placement.of?_eq_separate hplace
      obtain rfl := Kind.eq_of_spelling hkind rfl
      exact h.separate hoperand

end Step

/-- **The scan finds the open groups of whatever was read.** -/
theorem grouped_ofTokens {tokens : List String} {s : Spine} (h : ofTokens tokens = .ok s)
    (hplain : Plain tokens) : Grouped tokens s := by
  refine ofTokens_induction (P := fun tokens s => Plain tokens → Grouped tokens s)
    ?_ ?_ tokens s h hplain
  · intro token kind hkind hplain
    obtain ⟨hcloser, hcomma, -⟩ := hplain.kind_ne hkind
    have hscan : (scan ([] ++ [token])).groups = _ := (scan_add hkind hcloser hcomma).1
    have hnot : ∀ before, [] ++ [token] ≠ before ++ [")"] := fun _ => not_closed hkind hcloser
    refine ⟨hscan.trans ?_, fun before heq => absurd heq (hnot before)⟩
    by_cases hopen : kind = .openGroup
    · rw [if_pos hopen]
      exact (groupsOf_open (f := ⟨token, kind, []⟩) hopen []).symm
    · rw [if_neg hopen]
      exact (groupsOf_other (f := ⟨token, kind, []⟩) hopen []).symm
  · intro tokens s token kind placement hread ih hkind hplace hplain
    have hplain' := hplain.of_concat (ofTokens_ne_nil hread)
    exact (ih hplain').place (reflects_ofTokens hread) hplain' hkind hplace

end Calculator.Spine
