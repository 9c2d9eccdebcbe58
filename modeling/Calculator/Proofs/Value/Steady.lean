/-
Steady tokens make trees that can have a value.

A token is judged only when the next one comes, since a comma asks for nothing while it is
the last token, and a closed argument list may stand unless a word follows.  By then the
spine has moved on, but it still knows what the group was: the scan and the spine agree on
the groups around the last token.
-/
import Calculator.Proofs.Value.Settled

namespace Calculator.Spine

/-! ### The last token -/

/-- Behind a comma the group has a value. -/
theorem children_of_comma {tokens : List String} {s : Spine} (h : ofTokens tokens = .ok s)
    (hplain : Plain tokens) (hlast : tokens.getLast? = some ",") :
    s.current.children ≠ [] := by
  refine ofTokens_induction (P := fun tokens s => Plain tokens → tokens.getLast? = some "," →
    s.current.children ≠ []) ?_ ?_ tokens s h hplain hlast
  · intro token kind _ hplain hlast
    obtain rfl : token = "," := Option.some.inj hlast
    exact absurd rfl hplain.comma
  · intro tokens s token kind placement _ _ hkind hplace _ hlast
    obtain rfl : token = "," := by simpa using hlast
    obtain rfl : kind = .comma := (Option.some.inj hkind).symm
    cases placement with
    | separate =>
        exact children_enclose (not_open_of_isOperand (Placement.of?_eq_separate hplace).1)
    | rightOf op => cases (Placement.of?_eq_rightOf hplace).2
    | below => exact absurd rfl (Placement.kinds_of_below hplace).2.2.1
    | factor => exact absurd rfl (Placement.kinds_of_factor hplace).2.2.1
    | close => cases (Placement.of?_eq_close hplace).2

/-- What the spine knows about the last token, and about the group that was open before it. -/
inductive LastSeen (before : List String) (last : String) (s : Spine) : Prop
  | closer (hlast : last = ")") (hkind : s.current.kind = .closedGroup)
      (hcall : InCall before ↔ role s.above = .arguments)
  | comma (hlast : last = ",") (hkind : s.current.kind = .openGroup)
      (hchildren : s.current.children ≠ []) (hcall : InCall before ↔ role s.above = .arguments)
  | node (hcloser : last ≠ ")") (hcomma : last ≠ ",")
      (hkind : Kind.of? last = some s.current.kind) (hgroup : s.current.kind ≠ .closedGroup)
      (hchildren : s.current.kind = .openGroup → s.current.children = [])

theorem lastSeen_ofTokens {tokens : List String} {s : Spine} (h : ofTokens tokens = .ok s)
    (hplain : Plain tokens) : ∃ before last, tokens = before ++ [last] ∧
      LastSeen before last s := by
  have hgrouped := grouped_ofTokens h hplain
  obtain ⟨last, hlast, hcases⟩ := (reflects_ofTokens h).last hplain
  obtain ⟨before, rfl⟩ := List.getLast?_eq_some_iff.mp hlast
  refine ⟨before, last, rfl, ?_⟩
  rcases hcases with ⟨rfl, hkind⟩ | ⟨rfl, hkind⟩ | ⟨hkind, -, hcomma, hcloser, hgroup⟩
  · exact .closer rfl hkind (by rw [role_eq_arguments_iff, hgrouped.closed before rfl])
  · refine .comma rfl hkind (children_of_comma h hplain hlast) ?_
    rw [role_eq_arguments_iff, ← inCall_comma, InCall, hgrouped.groups, groupsOf_open hkind]
    simp
  · refine .node ?_ hcomma hkind hgroup fun hopen => ?_
    · intro hsame
      subst hsame
      exact hcloser (Option.some.inj hkind).symm
    · rw [hopen] at hkind
      have hcurrent := current_of_last h hlast hkind (fun _ => Kind.noConfusion)
        Kind.noConfusion Kind.noConfusion
      rw [hcurrent]

/-! ### Every token -/

section Step

variable {before : List String} {last token : String} {s : Spine} {kind : Kind}

/-- The first token alone. -/
theorem steady_single (hplain : Plain [token]) (hkind : Kind.of? token = some kind) :
    Steady [token] ↔ Settled ⟨⟨token, kind, []⟩, []⟩ := by
  obtain ⟨hcloser, hcomma, hgroup⟩ := hplain.kind_ne hkind
  have hsteady : Steady [token] ↔ token ∉ ["+", "*", "/", "^", ")", ","] := by
    refine ⟨?_, ?_⟩
    · exact fun h => h.first token rfl
    · refine fun h => ⟨fun first hfirst => ?_, fun i hi => ?_⟩
      · obtain rfl := Option.some.inj hfirst
        exact h
      · cases hi
  have hlone : ∀ first ∈ ["+", "*", "/", "^", ")", ","], Kind.of? first ≠ some .number ∧
      Kind.of? first ≠ some .openGroup ∧ Kind.of? first ≠ some .word := by decide
  rw [hsteady]
  cases kind with
  | number =>
      rw [settled_of_complete (complete_of_isOperand rfl)]
      exact iff_of_true (fun hmem => (hlone token hmem).1 hkind)
        ((Tree.serves_number_iff hkind []).mpr rfl)
  | operator op =>
      obtain rfl := Kind.eq_of_spelling hkind rfl
      rw [settled_of_waiting (not_complete rfl Kind.noConfusion)]
      cases op with
      | minus => exact iff_of_true (by decide) ⟨⟨rfl, by simp⟩, trivial⟩
      | plus | times | divide | power =>
          refine iff_of_false (by decide) ?_
          intro hboth
          obtain ⟨⟨hadmits, -⟩, -⟩ := hboth
          cases hadmits
  | openGroup =>
      rw [settled_of_waiting (not_complete rfl fun _ => rfl)]
      exact iff_of_true (fun hmem => (hlone token hmem).2.1 hkind) ⟨⟨rfl, by simp⟩, trivial⟩
  | word =>
      rw [settled_of_waiting (not_complete rfl Kind.noConfusion)]
      exact iff_of_true (fun hmem => (hlone token hmem).2.2 hkind) ⟨⟨rfl, by simp⟩, trivial⟩
  | closer => exact absurd rfl hcloser
  | closedGroup => exact absurd rfl hgroup
  | comma => exact absurd rfl hcomma

/-- Behind an operand only a word asks for something. -/
theorem LastSeen.next_operand (h : LastSeen before last s)
    (hoperand : s.current.kind.isOperand = true) (hkind : Kind.of? token = some kind)
    (hword : kind ≠ .word) : (last = "," → InCall before) ∧
      (last = ")" → Kind.of? token = some .word → ¬InCall before) := by
  refine ⟨fun hcomma => ?_, fun _ hw => absurd (Option.some.inj (hkind.symm.trans hw)) hword⟩
  cases h with
  | closer hlast =>
      rw [hcomma] at hlast
      exact absurd hlast (by decide)
  | comma _ hopen => exact absurd hopen (not_open_of_isOperand hoperand)
  | node _ hne => exact absurd hcomma hne

/-- Where a child is waited for, a comma asks for an argument list. -/
theorem LastSeen.next_child (h : LastSeen before last s) (hproper : s.Proper)
    (hoperand : s.current.kind.isOperand = false) :
    (s.Settled ∧ (last = "," → InCall before) ∧
      (last = ")" → Kind.of? token = some .word → ¬InCall before)) ↔
      Hosting (s.current :: s.above) := by
  cases h with
  | closer _ hkind =>
      rw [hkind] at hoperand
      cases hoperand
  | comma hlast hopen hchildren hcall =>
      subst hlast
      rw [settled_of_complete (Or.inr ⟨hopen, hchildren⟩), hosting_group hproper hopen hchildren,
        hcall]
      refine ⟨?_, ?_⟩
      · intro hboth
        obtain ⟨hserves, hcomma, -⟩ := hboth
        exact ⟨hserves, hcomma rfl⟩
      · intro hboth
        obtain ⟨hserves, hrole⟩ := hboth
        exact ⟨hserves, fun _ => hrole, fun hfalse => absurd hfalse (by decide)⟩
  | node hcloser hcomma _ _ hchildren =>
      rw [settled_of_waiting (not_complete hoperand hchildren)]
      exact and_iff_left ⟨fun h => absurd h hcomma, fun h => absurd h hcloser⟩

/-- What is multiplied must not be an argument list. -/
theorem LastSeen.next_factor (h : LastSeen before last s) (hproper : s.Proper)
    (hkind : Kind.of? token = some kind)
    (hplace : Placement.of? s.current.kind kind = some .factor) :
    (s.Settled ∧ (last = "," → InCall before) ∧
      (last = ")" → Kind.of? token = some .word → ¬InCall before)) ↔
      s.Settled ∧ role s.above = .value := by
  have hoperand := (Placement.kinds_of_factor hplace).1
  cases h with
  | closer hlast hclosed hcall =>
      subst hlast
      have hword : kind = .word := by
        rcases Placement.of?_eq_factor hplace with ⟨hk, -⟩ | ⟨-, hk⟩
        · rw [hclosed] at hk
          cases hk
        · exact hk
      rw [hword] at hkind
      refine and_congr_right fun _ => ?_
      rw [hcall]
      refine ⟨?_, ?_⟩
      · intro hboth
        obtain ⟨-, hproduct⟩ := hboth
        exact (role_cases s.above).resolve_right (hproduct rfl hkind)
      · intro hrole
        refine ⟨fun hfalse => absurd hfalse (by decide), fun _ _ hcalled => ?_⟩
        rw [hrole] at hcalled
        cases hcalled
  | comma _ hopen => exact absurd hopen (not_open_of_isOperand hoperand)
  | node hcloser hcomma _ hgroup =>
      -- A number is never an argument list.
      refine and_congr_right fun hsettled => ?_
      have hserves := (serves_tree hproper.above).mp
        ((settled_of_complete (complete_of_isOperand hoperand)).mp hsettled)
      have hrole := role_of_serves hserves.1 (not_open_of_isOperand hoperand) hgroup
      exact ⟨fun _ => hrole, fun _ => ⟨fun h => absurd h hcomma, fun h => absurd h hcloser⟩⟩

theorem LastSeen.steady_place (h : LastSeen before last s) (hproper : s.Proper)
    (hsteady : Steady (before ++ [last]) ↔ s.Settled) {placement : Placement}
    (hkind : Kind.of? token = some kind)
    (hplace : Placement.of? s.current.kind kind = some placement) :
    Steady (before ++ [last] ++ [token]) ↔ (s.place token kind placement).Settled := by
  rw [steady_concat, hsteady]
  cases placement with
  | rightOf op =>
      obtain ⟨hoperand, rfl⟩ := Placement.of?_eq_rightOf hplace
      rw [Spine.place, settled_rightOf hproper hoperand]
      exact and_iff_left (h.next_operand hoperand hkind Kind.noConfusion)
  | below =>
      have hoperand := (Placement.kinds_of_below hplace).1
      have hpending := (hproper.place hkind hplace).above
      have hfits : (s.current.kind.asks = .value ∧ kind.begins = true) ∨
          (s.current.kind.asks = .arguments ∧ kind = .openGroup) := by
        rcases Placement.of?_eq_below hplace with ⟨hawaits, hbegins⟩ | ⟨hword, hopen⟩
        · refine Or.inl ⟨?_, hbegins⟩
          cases hk : s.current.kind <;> simp_all [Kind.awaits, Kind.asks]
        · rw [hword]
          exact Or.inr ⟨rfl, hopen⟩
      exact (h.next_child hproper hoperand).trans (settled_hang hpending hkind hfits).symm
  | factor =>
      rw [Spine.place, settled_factor hproper hkind hplace]
      exact h.next_factor hproper hkind hplace
  | close =>
      obtain ⟨hoperand, rfl⟩ := Placement.of?_eq_close hplace
      rw [Spine.place, settled_close hproper hoperand]
      exact and_iff_left (h.next_operand hoperand hkind Kind.noConfusion)
  | separate =>
      obtain ⟨hoperand, rfl⟩ := Placement.of?_eq_separate hplace
      rw [Spine.place, settled_enclose hoperand]
      exact and_iff_left (h.next_operand hoperand hkind Kind.noConfusion)

end Step

/-- **Steady tokens are those whose tree can still have a value.** -/
theorem steady_iff_settled {tokens : List String} {s : Spine} (h : ofTokens tokens = .ok s)
    (hplain : Plain tokens) : Steady tokens ↔ s.Settled := by
  refine ofTokens_induction (P := fun tokens s => Plain tokens → (Steady tokens ↔ s.Settled))
    ?_ ?_ tokens s h hplain
  · intro token kind hkind hplain
    exact steady_single hplain hkind
  · intro tokens s token kind placement hread ih hkind hplace hplain
    have hplain' := hplain.of_concat (ofTokens_ne_nil hread)
    have hsteady := ih hplain'
    obtain ⟨before, last, rfl, hlast⟩ := lastSeen_ofTokens hread hplain'
    exact hlast.steady_place (proper_ofTokens hread) hsteady hkind hplace

/-! ### The end -/

/-- A group without values serves only as the argument list of the word before it. -/
theorem caller_of_last {before : List String} {s : Spine} (h : Grouped (before ++ ["("]) s)
    (hopen : s.current.kind = .openGroup) :
    (∃ word ∈ before.getLast?, Kind.of? word = some .word) ↔ role s.above = .arguments := by
  have hgroups := h.groups
  have hkind : Kind.of? "(" = some .openGroup := rfl
  rw [(scan_add hkind Kind.noConfusion Kind.noConfusion).1, if_pos rfl,
    groupsOf_open hopen] at hgroups
  have hcaller : before.getLast?.filter _ = callerOf s.above :=
    congrArg OpenGroup.caller (List.cons.inj hgroups).1
  rw [role_eq_arguments_iff, ← hcaller]
  cases before.getLast? with
  | none => simp
  | some word => by_cases hword : Kind.of? word = some .word <;> simp [Option.filter, hword]

/-- A `(` at the end asks for a word before it, which makes it an argument list. -/
theorem serves_open_end {before : List String} {s : Spine} (hproper : s.Proper)
    (hgrouped : Grouped (before ++ ["("]) s) (hopen : s.current.kind = .openGroup)
    (hchildren : s.current.children = []) :
    (s.Settled ∧ ∃ word ∈ before.getLast?, Kind.of? word = some .word) ↔
      s.tree.Serves .value := by
  have hoperand : s.current.kind.isOperand = false := by
    rw [hopen]
    rfl
  rw [caller_of_last hgrouped hopen, serves_tree hproper.above, Frame.tree, hchildren, hopen,
    settled_of_waiting (not_complete hoperand fun _ => hchildren),
    Tree.serves_node_iff Kind.noConfusion]
  refine ⟨?_, ?_⟩
  · intro hboth
    obtain ⟨⟨-, habove⟩, hrole⟩ := hboth
    rw [hrole]
    exact ⟨⟨rfl, by simp⟩, habove⟩
  · intro hboth
    obtain ⟨⟨hadmits, -⟩, habove⟩ := hboth
    have hrole : role s.above = .arguments := by
      rcases role_cases s.above with hrole | hrole
      · rw [hrole] at hadmits
        cases hadmits
      · exact hrole
    refine ⟨⟨⟨?_, ?_⟩, habove⟩, hrole⟩
    · rw [hrole, hopen]
      rfl
    · rw [hchildren]
      simp

/-- A word at the end has no argument list. -/
theorem not_serves_word_end {s : Spine} (hproper : s.Proper) (hword : s.current.kind = .word) :
    ¬s.tree.Serves .value := by
  have hpending : s.current.Pending := hproper.current_pending (Or.inr hword)
  have hchildren : s.current.children = [] := by
    simpa only [Frame.Pending, hword] using hpending
  rw [serves_tree hproper.above, Frame.tree, hchildren, hword,
    Tree.serves_node_iff Kind.noConfusion]
  have hnone : ∀ r : Role, r.admits .word 0 = false := by
    intro r
    cases r <;> rfl
  intro hboth
  obtain ⟨⟨hadmits, -⟩, -⟩ := hboth
  rw [List.length_nil, hnone] at hadmits
  cases hadmits

/-- **Well-shaped tokens are those whose tree has no node that keeps it from having a
value**, if the tokens do not end in an operator. -/
theorem wellShaped_iff_serves {tokens : List String} {s : Spine} (h : ofTokens tokens = .ok s)
    (hplain : Plain tokens) (hlast : ∀ last ∈ tokens.getLast?, Operator.ofSymbol? last = none) :
    WellShaped tokens ↔ s.tree.Serves .value := by
  have hsteady := steady_iff_settled h hplain
  have hgrouped := grouped_ofTokens h hplain
  have hproper := proper_ofTokens h
  obtain ⟨before, last, rfl, hseen⟩ := lastSeen_ofTokens h hplain
  have hend : (before ++ [last]).getLast? = some last := List.getLast?_concat
  have hsplit : WellShaped (before ++ [last]) ↔ s.Settled ∧ Kind.of? last ≠ some .word ∧
      (last = "(" → ∃ word ∈ before.getLast?, Kind.of? word = some .word) := by
    rw [← hsteady]
    refine ⟨?_, ?_⟩
    · intro hboth
      obtain ⟨hs, hword, hempty⟩ := hboth
      rw [hend] at hword hempty
      rw [List.dropLast_concat] at hempty
      exact ⟨hs, hword last rfl, fun heq => hempty (congrArg some heq)⟩
    · intro hboth
      obtain ⟨hs, hword, hempty⟩ := hboth
      refine ⟨hs, ?_, ?_⟩
      · intro token htoken
        rw [hend] at htoken
        rw [← Option.some.inj htoken]
        exact hword
      · intro heq
        rw [hend] at heq
        rw [List.dropLast_concat]
        exact hempty (Option.some.inj heq)
  rw [hsplit]
  -- Behind a complete operand there is nothing more to ask.
  have hcomplete : s.Complete → Kind.of? last ≠ some .word → last ≠ "(" →
      ((s.Settled ∧ Kind.of? last ≠ some .word ∧
        (last = "(" → ∃ word ∈ before.getLast?, Kind.of? word = some .word)) ↔
      s.tree.Serves .value) := by
    intro hc hword hne
    rw [settled_of_complete hc]
    exact and_iff_left ⟨hword, fun heq => absurd heq hne⟩
  cases hseen with
  | closer heq hkind =>
      subst heq
      exact hcomplete (complete_of_isOperand (by rw [hkind]; rfl)) (by decide) (by decide)
  | comma heq hopen hchildren =>
      subst heq
      exact hcomplete (Or.inr ⟨hopen, hchildren⟩) (by decide) (by decide)
  | node hcloser hcomma hkind hgroup hchildren =>
      cases hk : s.current.kind with
      | number =>
          rw [hk] at hkind
          refine hcomplete (complete_of_isOperand (by rw [hk]; rfl)) ?_ ?_
          · rw [hkind]
            decide
          · intro hsame
            subst hsame
            cases hkind
      | operator op =>
          rw [hk] at hkind
          have hsymbol := hlast last hend
          rw [Operator.ofSymbol?_eq_some_iff.mpr (Kind.eq_of_spelling hkind rfl)] at hsymbol
          cases hsymbol
      | openGroup =>
          rw [hk] at hkind
          obtain rfl := Kind.eq_of_spelling hkind rfl
          rw [← serves_open_end hproper hgrouped hk (hchildren hk)]
          exact and_congr_right fun _ =>
            ⟨fun h => h.2 rfl, fun h => ⟨by decide, fun _ => h⟩⟩
      | word =>
          rw [hk] at hkind
          exact iff_of_false (fun h => h.2.1 hkind) (not_serves_word_end hproper hk)
      | closer =>
          rw [hk] at hkind
          exact absurd (Kind.eq_of_spelling hkind rfl) hcloser
      | closedGroup => exact absurd hk hgroup
      | comma =>
          rw [hk] at hkind
          exact absurd (Kind.eq_of_spelling hkind rfl) hcomma

end Calculator.Spine
