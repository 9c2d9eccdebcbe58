/-
Parentheses around a whole text.

They make no difference to its result, be they balanced or not.  A `(` in front is an
open group without values below everything that is read.  It stays there until a `)` or
a `,` finds no open group of the text itself, and then it is used in the place of the one
that would have been made.  So one spine stays on top of some such groups that the other
does not have; and a group with one value has the value.
-/
import Calculator.Proofs.Neighbours
import Calculator.Proofs.Text.Runs
import Calculator.Proofs.Value.Agreement

namespace Calculator

/-! ### Tokens that can stand between parentheses -/

/-- The tokens begin as an operand does, and end as one does. -/
structure OperandEnds (tokens : List String) : Prop where
  first : ∃ first ∈ tokens.head?,
    Kind.of? first ∈ [some .number, some .openGroup, some .word, some (.operator .minus)]
  last : ∃ last ∈ tokens.getLast?, Kind.of? last ∈ [some .number, some .closer]

instance (tokens : List String) : Decidable (OperandEnds tokens) :=
  decidable_of_iff ((∃ first ∈ tokens.head?,
      Kind.of? first ∈ [some .number, some .openGroup, some .word, some (.operator .minus)]) ∧
    ∃ last ∈ tokens.getLast?, Kind.of? last ∈ [some .number, some .closer])
    ⟨fun h => ⟨h.1, h.2⟩, fun h => ⟨h.1, h.2⟩⟩

/-- The first token is one that an operand can begin with. -/
def Begins (tokens : List String) : Prop :=
  ∃ first rest kind, tokens = first :: rest ∧ Kind.of? first = some kind ∧ kind.begins = true

theorem Begins.continuable {tokens : List String} (h : Begins tokens) : Continuable tokens := by
  obtain ⟨first, rest, kind, rfl, hkind, hbegins⟩ := h
  refine ⟨?_, ?_⟩
  all_goals
    intro hsame
    obtain rfl := Option.some.inj hsame
    obtain rfl := Option.some.inj hkind
    cases hbegins

theorem OperandEnds.begins {tokens : List String} (h : OperandEnds tokens) : Begins tokens := by
  obtain ⟨first, hfirst, hkind⟩ := h.first
  cases tokens with
  | nil => cases hfirst
  | cons token rest =>
      obtain rfl : token = first := Option.some.inj hfirst
      simp only [List.mem_cons, List.not_mem_nil, or_false] at hkind
      rcases hkind with hk | hk | hk | hk <;> exact ⟨token, rest, _, rfl, hk, rfl⟩

/-- Behind such tokens the cursor is on a complete operand. -/
theorem OperandEnds.isOperand {tokens : List String} (h : OperandEnds tokens) {s : Spine}
    (hs : Spine.ofTokens tokens = .ok s) : s.current.kind.isOperand = true := by
  have hcontinuable := h.begins.continuable
  obtain ⟨token, htoken, heffective, -⟩ := Spine.reflects_ofTokens hs
  obtain ⟨last, hlast, hkinds⟩ := h.last
  obtain rfl : token = last := by
    rw [List.getLast?_eq_getElem?, htoken] at hlast
    exact Option.some.inj hlast
  simp only [List.mem_cons, List.not_mem_nil, or_false] at hkinds
  rcases hkinds with hk | hk
  · rw [(effectiveKind?_of_ne hk Kind.noConfusion Kind.noConfusion).1] at heffective
    rw [← Option.some.inj heffective]
    rfl
  · obtain rfl := Kind.eq_of_spelling hk rfl
    have hpos : 1 ≤ tokens.length - 1 := by
      refine Nat.one_le_iff_ne_zero.mpr fun hzero => hcontinuable.closer ?_
      rw [List.head?_eq_getElem?, ← htoken, hzero]
    rw [effectiveKind?, if_pos ⟨hpos, rfl⟩] at heffective
    rw [← Option.some.inj heffective]
    rfl

/-- An expression has the value that its spine has. -/
theorem Expression.evaluate_ofTokens {α : Type} (m : Arithmetic α) (tokens : List String) :
    (Expression.ofTokens tokens >>= Expression.evaluateIn m) =
      (Spine.ofTokens tokens >>= fun s => s.tree.evaluate m) := by
  cases hs : Spine.ofTokens tokens with
  | error err =>
      rw [Expression.ofTokens_eq_error_iff.mpr hs]
      rfl
  | ok s =>
      obtain ⟨e, he, htree⟩ := Expression.ofTokens_of_spine hs
      rw [he]
      exact congrArg (Tree.evaluate m) htree

namespace Spine

variable {α : Type} (m : Arithmetic α)

/-- What comes behind the tokens goes on from their spine. -/
theorem readBelow_append {tokens : List String} (hne : tokens ≠ []) (above : List Frame)
    (rest : List String) : readBelow above (tokens ++ rest) =
      readBelow above tokens >>= fun s => rest.foldlM step s := by
  cases above with
  | nil =>
      obtain ⟨first, others, rfl⟩ := List.exists_cons_of_ne_nil hne
      show (start first >>= fun s => (others ++ rest).foldlM step s) =
        (start first >>= fun s => others.foldlM step s) >>= fun s => rest.foldlM step s
      simp only [List.foldlM_append, bind_assoc]
  | cons f above => exact List.foldlM_append

/-! ### Open groups below -/

/-- Open groups without values. -/
def openings (n : Nat) : List Frame :=
  List.replicate n ⟨"(", .openGroup, []⟩

theorem barred_openings (n : Nat) : Barred (openings n) := by
  intro g hg
  rw [List.eq_of_mem_replicate (List.mem_of_mem_head? hg)]

theorem awaiting_openings (n : Nat) : Awaiting (openings n) := by
  cases n with
  | zero => trivial
  | succ n => exact Eq.refl true

/-- The one spine is the other on top of open groups without values. -/
def Wrapped (s t : Spine) : Prop :=
  ∃ n, t = s.atop (openings n)

/-- A group that is needed is the first of those below, or is made in the same way. -/
theorem enclose_atop_openings (s : Spine) (n : Nat) :
    ∃ m, (s.atop (openings n)).enclose = s.enclose.atop (openings m) := by
  rcases Nat.eq_zero_or_pos s.opens with hzero | hpos
  · cases n with
    | zero => exact ⟨0, by rw [openings, List.replicate_zero, atop_nil, atop_nil]⟩
    | succ n =>
        refine ⟨n, ?_⟩
        rw [openings, List.replicate_succ, enclose_atop_of_opens_eq_zero hzero rfl,
          enclose_of_opens_eq_zero hzero]
        rfl
  · exact ⟨n, enclose_atop hpos _⟩

theorem lockstep_wrapped : Lockstep Wrapped where
  current := by
    intro s t hex
    obtain ⟨n, rfl⟩ := hex
    exact ⟨rfl, rfl⟩
  place := by
    intro s t token kind placement hex _
    obtain ⟨n, rfl⟩ := hex
    cases placement with
    | rightOf | below | factor =>
        exact ⟨n, place_atop (barred_openings n) token kind (by simp)⟩
    | close =>
        obtain ⟨m, hm⟩ := enclose_atop_openings s n
        exact ⟨m, close_atop hm⟩
    | separate => exact enclose_atop_openings s n

/-- Parentheses in front are open groups below. -/
theorem readBelow_openings (n : Nat) (tokens : List String) {above : List Frame}
    (hawaiting : Awaiting above) :
    readBelow above (List.replicate n "(" ++ tokens) = readBelow (openings n ++ above) tokens := by
  induction n generalizing above with
  | zero => rfl
  | succ n ih =>
      have hgroup : Awaiting (⟨"(", .openGroup, []⟩ :: above) := Eq.refl true
      rw [List.replicate_succ, List.cons_append, readBelow_group hawaiting, ih hgroup,
        openings, openings, List.replicate_succ', List.append_assoc]
      rfl

/-- A group with one value has the value. -/
theorem evaluate_atop_openings (s : Spine) (n : Nat) :
    (s.atop (openings n)).tree.evaluate m = s.tree.evaluate m := by
  show (fold s.current (s.above ++ openings n)).evaluate m = s.tree.evaluate m
  rw [fold_append]
  show (fold s.tree.frame (openings n)).evaluate m = s.tree.evaluate m
  generalize s.tree = t
  induction n generalizing t with
  | zero => exact congrArg (Tree.evaluate m) t.tree_frame
  | succ n ih =>
      rw [openings, List.replicate_succ, fold, Tree.tree_frame]
      refine (ih (.node "(" .openGroup [t])).trans ?_
      rw [Tree.evaluate]

/-- Parentheses behind an operand can be closed, and leave the value as it is. -/
theorem foldlM_closers (n : Nat) {s : Spine} (hoperand : s.current.kind.isOperand = true) :
    ∃ t, (List.replicate n ")").foldlM step s = .ok t ∧ t.tree.evaluate m = s.tree.evaluate m := by
  induction n generalizing s with
  | zero => exact ⟨s, rfl, rfl⟩
  | succ n ih =>
      have hkind : Kind.of? ")" = some .closer := rfl
      have hstep : s.step ")" = .ok s.close :=
        step_of_placement hkind (Placement.of?_closer hoperand)
      obtain ⟨t, ht, hvalue⟩ := ih (s := s.close) rfl
      refine ⟨t, ?_, hvalue.trans (evaluate_close s)⟩
      rw [List.replicate_succ, foldlM_cons_of_step hstep, ht]

/-- The tokens are read on top of open groups as they are read alone. -/
theorem related_openings {tokens : List String} (h : Begins tokens) (n : Nat) :
    Related Wrapped (ofTokens tokens) (readBelow (openings n) tokens) := by
  obtain ⟨first, rest, kind, rfl, hkind, hbegins⟩ := h
  have hplain : ofTokens (first :: rest) = rest.foldlM step ⟨⟨first, kind, []⟩, []⟩ :=
    readBelow_cons (show Awaiting [] from trivial) hkind hbegins rest
  rw [hplain, readBelow_cons (awaiting_openings n) hkind hbegins]
  exact lockstep_wrapped.foldlM rest ⟨n, rfl⟩

theorem evaluate_parentheses {tokens : List String} (h : OperandEnds tokens) (i j : Nat) :
    (ofTokens (List.replicate i "(" ++ tokens ++ List.replicate j ")") >>= fun s =>
      s.tree.evaluate m) = (ofTokens tokens >>= fun s => s.tree.evaluate m) := by
  have hne : tokens ≠ [] := by
    obtain ⟨first, rest, kind, rfl, -⟩ := h.begins
    exact List.cons_ne_nil first rest
  have hread : ofTokens (List.replicate i "(" ++ tokens ++ List.replicate j ")") =
      readBelow (openings i) tokens >>= fun s => (List.replicate j ")").foldlM step s := by
    have hopenings := readBelow_openings i (tokens ++ List.replicate j ")")
      (show Awaiting [] from trivial)
    rw [List.append_nil, readBelow_append hne, ← List.append_assoc] at hopenings
    exact hopenings
  rw [hread, bind_assoc]
  refine ((related_openings h.begins i).bind_eq fun s t hs hwrapped => ?_).symm
  obtain ⟨n, rfl⟩ := hwrapped
  have hoperand : s.current.kind.isOperand = true := h.isOperand hs
  obtain ⟨t, ht, hvalue⟩ := foldlM_closers m j (s := s.atop (openings n)) hoperand
  rw [ht]
  exact (hvalue.trans (evaluate_atop_openings m s n)).symm

end Spine

/-- **Outer parentheses make no difference**: a text that begins and ends as an operand does
has the same result with any number of `(` before it and of `)` behind it, as many or not. -/
theorem calculate_parentheses {α : Type} (m : Arithmetic α) {text : String}
    (h : OperandEnds (tokenize text)) (i j : Nat) :
    calculateIn m (String.ofList (List.replicate i '(') ++ text ++
      String.ofList (List.replicate j ')')) = calculateIn m text := by
  show (Expression.ofTokens (tokenize _) >>= Expression.evaluateIn m) =
    (Expression.ofTokens (tokenize text) >>= Expression.evaluateIn m)
  rw [tokenize_parentheses, Expression.evaluate_ofTokens, Expression.evaluate_ofTokens,
    Spine.evaluate_parentheses m h]

/-- The `)` in the middle closes the second of the two parentheses in front, and of the three
at the end the last finds no group to close. -/
theorem calculate_two_before_three_behind :
    OperandEnds (tokenize "1,2)sin(3") ∧
      calculate "((1,2)sin(3)))" = calculate "1,2)sin(3" := by
  have hends : OperandEnds (tokenize "1,2)sin(3") := by decide
  have htext : String.ofList (List.replicate 2 '(') ++ "1,2)sin(3" ++
      String.ofList (List.replicate 3 ')') = "((1,2)sin(3)))" := by decide
  refine ⟨hends, ?_⟩
  rw [← htext]
  exact congrArg (Except.map _) (calculate_parentheses Arithmetic.words hends 2 3)

end Calculator
