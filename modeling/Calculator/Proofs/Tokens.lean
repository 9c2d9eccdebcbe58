/-
What the kind of a token tells, and what its placement tells.

Five of the kinds are written in one way only, so a token of such a kind is known
entirely.  And the table of placements, read backwards, says for each placement which
kinds can have led to it; proofs about a step are a case split over placements, and
this is all they need to know of the table.
-/
import Calculator.Draft.Placement

namespace Calculator

/-! ### Kinds -/

theorem Operator.precedence_pos (op : Operator) : 0 < op.precedence := by
  cases op <;> decide

namespace Kind

/-- A complete operand: an operator, a closing parenthesis or a comma may follow it. -/
def isOperand : Kind → Bool
  | number | closedGroup => true
  | _ => false

/-- An operand has to follow. -/
def awaits : Kind → Bool
  | operator _ | openGroup => true
  | _ => false

/-- An operand may start with it. -/
def begins : Kind → Bool
  | number | openGroup | word | operator .minus => true
  | _ => false

/-- The one way in which a token of the kind is written.  Numbers and words have many. -/
def spelling? : Kind → Option String
  | operator op => some op.symbol
  | openGroup => some "("
  | closer => some ")"
  | closedGroup => some "()"
  | comma => some ","
  | number | word => none

/-- A token of a kind that is written in one way is written that way. -/
theorem eq_of_spelling {token text : String} {kind : Kind} (h : of? token = some kind)
    (hspelling : kind.spelling? = some text) : token = text := by
  unfold of? at h
  split at h
  · cases h
    cases hspelling
  · split at h
    · rename_i op hop
      cases h
      rw [Operator.ofSymbol?_eq_some_iff.mp hop]
      exact Option.some.inj hspelling
    · repeat' split at h
      all_goals cases h
      all_goals first | exact Option.some.inj hspelling | cases hspelling

/-- Only a literal is of the kind of numbers, and it denotes one. -/
theorem isSome_of_number {token : String} (h : of? token = some number) :
    (Decimal.ofLiteral? token.toList).isSome = true := by
  unfold of? at h
  split at h
  · assumption
  · repeat' split at h
    all_goals cases h

theorem isWord_of_word {token : String} (h : of? token = some word) : isWord token = true := by
  unfold of? at h
  split at h
  · cases h
  · repeat' split at h
    all_goals first | assumption | cases h

theorem of?_symbol (op : Operator) : of? op.symbol = some (operator op) := by
  cases op <;> rfl

end Kind

/-! ### Placements -/

namespace Placement

variable {previous incoming : Kind} {op : Operator}

/-- **The table read backwards**: which kinds have led to a placement. -/
theorem of?_eq_some {placement : Placement} (h : of? previous incoming = some placement) :
    match placement with
    | .rightOf op => previous.isOperand = true ∧ incoming = .operator op
    | .below => (previous.awaits = true ∧ incoming.begins = true) ∨
        (previous = .word ∧ incoming = .openGroup)
    | .factor => (previous = .number ∧ (incoming = .openGroup ∨ incoming = .word)) ∨
        (previous = .closedGroup ∧ incoming = .word)
    | .close => previous.isOperand = true ∧ incoming = .closer
    | .separate => previous.isOperand = true ∧ incoming = .comma := by
  unfold of? at h
  split at h <;> cases h <;> simp [Kind.isOperand, Kind.awaits, Kind.begins]

theorem of?_eq_rightOf (h : of? previous incoming = some (.rightOf op)) :
    previous.isOperand = true ∧ incoming = .operator op :=
  of?_eq_some h

theorem of?_eq_below (h : of? previous incoming = some .below) :
    (previous.awaits = true ∧ incoming.begins = true) ∨
      (previous = .word ∧ incoming = .openGroup) :=
  of?_eq_some h

theorem of?_eq_factor (h : of? previous incoming = some .factor) :
    (previous = .number ∧ (incoming = .openGroup ∨ incoming = .word)) ∨
      (previous = .closedGroup ∧ incoming = .word) :=
  of?_eq_some h

theorem of?_eq_close (h : of? previous incoming = some .close) :
    previous.isOperand = true ∧ incoming = .closer :=
  of?_eq_some h

theorem of?_eq_separate (h : of? previous incoming = some .separate) :
    previous.isOperand = true ∧ incoming = .comma :=
  of?_eq_some h

/-- The pairs of kinds that are multiplied without a symbol. -/
theorem eq_factor_iff {placement : Placement} (h : of? previous incoming = some placement) :
    placement = .factor ↔ (previous = .number ∧ (incoming = .openGroup ∨ incoming = .word)) ∨
      (previous = .closedGroup ∧ incoming = .word) := by
  refine ⟨?_, ?_⟩
  · intro hsame
    subst hsame
    exact of?_eq_factor h
  · rintro (⟨rfl, rfl | rfl⟩ | ⟨rfl, rfl⟩) <;> exact (Option.some.inj h).symm

/-- What hangs from the node before makes a node of its own, behind something that is not
complete. -/
theorem kinds_of_below (h : of? previous incoming = some .below) :
    previous.isOperand = false ∧ incoming ≠ .closer ∧ incoming ≠ .comma ∧
      incoming ≠ .closedGroup := by
  rcases of?_eq_below h with ⟨hawaits, hbegins⟩ | ⟨rfl, rfl⟩
  · cases previous <;> cases incoming <;> simp_all [Kind.awaits, Kind.begins, Kind.isOperand]
  · decide

/-- What is multiplied makes a node of its own, behind something complete. -/
theorem kinds_of_factor (h : of? previous incoming = some .factor) :
    previous.isOperand = true ∧ incoming ≠ .closer ∧ incoming ≠ .comma ∧
      incoming ≠ .closedGroup := by
  rcases of?_eq_factor h with ⟨rfl, rfl | rfl⟩ | ⟨rfl, rfl⟩ <;> decide

/-- Behind something that is not complete there is only one placement. -/
theorem eq_below {placement : Placement} (h : of? previous incoming = some placement)
    (hprevious : previous.isOperand = false) : placement = .below := by
  have hne : previous.isOperand ≠ true := by simp [hprevious]
  cases placement with
  | rightOf op => exact absurd (of?_eq_rightOf h).1 hne
  | below => rfl
  | factor => exact absurd (kinds_of_factor h).1 hne
  | close => exact absurd (of?_eq_close h).1 hne
  | separate => exact absurd (of?_eq_separate h).1 hne

theorem of?_closer (h : previous.isOperand = true) : of? previous .closer = some .close := by
  cases previous with
  | number | closedGroup => rfl
  | operator | openGroup | closer | word | comma => cases h

theorem of?_comma (h : previous.isOperand = true) : of? previous .comma = some .separate := by
  cases previous with
  | number | closedGroup => rfl
  | operator | openGroup | closer | word | comma => cases h

end Placement

end Calculator
