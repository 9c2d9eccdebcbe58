/-
What is written as a number.

A token is a number if it can be read as one, and it is read once more when it is evaluated.
Here the texts of which that is true are described without reading them: they are made of
digits and at most one point, and there is a digit.

A reader that accepts other texts too, such as `1e5`, `-1` or `inf`, recognises the same
tokens, as long as it is only asked about digits and points.
-/
import Mathlib.Data.List.TakeWhile
import Mathlib.Tactic.MkIffOfInductiveProp
import Calculator.Proofs.Tokens
import Calculator.Token.Run

namespace Calculator

/-- The text is made of digits, at least one, and at most one point. -/
@[mk_iff]
structure IsLiteral (text : String) : Prop where
  parts : ∀ c ∈ text.toList, isNumberPart c = true
  points : text.toList.count '.' ≤ 1
  digit : ∃ c ∈ text.toList, c.isDigit = true

/-! ### Where the point is -/

theorem isNumberPart_iff (c : Char) : isNumberPart c = true ↔ c.isDigit = true ∨ c = '.' := by
  rw [isNumberPart, Bool.or_eq_true, decide_eq_true_iff]

/-- Without a point there are digits alone. -/
theorem digits_iff (l : List Char) : (l ≠ [] ∧ ∀ c ∈ l, c.isDigit = true) ↔
    (∀ c ∈ l, isNumberPart c = true) ∧ '.' ∉ l ∧ ∃ c ∈ l, c.isDigit = true := by
  constructor
  · rintro ⟨hne, hdigits⟩
    obtain ⟨c, hc⟩ := List.exists_mem_of_ne_nil l hne
    refine ⟨fun c hc => (isNumberPart_iff c).mpr (.inl (hdigits c hc)), ?_, c, hc, hdigits c hc⟩
    intro hpoint
    exact absurd (hdigits '.' hpoint) (by decide)
  · rintro ⟨hparts, hpoint, c, hc, -⟩
    refine ⟨List.ne_nil_of_mem hc, fun c hc => ?_⟩
    rcases (isNumberPart_iff c).mp (hparts c hc) with hdigit | rfl
    · exact hdigit
    · exact absurd hc hpoint

namespace Decimal

variable {literal whole : List Char}

theorem ofLiteral?_of_not_mem (h : '.' ∉ literal) : ofLiteral? literal = ofDigits? literal [] := by
  have hdrop : literal.dropWhile (· ≠ '.') = [] := by
    rw [List.dropWhile_eq_nil_iff]
    intro c hc
    have hne : c ≠ '.' := by
      rintro rfl
      exact h hc
    exact decide_eq_true hne
  rw [ofLiteral?, hdrop]

/-- The number is split at the first point. -/
theorem ofLiteral?_append (h : '.' ∉ whole) (fraction : List Char) :
    ofLiteral? (whole ++ '.' :: fraction) = ofDigits? whole fraction := by
  have hwhole : ∀ c ∈ whole, decide (c ≠ '.') = true := by
    intro c hc
    have hne : c ≠ '.' := by
      rintro rfl
      exact h hc
    exact decide_eq_true hne
  rw [ofLiteral?, List.dropWhile_append_of_pos hwhole, List.takeWhile_append_of_pos hwhole]
  simp

end Decimal

/-! ### Literals are what can be read -/

/-- **A text can be read as a number exactly if it is a literal.** -/
theorem isSome_ofLiteral?_iff (text : String) :
    (Decimal.ofLiteral? text.toList).isSome = true ↔ IsLiteral text := by
  rw [isLiteral_iff]
  by_cases hpoint : '.' ∈ text.toList
  · obtain ⟨whole, fraction, hsplit, hwhole⟩ := List.eq_append_cons_of_mem hpoint
    have hparts : (∀ c ∈ whole ++ '.' :: fraction, isNumberPart c = true) ↔
        ∀ c ∈ whole ++ fraction, isNumberPart c = true := by
      have hpart : isNumberPart '.' = true := by decide
      simp [or_imp, forall_and, hpart]
    -- A second point would be in the fraction.
    have hpoints : (whole ++ '.' :: fraction).count '.' ≤ 1 ↔ '.' ∉ whole ++ fraction := by
      rw [List.count_append, List.count_eq_zero_of_not_mem hwhole, List.count_cons_self,
        ← List.count_eq_zero, List.count_append, List.count_eq_zero_of_not_mem hwhole]
      omega
    have hdigit : (∃ c ∈ whole ++ '.' :: fraction, c.isDigit = true) ↔
        ∃ c ∈ whole ++ fraction, c.isDigit = true := by
      have hnot : ('.').isDigit = false := by decide
      simp [or_and_right, exists_or, hnot]
    rw [hsplit, Decimal.ofLiteral?_append hwhole, Decimal.isSome_ofDigits?, digits_iff, hparts,
      hpoints, hdigit]
  · have hcount : text.toList.count '.' = 0 := List.count_eq_zero_of_not_mem hpoint
    rw [Decimal.ofLiteral?_of_not_mem hpoint, Decimal.isSome_ofDigits?, List.append_nil,
      digits_iff, hcount]
    simp [hpoint]

/-- **A token is a number exactly if it is a literal.** -/
theorem Kind.of?_eq_number_iff (text : String) : of? text = some .number ↔ IsLiteral text := by
  rw [← isSome_ofLiteral?_iff]
  constructor
  · exact isSome_of_number
  · intro h
    unfold of?
    rw [if_pos h]

/-! ### Other readers -/

/-- Of the texts of digits and points, the reader accepts the literals.  What it makes of other
texts is left open. -/
def ReadsLiterals {α : Type} (read : String → Option α) : Prop :=
  ∀ text, (∀ c ∈ text.toList, isNumberPart c = true) →
    ((read text).isSome = true ↔ IsLiteral text)

/-- Is the text not empty, made of digits and points, and accepted by the reader? -/
def isNumber {α : Type} (read : String → Option α) (text : String) : Bool :=
  !text.isEmpty && text.toList.all isNumberPart && (read text).isSome

namespace ReadsLiterals

variable {α : Type} {read : String → Option α}

theorem isSome (h : ReadsLiterals read) {text : String} (htext : IsLiteral text) :
    (read text).isSome = true :=
  (h text htext.parts).mpr htext

/-- All such readers recognise the same numbers. -/
theorem isNumber_iff (h : ReadsLiterals read) (text : String) :
    isNumber read text = true ↔ IsLiteral text := by
  rw [isNumber, Bool.and_eq_true, Bool.and_eq_true, List.all_eq_true]
  constructor
  · rintro ⟨⟨-, hparts⟩, hread⟩
    exact (h text hparts).mp hread
  · intro htext
    refine ⟨⟨?_, htext.parts⟩, h.isSome htext⟩
    obtain ⟨c, hc, -⟩ := htext.digit
    have hne : text.toList ≠ [] := List.ne_nil_of_mem hc
    simpa using hne

end ReadsLiterals

/-- A reader that accepts `inf` besides the literals. -/
def readOrInfinity (text : String) : Option Float :=
  if text = "inf" then some (1 / 0) else (Decimal.ofLiteral? text.toList).map Decimal.toFloat

theorem readsLiterals_readOrInfinity : ReadsLiterals readOrInfinity := by
  intro text hparts
  have hne : text ≠ "inf" := by
    rintro rfl
    exact absurd (hparts 'i' (by decide)) (by decide)
  rw [readOrInfinity, if_neg hne, Option.isSome_map, isSome_ofLiteral?_iff]

end Calculator
