/-
Letters and blanks are different characters.

The two properties come from two tables, and only the tables can tell that no
character has both.  Tokens rely on it: a blank ends a word and is never part of one.
-/
import Calculator.Unicode.Alphabetic
import Calculator.Unicode.WhiteSpace

namespace Calculator.Unicode

/-- No range of blanks meets a range of letters. -/
theorem whiteSpaceRanges_disjoint :
    (whiteSpaceRanges.all fun r => alphabeticRanges.all fun s => r.2 < s.1 || s.2 < r.1) =
      true := by
  decide +kernel

/-- **A blank is no letter.** -/
theorem not_isAlphabetic_of_isWhiteSpace {c : Char} (h : isWhiteSpace c = true) :
    isAlphabetic c = false := by
  obtain ⟨r, hr, hr1, hr2⟩ := (isWhiteSpace_iff c).mp h
  rw [Bool.eq_false_iff]
  intro hc
  obtain ⟨s, hs, hs1, hs2⟩ := (isAlphabetic_iff c).mp hc
  have hdisjoint := List.all_eq_true.mp (List.all_eq_true.mp whiteSpaceRanges_disjoint r hr) s hs
  simp only [Bool.or_eq_true, decide_eq_true_eq] at hdisjoint
  omega

end Calculator.Unicode
