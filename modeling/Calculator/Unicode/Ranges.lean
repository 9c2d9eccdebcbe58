/-
Sets of code points given by ranges.

A property of characters is a table of ranges in ascending order, both ends
included.  Because the table ascends, a search may stop at the first range that
starts above the code point it looks for, which makes ASCII, the usual case, cost
only a few steps in a table of hundreds.
-/

namespace Calculator.Unicode

/-- Does one of the ascending ranges hold `n`? -/
def inRanges : List (Nat × Nat) → Nat → Bool
  | [], _ => false
  | (low, high) :: rest, n =>
      if n < low then false else n ≤ high || inRanges rest n

/-- Do the ranges ascend, each above `floor` and wholly below those after it? -/
def ascending : Nat → List (Nat × Nat) → Bool
  | _, [] => true
  | floor, (low, high) :: rest => floor ≤ low && low ≤ high && ascending (high + 1) rest

/-- No range of an ascending table starts below its floor. -/
theorem floor_le_of_ascending {ranges : List (Nat × Nat)} {floor : Nat}
    (h : ascending floor ranges = true) : ∀ r ∈ ranges, floor ≤ r.1 := by
  induction ranges generalizing floor with
  | nil => simp
  | cons r rest ih =>
      simp only [ascending, Bool.and_eq_true, decide_eq_true_eq] at h
      obtain ⟨⟨hfloor, hle⟩, hrest⟩ := h
      intro s hs
      rcases List.mem_cons.mp hs with rfl | hs
      · exact hfloor
      · have := ih hrest s hs
        omega

/-- **Stopping early loses nothing**: in an ascending table the search finds `n`
exactly if some range holds it. -/
theorem inRanges_iff {ranges : List (Nat × Nat)} {floor : Nat}
    (h : ascending floor ranges = true) (n : Nat) :
    inRanges ranges n = true ↔ ∃ r ∈ ranges, r.1 ≤ n ∧ n ≤ r.2 := by
  induction ranges generalizing floor with
  | nil => simp [inRanges]
  | cons r rest ih =>
      obtain ⟨low, high⟩ := r
      simp only [ascending, Bool.and_eq_true, decide_eq_true_eq] at h
      obtain ⟨⟨-, hle⟩, hrest⟩ := h
      have habove := floor_le_of_ascending hrest
      by_cases hlow : n < low
      · simp only [inRanges, if_pos hlow, Bool.false_eq_true, false_iff]
        rintro ⟨s, hs, hs1, -⟩
        rcases List.mem_cons.mp hs with rfl | hs
        · simp only at hs1
          omega
        · have := habove s hs
          omega
      · simp only [inRanges, if_neg hlow, Bool.or_eq_true, decide_eq_true_eq, ih hrest,
          List.mem_cons, exists_eq_or_imp]
        constructor
        · rintro (hhigh | h)
          · exact Or.inl ⟨by omega, hhigh⟩
          · exact Or.inr h
        · rintro (⟨-, hhigh⟩ | h)
          · exact Or.inl hhigh
          · exact Or.inr h

end Calculator.Unicode
