/-
What a call does to its arguments.

To sort a list is to move its values about as they are.  So whether a list is the same afterwards,
bit for bit, is a question about values and not about the doubles that they stand for: there are
many NaNs, and two zeros.

In the total order only equal values tie.  So the values of a list have one ascending order, and
that is all that the median depends on.
-/
import Calculator.Function.Call

namespace Calculator

namespace Arithmetic

variable {α : Type} (m : Arithmetic α)

/-! ### Sorting -/

/-- Any two values are comparable. -/
theorem precedes_total (x y : α) : (m.precedes x y || m.precedes y x) = true := by
  simp only [precedes, Bool.or_eq_true, decide_eq_true_eq]
  exact Int.le_total _ _

/-- The order is transitive. -/
theorem precedes_trans (x y z : α) (hxy : m.precedes x y = true) (hyz : m.precedes y z = true) :
    m.precedes x z = true := by
  simp only [precedes, decide_eq_true_eq] at *
  exact Int.le_trans hxy hyz

theorem sort_perm (slice : List α) : (m.sort slice).Perm slice :=
  List.mergeSort_perm slice m.precedes

theorem pairwise_sort (slice : List α) :
    (m.sort slice).Pairwise fun x y => m.rank x ≤ m.rank y :=
  (List.pairwise_mergeSort m.precedes_trans m.precedes_total slice).imp of_decide_eq_true

/-- **There is only one order.**  Ascending lists of the same values are the same. -/
theorem eq_of_perm {xs ys : List α} (hxs : xs.Pairwise fun x y => m.rank x ≤ m.rank y)
    (hys : ys.Pairwise fun x y => m.rank x ≤ m.rank y) (h : xs.Perm ys) : xs = ys :=
  List.Perm.eq_of_pairwise
    (fun _ _ _ _ hxy hyx => m.rank_injective (Int.le_antisymm hxy hyx)) hxs hys h

/-- A list that is ascending and has the right values is the sorted one. -/
theorem sort_eq {slice sorted : List α} (h : sorted.Pairwise fun x y => m.rank x ≤ m.rank y)
    (hperm : sorted.Perm slice) : m.sort slice = sorted :=
  m.eq_of_perm (m.pairwise_sort slice) h ((m.sort_perm slice).trans hperm.symm)

theorem sort_congr {slice other : List α} (h : other.Perm slice) : m.sort other = m.sort slice :=
  m.sort_eq (m.pairwise_sort slice) ((m.sort_perm slice).trans h.symm)

/-! ### The median -/

/-- The value that the median of a list in ascending order is. -/
inductive IsMiddle (sorted : List α) : α → Prop
  | nan {x : α} (hnone : sorted = []) (hnan : (m.toFloat x).isNaN = true) : IsMiddle sorted x
  | odd {x : α} (hodd : sorted.length % 2 = 1) (hx : sorted[sorted.length / 2]? = some x) :
      IsMiddle sorted x
  | even {x y : α} (heven : sorted.length % 2 = 0) (hpos : 0 < sorted.length)
      (hx : sorted[sorted.length / 2 - 1]? = some x) (hy : sorted[sorted.length / 2]? = some y) :
      IsMiddle sorted (m.operate .divide (m.operate .plus x y) (m.ofNat 2))

theorem isMiddle_median (slice : List α) : m.IsMiddle (m.sort slice) (m.median slice) := by
  have hlength : (m.sort slice).length = slice.length := (m.sort_perm slice).length_eq
  have hget : ∀ i < slice.length,
      (m.sort slice)[i]? = some ((m.sort slice).getD i m.nan) := by
    intro i hi
    rw [← hlength] at hi
    rw [List.getD_eq_getElem?_getD, List.getElem?_eq_getElem hi, Option.getD_some]
  unfold median
  split
  · rename_i hempty
    refine .nan (List.length_eq_zero_iff.mp ?_) m.isNaN_nan
    rw [hlength, List.isEmpty_iff.mp hempty, List.length_nil]
  · rename_i hne
    have hpos : 0 < slice.length := List.length_pos_iff.mpr fun hnil => hne (by simp [hnil])
    rw [← hlength] at hget hpos ⊢
    split
    · rename_i heven
      exact .even heven hpos (hget _ (by omega)) (hget _ (by omega))
    · rename_i hodd
      exact .odd (Nat.mod_two_ne_zero.mp hodd) (hget _ (by omega))

theorem median_congr {slice other : List α} (h : other.Perm slice) :
    m.median other = m.median slice := by
  have hempty : other.isEmpty = slice.isEmpty := by
    rw [Bool.eq_iff_iff, List.isEmpty_iff, List.isEmpty_iff]
    exact ⟨fun hnil => List.Perm.nil_eq (hnil ▸ h) |>.symm, fun hnil => List.Perm.eq_nil (hnil ▸ h)⟩
  rw [median, median, m.sort_congr h, h.length_eq, hempty]

end Arithmetic

/-! ### Names -/

/-- The median has one name only. -/
theorem Aggregate.ofName?_eq_median_iff {name : String} :
    ofName? name = some .median ↔ name = "median" := by
  refine ⟨fun h => ?_, fun h => by rw [h]; rfl⟩
  obtain ⟨before, after, htable, -⟩ := List.lookup_eq_some_iff.mp h
  have hmem : (name, Aggregate.median) ∈ table := by
    rw [htable]
    simp
  simpa [table] using hmem

namespace Arithmetic

variable {α : Type} (m : Arithmetic α) {name : String} {slice : List α}

theorem call_median (h : lowercase name = "median") :
    m.call name slice = ⟨.ok (m.median slice), m.sort slice⟩ := by
  have hname := Aggregate.ofName?_eq_median_iff.mpr h
  simp only [call, hname, Aggregate.apply, Aggregate.rearrange]

/-- The other aggregates only read their arguments, and so do the functions of one argument; a
call that has no value does not even do that. -/
theorem call_kept (h : lowercase name ≠ "median") : (m.call name slice).arguments = slice := by
  simp only [call]
  cases hname : Aggregate.ofName? (lowercase name) with
  | some g =>
      cases g with
      | median => exact absurd (Aggregate.ofName?_eq_median_iff.mp hname) h
      | mean | stdev | sum => rfl
  | none =>
      cases Unary.ofName? (lowercase name) with
      | none => rfl
      | some f =>
          obtain _ | ⟨x, _ | ⟨y, rest⟩⟩ := slice <;> rfl

end Arithmetic

/-- **Only the median moves its arguments.**  A call with any other name leaves its arguments as
they were, also if it has no value.  The median leaves them in ascending order, it is the middle
one of them, and of values that come in a different order it is the same. -/
theorem call_slice {α : Type} (m : Arithmetic α) (name : String) (slice : List α) :
    (lowercase name ≠ "median" → (m.call name slice).arguments = slice) ∧
    (lowercase name = "median" →
      (m.call name slice).arguments.Perm slice ∧
      ((m.call name slice).arguments.Pairwise fun x y => m.rank x ≤ m.rank y) ∧
      (∃ x, (m.call name slice).value = .ok x ∧ m.IsMiddle (m.call name slice).arguments x) ∧
      ∀ other : List α, other.Perm slice → m.call name other = m.call name slice) := by
  refine ⟨m.call_kept, fun hmedian => ?_⟩
  rw [m.call_median hmedian]
  refine ⟨m.sort_perm slice, m.pairwise_sort slice,
    ⟨m.median slice, rfl, m.isMiddle_median slice⟩, fun other hperm => ?_⟩
  rw [m.call_median hmedian, m.median_congr hperm, m.sort_congr hperm]

/-- A NaN with its sign set comes before everything, and negative zero before zero, in whichever
order the three are given. -/
theorem call_slice_negative_words :
    let slice := [0, 0x8000000000000000, 0xFFF8000000000000]
    let result := ⟨.ok 0x8000000000000000, [0xFFF8000000000000, 0x8000000000000000, 0]⟩
    lowercase "Median" = "median" ∧ Arithmetic.words.call "Median" slice = result ∧
      Arithmetic.words.call "Median" slice.reverse = result ∧
      (Arithmetic.words.call "Mean" slice).arguments = slice := by
  intro slice result
  have hname : lowercase "Median" = "median" := by decide
  obtain ⟨hperm, hsorted, ⟨x, hx, hmiddle⟩, hsame⟩ :=
    (call_slice Arithmetic.words "Median" slice).2 hname
  have hafter : (Arithmetic.words.call "Median" slice).arguments = result.arguments :=
    Arithmetic.words.eq_of_perm hsorted (by decide) (hperm.trans (by decide))
  rw [hafter] at hmiddle
  have hcall : Arithmetic.words.call "Median" slice = result := by
    cases hmiddle with
    | nan hnone => cases hnone
    | even heven => exact absurd heven (by decide)
    | odd hodd hvalue =>
        have hmid : result.arguments[result.arguments.length / 2]? = some 0x8000000000000000 := by
          decide
        obtain rfl : 0x8000000000000000 = x := Option.some.inj (hmid.symm.trans hvalue)
        exact Outcome.ext hx hafter
  refine ⟨hname, hcall, ?_, (call_slice Arithmetic.words "Mean" slice).1 (by decide)⟩
  rw [hsame slice.reverse (List.reverse_perm slice), hcall]

end Calculator
