/-
A total order on doubles.

The usual comparison leaves NaN out and takes the two zeros for equal, so it cannot
sort.  The bits can: read as a number they grow with the double as long as the sign
bit is clear, and with the sign bit set they grow away from zero.  Turning the second
half round gives every word of 64 bits a rank of its own, with negative zero just below
zero.  A NaN is above infinity, or below its negative if the sign bit is set.
-/

namespace Calculator.Binary64

/-- The place of the double with these bits in the total order. -/
def wordRank (word : UInt64) : Int :=
  if 0x8000000000000000 ≤ word.toNat then -((word.toNat : Int) - 0x8000000000000000) - 1
  else word.toNat

/-- Only the same bits have the same place. -/
theorem word_eq_of_rank_eq {v w : UInt64} (h : wordRank v = wordRank w) : v = w := by
  unfold wordRank at h
  have hnat : v.toNat = w.toNat := by
    have hv := v.toNat_lt
    have hw := w.toNat_lt
    split at h <;> split at h <;> omega
  exact UInt64.toNat_inj.mp hnat

end Calculator.Binary64
