/-
Module: RumpBaremetal.Lib.Counter
Layer: Lib
Purpose: 32-bit signed counters, as a C `int` that is incremented and decremented.  An increment counts as
  long as the largest value has not been reached; a counter that was moved by any increments and decrements
  holds their sum modulo the word, and shows it where the sum fits.
Trusted boundary: none
Main exports: intMax, toInt_add_one, toInt_sub_one, toInt_ofInt_eq_iff
-/
import Mathlib.Tactic

namespace Counter

/-- The largest value. -/
def intMax : Nat := 2 ^ 31 - 1

theorem toInt_le_intMax (v : Int32) : v.toInt ≤ intMax := by
  have hlt := v.toInt_lt
  simp only [intMax]
  omega

theorem toInt_add_one {v : Int32} (h : v.toInt < intMax) : (v + 1).toInt = v.toInt + 1 := by
  have hle := v.le_toInt
  rw [Int32.toInt_add, Int32.toInt_one]
  simp only [intMax] at h
  exact Int.bmod_eq_of_le (by omega) (by omega)

/-- Behind the largest value comes the smallest. -/
theorem toInt_add_one_of_eq {v : Int32} (h : v.toInt = intMax) : (v + 1).toInt = -2 ^ 31 := by
  have hv : v = Int32.maxValue := Int32.toInt_inj.mp h
  subst hv
  rfl

theorem toInt_sub_one {v : Int32} (h : 0 ≤ v.toInt) : (v - 1).toInt = v.toInt - 1 := by
  have hlt := v.toInt_lt
  rw [Int32.toInt_sub, Int32.toInt_one]
  exact Int.bmod_eq_of_le (by omega) (by omega)

theorem pos_iff {v : Int32} : 0 < v ↔ 0 < v.toInt := by
  rw [Int32.lt_iff_toInt_lt, Int32.toInt_zero]

theorem nonneg_iff {v : Int32} : 0 ≤ v ↔ 0 ≤ v.toInt := by
  rw [Int32.le_iff_toInt_le, Int32.toInt_zero]

theorem eq_zero_iff {v : Int32} : v = 0 ↔ v.toInt = 0 := by
  rw [← Int32.toInt_inj, Int32.toInt_zero]

/-- A counter shows a sum exactly where the sum fits. -/
theorem toInt_ofInt_eq_iff (n : Int) : (Int32.ofInt n).toInt = n ↔ -2 ^ 31 ≤ n ∧ n < 2 ^ 31 := by
  refine ⟨fun h => ?_, fun h => Int32.toInt_ofInt_of_le h.1 h.2⟩
  rw [← h]
  exact ⟨Int32.le_toInt _, Int32.toInt_lt _⟩

end Counter
