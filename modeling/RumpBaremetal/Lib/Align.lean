/-
Module: RumpBaremetal.Lib.Align
Layer: Lib
Purpose: Rounding to a power of two, over the naturals and as 32-bit machine code writes it: the test
  `a & (a - 1)`, the mask `x & ~(a - 1)`, and the sum `(x + (a - 1)) & ~(a - 1)`.  Also the least power of
  two above two bounds.
Trusted boundary: none
Main exports: roundUp, le_roundUp, dvd_roundUp, roundUp_add_of_dvd, isLeast_two_pow, UInt32.toNat_mask,
  UInt32.toNat_round, UInt32.test_iff
-/
import Mathlib.Tactic

/-- The least multiple of `a` that is at least `x`. -/
def roundUp (x a : Nat) : Nat := (x + (a - 1)) / a * a

theorem dvd_roundUp (x a : Nat) : a ∣ roundUp x a := Nat.dvd_mul_left a _

theorem le_roundUp {a : Nat} (ha : 0 < a) (x : Nat) : x ≤ roundUp x a := by
  have hdiv := Nat.div_add_mod (x + (a - 1)) a
  have hmod := Nat.mod_lt (x + (a - 1)) ha
  have hcomm : a * ((x + (a - 1)) / a) = roundUp x a := Nat.mul_comm _ _
  omega

theorem roundUp_lt {a : Nat} (ha : 0 < a) (x : Nat) : roundUp x a < x + a := by
  have hle : roundUp x a ≤ x + (a - 1) := Nat.div_mul_le_self _ _
  omega

/-- A multiple in front is carried through. -/
theorem roundUp_add_of_dvd {a b : Nat} (ha : 0 < a) (hb : a ∣ b) (x : Nat) :
    roundUp (b + x) a = b + roundUp x a := by
  obtain ⟨q, rfl⟩ := hb
  unfold roundUp
  rw [Nat.add_assoc, Nat.mul_add_div ha, Nat.add_mul]
  ring

/-- Nothing below a multiple is rounded past it. -/
theorem roundUp_le_of_dvd {x a c : Nat} (ha : 0 < a) (hc : a ∣ c) (hx : x ≤ c) : roundUp x a ≤ c := by
  obtain ⟨q, rfl⟩ := hc
  have hdvd := dvd_roundUp x a
  have hlt := roundUp_lt ha x
  obtain ⟨p, hp⟩ := hdvd
  rw [hp] at hlt ⊢
  have hpq : p < q + 1 := by
    refine Nat.lt_of_mul_lt_mul_left (a := a) ?_
    rw [Nat.mul_add, Nat.mul_one]
    omega
  exact Nat.mul_le_mul_left a (by omega)

/-- Among the powers of two from `2^k` on, the least that is at least `n`. -/
theorem isLeast_two_pow (k n : Nat) :
    IsLeast {p : Nat | p.isPowerOfTwo ∧ 2 ^ k ≤ p ∧ n ≤ p} (2 ^ max k (Nat.clog 2 n)) := by
  constructor
  · refine ⟨⟨_, rfl⟩, Nat.pow_le_pow_right (by decide) (le_max_left _ _), ?_⟩
    exact (Nat.clog_le_iff_le_pow (by decide)).mp (le_max_right _ _)
  · rintro p ⟨⟨j, rfl⟩, hk, hn⟩
    have hkj : k ≤ j := (Nat.pow_le_pow_iff_right (by decide)).mp hk
    have hnj : Nat.clog 2 n ≤ j := (Nat.clog_le_iff_le_pow (by decide)).mpr hn
    exact Nat.pow_le_pow_right (by decide) (max_le hkj hnj)

namespace UInt32

/-- The bits below a power of two. -/
theorem toNat_pred {a : UInt32} {k : Nat} (ha : a.toNat = 2 ^ k) : (a - 1).toNat = 2 ^ k - 1 := by
  have hone : (1 : UInt32) ≤ a := by
    rw [UInt32.le_iff_toNat_le, ha]
    exact Nat.two_pow_pos k
  rw [UInt32.toNat_sub_of_le _ _ hone, ha]
  rfl

/-- Clearing the low bits. -/
theorem toNat_mask {a : UInt32} {k : Nat} (ha : a.toNat = 2 ^ k) (x : UInt32) :
    (x &&& ~~~(a - 1)).toNat = x.toNat / 2 ^ k * 2 ^ k := by
  have hlt : 2 ^ k < 2 ^ 32 := ha ▸ a.toNat_lt
  have hpos : 0 < 2 ^ k := Nat.two_pow_pos k
  have hlow := toNat_pred ha
  have hshift : (x &&& ~~~(a - 1)).toNat = x.toNat >>> k <<< k := by
    apply Nat.eq_of_testBit_eq
    intro i
    rw [UInt32.toNat_and, UInt32.toNat_not, Nat.testBit_and, hlow, Nat.testBit_shiftLeft,
      Nat.testBit_shiftRight]
    have hnot : UInt32.size - 1 - (2 ^ k - 1) = 2 ^ 32 - (2 ^ k - 1 + 1) := by
      simp only [UInt32.size]
      omega
    rw [hnot, Nat.testBit_two_pow_sub_succ (by omega), Nat.testBit_two_pow_sub_one]
    by_cases hik : i < k
    · have hik' : ¬ k ≤ i := by omega
      simp [hik, hik']
    · have hik' : k ≤ i := by omega
      by_cases hi : i < 32
      · simp [hik, hik', hi]
      · have hzero : x.toNat.testBit i = false := by
          apply Nat.testBit_lt_two_pow
          exact lt_of_lt_of_le x.toNat_lt (Nat.pow_le_pow_right (by decide) (by omega))
        simp [hik', hi, hzero]
  rw [hshift, Nat.shiftLeft_eq, Nat.shiftRight_eq_div_pow]

/-- The machine's rounding is `roundUp` where it does not wrap. -/
theorem toNat_round {x align : UInt32} {k : Nat} (halign : align.toNat = 2 ^ k)
    (hbound : x.toNat + 2 ^ k ≤ 2 ^ 32) :
    ((x + (align - 1)) &&& ~~~(align - 1)).toNat = roundUp x.toNat (2 ^ k) := by
  have hpos : 0 < 2 ^ k := Nat.two_pow_pos k
  rw [toNat_mask halign, UInt32.toNat_add, toNat_pred halign, Nat.mod_eq_of_lt (by omega)]
  rfl

/-- The usual test accepts zero and the powers of two. -/
theorem test_iff {a : UInt32} (ha : a ≠ 0) : a &&& (a - 1) = 0 ↔ a.toNat.isPowerOfTwo := by
  have hne : a.toNat ≠ 0 := fun h => ha (UInt32.toNat_inj.mp (by simpa using h))
  have hone : (1 : UInt32) ≤ a := by
    rw [UInt32.le_iff_toNat_le]
    exact Nat.pos_of_ne_zero hne
  rw [← Nat.and_sub_one_eq_zero_iff_isPowerOfTwo hne, ← UInt32.toNat_inj, UInt32.toNat_and,
    UInt32.toNat_sub_of_le _ _ hone]
  rfl

theorem isPowerOfTwo_of_test {a : UInt32} (ha : a ≠ 0) (htest : a &&& (a - 1) = 0) :
    ∃ k, k < 32 ∧ a.toNat = 2 ^ k := by
  obtain ⟨k, hk⟩ := (test_iff ha).mp htest
  refine ⟨k, ?_, hk⟩
  by_contra hlarge
  have hlt := a.toNat_lt
  rw [hk] at hlt
  exact absurd hlt (Nat.not_lt.mpr (Nat.pow_le_pow_right (by decide) (by omega)))

end UInt32
