/-
Module: RumpBaremetal.Lib.LongDivision
Layer: Lib
Purpose: Binary long division in two registers of any width.  One register holds what is left of the
  dividend, and behind it the bits of the quotient, the last of them one round late; the other holds the
  remainder.  The comparison with the divisor is made from the sign of a difference, so it is the right one
  only while that difference stays within half of the range.
Trusted boundary: none
Main exports: LongDivision.Regs, LongDivision.round, LongDivision.rounds, LongDivision.Regs.quotient,
  LongDivision.Midway, LongDivision.rounds_divide, LongDivision.leading_bits
-/
import Mathlib.Tactic

namespace LongDivision

/-- The register with the dividend and the quotient, the remainder, and the bit that is still to be shifted
    in. -/
structure Regs (w : Nat) where
  q : BitVec w
  r : BitVec w
  carry : BitVec w
deriving DecidableEq

variable {w : Nat}

/-- One round: both registers move by one bit, and the divisor is taken off if it goes in. -/
def round (d : BitVec w) (s : Regs w) : Regs w :=
  let r := s.r <<< 1 ||| s.q >>> (w - 1)
  let mask := (d - r - 1#w).sshiftRight (w - 1)
  ⟨s.q <<< 1 ||| s.carry, r - (d &&& mask), mask &&& 1#w⟩

def rounds (d : BitVec w) : Nat → Regs w → Regs w
  | 0, s => s
  | sr + 1, s => rounds d sr (round d s)

/-- The quotient, once the last bit is in. -/
def Regs.quotient (s : Regs w) : BitVec w := s.q <<< 1 ||| s.carry

/-! ### Words in exact arithmetic -/

/-- Shifting a register and filling it up from the right. -/
theorem toNat_shiftLeft_or (x y : BitVec w) {k : Nat} (hk : k ≤ w) (hy : y.toNat < 2 ^ k) :
    (x <<< k ||| y).toNat = x.toNat % 2 ^ (w - k) * 2 ^ k + y.toNat := by
  have hsplit : 2 ^ w = 2 ^ (w - k) * 2 ^ k := by rw [← Nat.pow_add, Nat.sub_add_cancel hk]
  rw [BitVec.toNat_or, BitVec.toNat_shiftLeft, Nat.shiftLeft_eq, hsplit, Nat.mul_mod_mul_right,
    ← Nat.shiftLeft_eq, Nat.shiftLeft_add_eq_or_of_lt hy]

/-- The sign, spread over the register. -/
theorem sshiftRight_sign (x : BitVec w) :
    x.sshiftRight (w - 1) = if 2 ^ (w - 1) ≤ x.toNat then BitVec.allOnes w else 0#w := by
  have hsign : x.msb = decide (2 ^ (w - 1) ≤ x.toNat) := BitVec.msb_eq_decide x
  have hbits : ∀ i < w, (x.sshiftRight (w - 1)).getLsbD i = x.msb := by
    intro i hi
    rw [BitVec.getLsbD_sshiftRight, decide_eq_false (by omega), Bool.not_false, Bool.true_and]
    split
    · rw [show w - 1 + i = w - 1 by omega, BitVec.msb_eq_getLsbD_last]
    · rfl
  apply BitVec.eq_of_getLsbD_eq
  intro i hi
  rw [hbits i hi, hsign]
  by_cases hneg : 2 ^ (w - 1) ≤ x.toNat
  · simp [hneg, hi]
  · simp [hneg]

/-- What the sign of the difference says, as long as the divisor is not too far above. -/
theorem sub_sign {d x : BitVec w} (hw : 0 < w) (htwice : x.toNat < 2 * d.toNat)
    (hnear : d.toNat ≤ x.toNat + 2 ^ (w - 1)) :
    2 ^ (w - 1) ≤ (d - x - 1#w).toNat ↔ d.toNat ≤ x.toNat := by
  have hhalf := Nat.two_pow_pred_mul_two hw
  have hpos := Nat.two_pow_pos (w - 1)
  have hd := d.isLt
  have hx := x.isLt
  have hone : (1#w).toNat = 1 := by
    rw [BitVec.toNat_ofNat, Nat.mod_eq_of_lt (by omega)]
  rw [BitVec.toNat_sub, BitVec.toNat_sub, hone, Nat.add_mod_mod]
  rcases Nat.lt_or_ge x.toNat d.toNat with hlt | hge
  · rw [show 2 ^ w - 1 + (2 ^ w - x.toNat + d.toNat) = (d.toNat - x.toNat - 1) + 2 ^ w + 2 ^ w by omega,
      Nat.add_mod_right, Nat.add_mod_right, Nat.mod_eq_of_lt (by omega)]
    omega
  · rw [show 2 ^ w - 1 + (2 ^ w - x.toNat + d.toNat) = (2 ^ w - (x.toNat - d.toNat + 1)) + 2 ^ w by omega,
      Nat.add_mod_right, Nat.mod_eq_of_lt (by omega)]
    omega

/-! ### One round -/

/-- The remainder before the divisor is taken off. -/
def Regs.shifted (s : Regs w) : Nat := 2 * s.r.toNat + s.q.toNat / 2 ^ (w - 1)

theorem topBit_lt (hw : 0 < w) (q : BitVec w) : q.toNat / 2 ^ (w - 1) < 2 := by
  rw [Nat.div_lt_iff_lt_mul (Nat.two_pow_pos _), Nat.mul_comm, Nat.two_pow_pred_mul_two hw]
  exact q.isLt

/-- A round in exact arithmetic. -/
theorem round_toNat {d : BitVec w} {s : Regs w} (hw : 0 < w) (hbelow : s.r.toNat < d.toNat)
    (hbit : s.carry.toNat ≤ 1) (hfits : s.shifted < 2 ^ w) (hnear : d.toNat ≤ s.shifted + 2 ^ (w - 1)) :
    (round d s).q.toNat = 2 * s.q.toNat % 2 ^ w + s.carry.toNat ∧
      if d.toNat ≤ s.shifted then (round d s).r.toNat = s.shifted - d.toNat ∧ (round d s).carry.toNat = 1
      else (round d s).r.toNat = s.shifted ∧ (round d s).carry.toNat = 0 := by
  have htop := topBit_lt hw s.q
  have hhalf := Nat.two_pow_pred_mul_two hw
  have hone : (1#w).toNat = 1 := by
    rw [BitVec.toNat_ofNat, Nat.mod_eq_of_lt (Nat.one_lt_two_pow (by omega))]
  have hr : (s.r <<< 1 ||| s.q >>> (w - 1)).toNat = s.shifted := by
    have hq : (s.q >>> (w - 1)).toNat = s.q.toNat / 2 ^ (w - 1) := by
      rw [BitVec.toNat_ushiftRight, Nat.shiftRight_eq_div_pow]
    unfold Regs.shifted at hfits ⊢
    rw [toNat_shiftLeft_or (k := 1) _ _ hw (by omega), hq, Nat.mod_eq_of_lt (by omega)]
    omega
  have hsign := sub_sign (d := d) (x := s.r <<< 1 ||| s.q >>> (w - 1)) hw
    (by rw [hr]; unfold Regs.shifted; omega) (by rw [hr]; exact hnear)
  rw [hr] at hsign
  constructor
  · change (s.q <<< 1 ||| s.carry).toNat = _
    rw [toNat_shiftLeft_or (k := 1) _ _ hw (by omega), ← hhalf, Nat.mul_comm 2, Nat.mul_mod_mul_right,
      Nat.pow_one]
  · unfold round
    dsimp only
    rw [sshiftRight_sign]
    by_cases hge : d.toNat ≤ s.shifted
    · rw [if_pos hge, if_pos (hsign.mpr hge), BitVec.and_allOnes, BitVec.allOnes_and, hone]
      refine ⟨?_, rfl⟩
      rw [BitVec.toNat_sub_of_le (BitVec.le_def.mpr (by rw [hr]; exact hge)), hr]
    · rw [if_neg hge, if_neg (mt hsign.mp hge), BitVec.and_zero, BitVec.zero_and, BitVec.sub_zero, hr]
      exact ⟨rfl, rfl⟩

/-! ### The invariant -/

/-- With `sr` rounds to go, the dividend `n` and the divisor `d`: the register begins with the last `sr`
    bits of the dividend, and the bits before them have been divided. -/
structure Midway (n d sr : Nat) (s : Regs w) : Prop where
  width : sr ≤ w
  below : s.r.toNat < d
  bit : s.carry.toNat ≤ 1
  rest : s.q.toNat / 2 ^ (w - sr) = n % 2 ^ sr
  equation : n / 2 ^ sr = (2 * (s.q.toNat % 2 ^ (w - sr)) + s.carry.toNat) * d + s.r.toNat

/-- The bit that leaves the register is the next of the dividend, and the others move up. -/
theorem rest_shift {sr n q : Nat} (hsr : sr + 1 ≤ w) (hrest : q / 2 ^ (w - (sr + 1)) = n % 2 ^ (sr + 1)) :
    q / 2 ^ (w - 1) = n / 2 ^ sr % 2 ∧
      2 * q % 2 ^ w = n % 2 ^ sr * 2 ^ (w - sr) + 2 * (q % 2 ^ (w - (sr + 1))) := by
  have hlast : 2 ^ (w - 1) = 2 ^ (w - (sr + 1)) * 2 ^ sr := by rw [← Nat.pow_add]; congr 1; omega
  have hleft : 2 ^ (w - sr) = 2 * 2 ^ (w - (sr + 1)) := by rw [← Nat.pow_succ']; congr 1; omega
  have hall : 2 ^ w = 2 * 2 ^ (w - (sr + 1)) * 2 ^ sr := by rw [← hleft, ← Nat.pow_add]; congr 1; omega
  rw [Nat.pow_succ] at hrest
  rw [hlast, hleft, hall]
  have hA := Nat.two_pow_pos (w - (sr + 1))
  generalize 2 ^ (w - (sr + 1)) = A at hrest hA ⊢
  have hB := Nat.two_pow_pos sr
  generalize 2 ^ sr = B at hrest hB ⊢
  constructor
  · rw [← Nat.div_div_eq_div_mul, hrest, Nat.mod_mul_right_div_self]
  · have hq := Nat.div_add_mod q A
    rw [hrest, Nat.mod_mul] at hq
    have hlow := Nat.mod_lt q hA
    have hrest' : n % B + 1 ≤ B := Nat.mod_lt n hB
    have hbound : 2 * A * (n % B + 1) ≤ 2 * A * B := Nat.mul_le_mul_left _ hrest'
    have hdouble : 2 * q = n % B * (2 * A) + 2 * (q % A) + 2 * A * B * (n / B % 2) := by
      conv_lhs => rw [← hq]
      ring
    rw [hdouble, Nat.add_mul_mod_self_left, Nat.mod_eq_of_lt]
    rw [Nat.mul_add, Nat.mul_one, Nat.mul_comm (2 * A) (n % B)] at hbound
    omega

namespace Midway

variable {n d sr : Nat} {s : Regs w}

/-- One more bit of the dividend has come in. -/
theorem shifted_eq (h : Midway n d (sr + 1) s) :
    n / 2 ^ sr = 2 * (2 * (s.q.toNat % 2 ^ (w - (sr + 1))) + s.carry.toNat) * d + s.shifted := by
  have hbit := (rest_shift h.width h.rest).1
  have hnext : n / 2 ^ sr = 2 * (n / 2 ^ (sr + 1)) + n / 2 ^ sr % 2 := by
    rw [Nat.pow_succ, ← Nat.div_div_eq_div_mul]
    omega
  calc n / 2 ^ sr = 2 * (n / 2 ^ (sr + 1)) + n / 2 ^ sr % 2 := hnext
    _ = 2 * ((2 * (s.q.toNat % 2 ^ (w - (sr + 1))) + s.carry.toNat) * d + s.r.toNat) +
        s.q.toNat / 2 ^ (w - 1) := by
        rw [h.equation, hbit]
    _ = _ := by
        rw [Regs.shifted]
        ring

theorem shifted_le (h : Midway n d (sr + 1) s) : s.shifted ≤ n := by
  have hall := Nat.div_le_self n (2 ^ sr)
  rw [h.shifted_eq] at hall
  exact (Nat.le_add_left _ _).trans hall

/-- A round that compares rightly leaves one bit less to do. -/
theorem round {d : BitVec w} (h : Midway n d.toNat (sr + 1) s) (hn : n < 2 ^ w)
    (hnear : d.toNat ≤ s.shifted + 2 ^ (w - 1)) : Midway n d.toNat sr (round d s) := by
  have hw : 0 < w := Nat.lt_of_lt_of_le (Nat.succ_pos sr) h.width
  obtain ⟨hq, hr⟩ := round_toNat hw h.below h.bit (h.shifted_le.trans_lt hn) hnear
  have hrest := (rest_shift h.width h.rest).2
  have hleft : 2 ^ (w - sr) = 2 * 2 ^ (w - (sr + 1)) := by
    have hwidth := h.width
    rw [← Nat.pow_succ']
    congr 1
    omega
  have hquotient : 2 * (s.q.toNat % 2 ^ (w - (sr + 1))) + s.carry.toNat < 2 ^ (w - sr) := by
    have hlow := Nat.mod_lt s.q.toNat (Nat.two_pow_pos (w - (sr + 1)))
    have hbit := h.bit
    omega
  rw [hrest, Nat.add_assoc] at hq
  have hdiv : (LongDivision.round d s).q.toNat / 2 ^ (w - sr) = n % 2 ^ sr := by
    rw [hq, Nat.mul_comm, Nat.mul_add_div (Nat.two_pow_pos _), Nat.div_eq_of_lt hquotient, Nat.add_zero]
  have hmod : (LongDivision.round d s).q.toNat % 2 ^ (w - sr) =
      2 * (s.q.toNat % 2 ^ (w - (sr + 1))) + s.carry.toNat := by
    rw [hq, Nat.mul_comm, Nat.mul_add_mod, Nat.mod_eq_of_lt hquotient]
  have hshifted := h.shifted_eq
  have hbelow : s.shifted < 2 * d.toNat := by
    have htop := topBit_lt hw s.q
    have hr := h.below
    unfold Regs.shifted
    omega
  by_cases hge : d.toNat ≤ s.shifted
  · rw [if_pos hge] at hr
    refine ⟨Nat.le_of_succ_le h.width, by omega, by omega, hdiv, ?_⟩
    rw [hmod, hr.1, hr.2, hshifted, Nat.add_mul, Nat.one_mul]
    omega
  · rw [if_neg hge] at hr
    refine ⟨Nat.le_of_succ_le h.width, by omega, by omega, hdiv, ?_⟩
    rw [hmod, hr.1, hr.2, Nat.add_zero, hshifted]

/-- When the last round is done. -/
theorem divided {d : Nat} (h : Midway n d 0 s) (hw : 0 < w) (hn : n < 2 ^ w) :
    s.quotient.toNat = n / d ∧ s.r.toNat = n % d := by
  have hequation := h.equation
  have hq : s.q.toNat % 2 ^ (w - 0) = s.q.toNat := Nat.mod_eq_of_lt s.q.isLt
  rw [hq, Nat.pow_zero, Nat.div_one] at hequation
  have hd : 0 < d := Nat.zero_lt_of_lt h.below
  have hquotient : n / d = 2 * s.q.toNat + s.carry.toNat := by
    rw [hequation, Nat.mul_comm, Nat.mul_add_div hd, Nat.div_eq_of_lt h.below, Nat.add_zero]
  have hremainder : n % d = s.r.toNat := by
    rw [hequation, Nat.mul_comm, Nat.mul_add_mod, Nat.mod_eq_of_lt h.below]
  refine ⟨?_, hremainder.symm⟩
  -- the quotient fits, so no bit is lost at the top
  have hfits : n / d < 2 ^ w := (Nat.div_le_self n d).trans_lt hn
  have hhalf := Nat.two_pow_pred_mul_two hw
  have hbit := h.bit
  rw [Regs.quotient, toNat_shiftLeft_or (k := 1) _ _ hw (by omega), Nat.mod_eq_of_lt (by omega), hquotient]
  omega

end Midway

/-! ### All rounds -/

/-- A divisor of no more than half of the range is never too far above. -/
theorem rounds_midway {n : Nat} {d : BitVec w} (hn : n < 2 ^ w) (hhalf : d.toNat ≤ 2 ^ (w - 1)) (sr : Nat) :
    ∀ {s : Regs w}, Midway n d.toNat sr s → Midway n d.toNat 0 (rounds d sr s) := by
  induction sr with
  | zero =>
      intro s h
      exact h
  | succ sr ih =>
      intro s h
      exact ih (h.round hn (hhalf.trans (Nat.le_add_left _ _)))

/-- The comparisons are the right ones: the divisor takes no more than half of the range, or there is one
    round and the dividend takes at least half. -/
def Near (w n d sr : Nat) : Prop := d ≤ 2 ^ (w - 1) ∨ sr = 1 ∧ 2 ^ (w - 1) ≤ n

/-- The quotient and the remainder, if the registers start with the dividend moved to the right by `sr`
    bits, which makes it less than the divisor. -/
theorem rounds_divide {n sr : Nat} {d q r : BitVec w} (hw : 0 < w) (hn : n < 2 ^ w) (hsr : sr ≤ w)
    (hbelow : n / 2 ^ sr < d.toNat) (hq : q.toNat = n % 2 ^ sr * 2 ^ (w - sr)) (hr : r.toNat = n / 2 ^ sr)
    (hnear : Near w n d.toNat sr) :
    (rounds d sr ⟨q, r, 0#w⟩).quotient.toNat = n / d.toNat ∧
    (rounds d sr ⟨q, r, 0#w⟩).r.toNat = n % d.toNat := by
  have hstart : Midway n d.toNat sr ⟨q, r, 0#w⟩ := by
    refine ⟨hsr, by rw [hr]; exact hbelow, by simp, ?_, ?_⟩
    · rw [hq, Nat.mul_div_cancel _ (Nat.two_pow_pos _)]
    · rw [hq, Nat.mul_mod_left, hr]
      simp
  refine Midway.divided ?_ hw hn
  rcases hnear with hhalf | ⟨rfl, hlarge⟩
  · exact rounds_midway hn hhalf sr hstart
  · -- there is one round, and what is compared is the whole dividend
    have hall := hstart.shifted_eq
    rw [Nat.pow_zero, Nat.div_one, hq, Nat.mul_mod_left] at hall
    have hshifted : Regs.shifted ⟨q, r, 0#w⟩ = n := by
      simpa using hall.symm
    refine hstart.round hn ?_
    have hd := d.isLt
    have hhalf := Nat.two_pow_pred_mul_two hw
    omega

/-- The number of rounds that the leading bits of the dividend and of the divisor call for. -/
theorem leading_bits {n d : Nat} (hn : n < 2 ^ w) (hd : d < 2 ^ w) (hnzero : n ≠ 0) (hzero : d ≠ 0)
    (hle : d.log2 ≤ n.log2) :
    n.log2 - d.log2 + 1 ≤ w ∧ n / 2 ^ (n.log2 - d.log2 + 1) < d ∧ Near w n d (n.log2 - d.log2 + 1) := by
  have hdlow := Nat.log2_self_le hzero
  have hnlow := Nat.log2_self_le hnzero
  have hnw := (Nat.log2_lt hnzero).mpr hn
  have hdw := (Nat.log2_lt hzero).mpr hd
  refine ⟨by omega, ?_, ?_⟩
  · refine Nat.lt_of_lt_of_le (Nat.div_lt_of_lt_mul ?_) hdlow
    rw [← Nat.pow_add, show n.log2 - d.log2 + 1 + d.log2 = n.log2 + 1 by omega]
    exact Nat.lt_log2_self
  · rcases Nat.lt_or_ge d.log2 (w - 1) with hsmall | hlarge
    · exact Or.inl ((Nat.log2_lt hzero).mp hsmall).le
    · refine Or.inr ⟨by omega, ?_⟩
      rwa [show n.log2 = w - 1 by omega] at hnlow

end LongDivision
