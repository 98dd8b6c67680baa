/-
Module: RumpBaremetal.Proofs.Librt
Layer: Proofs
Purpose: The division routines of librt divide.  The halves of the registers move together as one register
  of 64 bits, so the loop is the long division of the library; the special cases and the number of rounds
  are read off the leading bits.  The signed functions truncate, as the operators of the language do.
Trusted boundary: none (fully proved)
Main exports: divRounds_regs, divLoop_divides, udivmoddi4_divides, unsigned_division_exact,
  signed_division_truncates, udivsi3_divides
-/
import RumpBaremetal.Kernel.Librt
import RumpBaremetal.Lib.Align
import RumpBaremetal.Lib.LongDivision

namespace RumpBaremetal

/-! ### Words in exact arithmetic -/

theorem toNat_shiftLeft_or {s : UInt32} {k : Nat} (hs : s.toNat = k) (hk : k < 32) (x : UInt32) {y : UInt32}
    (hy : y.toNat < 2 ^ k) : ((x <<< s) ||| y).toNat = x.toNat % 2 ^ (32 - k) * 2 ^ k + y.toNat := by
  have hword := LongDivision.toNat_shiftLeft_or x.toBitVec y.toBitVec hk.le hy
  rw [UInt32.toNat_or, UInt32.toNat_shiftLeft, hs, Nat.mod_eq_of_lt hk]
  rw [BitVec.toNat_or, BitVec.toNat_shiftLeft] at hword
  exact hword

theorem toNat_shiftLeft {s : UInt32} {k : Nat} (hs : s.toNat = k) (hk : k < 32) (x : UInt32) :
    (x <<< s).toNat = x.toNat % 2 ^ (32 - k) * 2 ^ k := by
  have hword := toNat_shiftLeft_or hs hk x (y := 0) (Nat.two_pow_pos k)
  simpa using hword

theorem toNat_shiftRight {s : UInt32} {k : Nat} (hs : s.toNat = k) (hk : k < 32) (x : UInt32) :
    (x >>> s).toNat = x.toNat / 2 ^ k := by
  rw [UInt32.toNat_shiftRight, hs, Nat.mod_eq_of_lt hk, Nat.shiftRight_eq_div_pow]

namespace Udwords

theorem all_toNat (x : Udwords) : x.all.toNat = x.high.toNat * 2 ^ 32 + x.low.toNat := by
  have hlow := x.low.toNat_lt
  have hhigh := x.high.toNat_lt
  simp only [all, UInt64.toNat_add, UInt64.toNat_mul, UInt32.toNat_toUInt64]
  rw [show (0x100000000 : UInt64).toNat = 2 ^ 32 from rfl]
  omega

theorem all_div (x : Udwords) : x.all.toNat / 2 ^ 32 = x.high.toNat := by
  have hlow := x.low.toNat_lt
  rw [all_toNat]
  omega

theorem all_mod (x : Udwords) : x.all.toNat % 2 ^ 32 = x.low.toNat := by
  have hlow := x.low.toNat_lt
  rw [all_toNat]
  omega

theorem ofAll_low (x : UInt64) : (ofAll x).low.toNat = x.toNat % 2 ^ 32 := by
  simp [ofAll]

theorem ofAll_high (x : UInt64) : (ofAll x).high.toNat = x.toNat / 2 ^ 32 := by
  have hlt := x.toNat_lt
  simp only [ofAll, UInt64.toNat_toUInt32, UInt64.toNat_shiftRight]
  rw [show (32 : UInt64).toNat % 64 = 32 from rfl, Nat.shiftRight_eq_div_pow]
  omega

@[simp] theorem all_ofAll (x : UInt64) : (ofAll x).all = x := by
  apply UInt64.toNat_inj.mp
  rw [all_toNat, ofAll_high, ofAll_low]
  omega

end Udwords

/-! ### The loop of `__udivmoddi4` -/

/-- The locals as registers of 64 bits. -/
def DivRegs.regs (s : DivRegs) : LongDivision.Regs 64 :=
  ⟨s.q.all.toBitVec, s.r.all.toBitVec, s.carry.toUInt64.toBitVec⟩

/-- Both halves move by one bit, and a bit comes in. -/
theorem shift_halves (x : Udwords) {c : UInt32} (hc : c.toNat < 2) :
    (Udwords.all ⟨(x.low <<< 1) ||| c, (x.high <<< 1) ||| (x.low >>> 31)⟩).toNat =
    2 * x.all.toNat % 2 ^ 64 + c.toNat := by
  have hlow := x.low.toNat_lt
  have hhigh := x.high.toNat_lt
  have htop : (x.low >>> 31).toNat = x.low.toNat / 2 ^ 31 := toNat_shiftRight rfl (by decide) x.low
  have hshift : ∀ (x : UInt32) {y : UInt32}, y.toNat < 2 →
      ((x <<< 1) ||| y).toNat = x.toNat % 2 ^ 31 * 2 + y.toNat :=
    fun x y hy => toNat_shiftLeft_or rfl (by decide) x hy
  rw [Udwords.all_toNat, Udwords.all_toNat]
  dsimp only
  rw [hshift _ hc, hshift _ (by omega), htop]
  omega

theorem shift_halves_toBitVec (x : Udwords) {c : UInt32} (hc : c.toNat < 2) :
    (Udwords.all ⟨(x.low <<< 1) ||| c, (x.high <<< 1) ||| (x.low >>> 31)⟩).toBitVec =
      x.all.toBitVec <<< 1 ||| c.toUInt64.toBitVec := by
  apply BitVec.eq_of_toNat_eq
  have hcarry : c.toUInt64.toBitVec.toNat = c.toNat := UInt32.toNat_toUInt64 c
  rw [LongDivision.toNat_shiftLeft_or (k := 1) _ _ (by decide) (by rw [hcarry]; exact hc), hcarry]
  change (Udwords.all _).toNat = x.all.toNat % 2 ^ 63 * 2 + c.toNat
  rw [shift_halves x hc]
  omega

/-- The sign of a difference, as a mask. -/
theorem sign_toBitVec (x : UInt64) :
    ((x.toInt64 >>> 63).toUInt64).toBitVec = x.toBitVec.sshiftRight 63 := by
  change (x.toInt64 >>> 63).toBitVec = _
  rw [Int64.toBitVec_shiftRight]
  rfl

theorem toNat_and_one (x : UInt64) : (x &&& 1).toNat < 2 := by
  rw [UInt64.toNat_and, show (1 : UInt64).toNat = 1 from rfl, Nat.and_one_is_mod]
  exact Nat.mod_lt _ two_pos

/-- A round moves the halves as the library moves the registers. -/
theorem divRound_regs (d : Udwords) {s : DivRegs} (hcarry : s.carry.toNat < 2) :
    (divRound d s).regs = LongDivision.round d.all.toBitVec s.regs ∧ (divRound d s).carry.toNat < 2 := by
  have htop : (s.q.high >>> 31).toNat < 2 := by
    have hlt := s.q.high.toNat_lt
    rw [toNat_shiftRight (k := 31) rfl (by decide)]
    omega
  have hin : (s.q.high >>> 31).toUInt64.toBitVec = s.q.all.toBitVec >>> 63 := by
    apply BitVec.eq_of_toNat_eq
    have hlow := s.q.low.toNat_lt
    change (s.q.high >>> 31).toUInt64.toNat = _
    rw [UInt32.toNat_toUInt64, toNat_shiftRight (k := 31) rfl (by decide), BitVec.toNat_ushiftRight,
      Nat.shiftRight_eq_div_pow]
    change _ = s.q.all.toNat / 2 ^ 63
    rw [Udwords.all_toNat]
    omega
  have hr := shift_halves_toBitVec s.r htop
  rw [hin] at hr
  have hq := shift_halves_toBitVec s.q hcarry
  unfold divRound LongDivision.round DivRegs.regs
  dsimp only
  generalize Udwords.all
    ⟨(s.r.low <<< 1) ||| (s.q.high >>> 31), (s.r.high <<< 1) ||| (s.r.low >>> 31)⟩ = r at hr ⊢
  have hsign : ((d.all - r - 1).toInt64 >>> 63).toUInt64.toBitVec =
      (d.all.toBitVec - (s.r.all.toBitVec <<< 1 ||| s.q.all.toBitVec >>> 63) - 1#64).sshiftRight 63 := by
    rw [sign_toBitVec, ← hr]
    rfl
  generalize ((d.all - r - 1).toInt64 >>> 63).toUInt64 = sign at hsign ⊢
  have hbit : (sign &&& 1).toUInt32.toNat = (sign &&& 1).toNat := by
    have hlt := toNat_and_one sign
    rw [UInt64.toNat_toUInt32]
    omega
  refine ⟨?_, hbit ▸ toNat_and_one sign⟩
  have hcarry' : (sign &&& 1).toUInt32.toUInt64 = sign &&& 1 :=
    UInt64.toNat_inj.mp (by rw [UInt32.toNat_toUInt64, hbit])
  rw [hq, Udwords.all_ofAll, hcarry', ← hsign, ← hr]
  rfl

/-- The loop is the long division of the library. -/
theorem divRounds_regs (d : Udwords) (sr : Nat) :
    ∀ {s : DivRegs}, s.carry.toNat < 2 →
      (divRounds d sr s).regs = LongDivision.rounds d.all.toBitVec sr s.regs ∧
      (divRounds d sr s).carry.toNat < 2 := by
  induction sr with
  | zero =>
      intro s hcarry
      exact ⟨rfl, hcarry⟩
  | succ sr ih =>
      intro s hcarry
      obtain ⟨hround, hbit⟩ := divRound_regs d hcarry
      obtain ⟨hrounds, hlast⟩ := ih hbit
      rw [divRounds, LongDivision.rounds, ← hround]
      exact ⟨hrounds, hlast⟩

/-- The registers hold the dividend `n`, moved to the right by `sr` bits, with what has left `r` at the top
    of `q`. -/
def Split (n : Nat) (sr : Nat) (out : Udwords × Udwords) : Prop :=
  out.1.all.toNat = n % 2 ^ sr * 2 ^ (64 - sr) ∧ out.2.all.toNat = n / 2 ^ sr

/-- The loop divides, if it runs for as many rounds as the dividend has been moved, and that is enough. -/
theorem divLoop_divides {n : Nat} {d : Udwords} {out : Udwords × Udwords} {sr : UInt32} (hn : n < 2 ^ 64)
    (hsr : sr.toNat ≤ 64) (hbelow : n / 2 ^ sr.toNat < d.all.toNat) (hsplit : Split n sr.toNat out)
    (hnear : LongDivision.Near 64 n d.all.toNat sr.toNat) :
    (divLoop d out.1 out.2 sr).1.toNat = n / d.all.toNat ∧
    (divLoop d out.1 out.2 sr).2.toNat = n % d.all.toNat := by
  have hregs := (divRounds_regs d sr.toNat (s := ⟨out.1, out.2, 0⟩) Nat.two_pos).1
  have hdivide :=
    LongDivision.rounds_divide (w := 64) (d := d.all.toBitVec) (by decide) hn hsr hbelow hsplit.1 hsplit.2
      hnear
  change _ = LongDivision.rounds _ _ ⟨_, _, 0#64⟩ at hregs
  rw [← hregs] at hdivide
  exact hdivide

/-! ### Before the loop -/

variable {n : Udwords} {sr : UInt32} {k : Nat}

theorem toNat_sub_of_le {c : UInt32} (hs : sr.toNat = k) (hk : k ≤ c.toNat) :
    (c - sr).toNat = c.toNat - k := by
  rw [UInt32.toNat_sub_of_le _ _ (UInt32.le_iff_toNat_le.mpr (hs.trans_le hk)), hs]

/-- A word moved to the left, with the top of the next one behind it. -/
theorem toNat_funnel (hs : sr.toNat = k) (hpos : 0 < k) (hk : k < 32) (x y : UInt32) :
    ((x <<< (32 - sr)) ||| (y >>> sr)).toNat = x.toNat % 2 ^ k * 2 ^ (32 - k) + y.toNat / 2 ^ k := by
  have hleft : (32 - sr).toNat = 32 - k := toNat_sub_of_le (c := 32) hs hk.le
  have hright := toNat_shiftRight hs hk y
  have hlt : y.toNat / 2 ^ k < 2 ^ (32 - k) := by
    apply Nat.div_lt_of_lt_mul
    rw [← Nat.pow_add, Nat.add_sub_cancel' hk.le]
    exact y.toNat_lt
  rw [toNat_shiftLeft_or hleft (by omega) x (hright.trans_lt hlt), hright, Nat.sub_sub_self hk.le]

/-- The whole number, moved to the right by less than a word. -/
theorem shiftRight_halves (hs : sr.toNat = k) (hpos : 0 < k) (hk : k < 32) (n : Udwords) :
    (Udwords.all ⟨(n.high <<< (32 - sr)) ||| (n.low >>> sr), n.high >>> sr⟩).toNat =
    n.all.toNat / 2 ^ k := by
  have hword : 2 ^ 32 = 2 ^ k * 2 ^ (32 - k) := by rw [← Nat.pow_add, Nat.add_sub_cancel' hk.le]
  rw [Udwords.all_toNat]
  dsimp only
  rw [toNat_funnel hs hpos hk, toNat_shiftRight hs hk]
  symm
  calc n.all.toNat / 2 ^ k = (2 ^ k * (n.high.toNat * 2 ^ (32 - k)) + n.low.toNat) / 2 ^ k := by
        rw [Udwords.all_toNat, hword, Nat.mul_left_comm]
    _ = n.high.toNat * 2 ^ (32 - k) + n.low.toNat / 2 ^ k := Nat.mul_add_div (Nat.two_pow_pos k) _ _
    _ = (2 ^ k * (n.high.toNat / 2 ^ k) + n.high.toNat % 2 ^ k) * 2 ^ (32 - k) + n.low.toNat / 2 ^ k := by
        rw [Nat.div_add_mod]
    _ = _ := by
        rw [hword]
        ring

theorem splitLow_split (hs : sr.toNat = k) (hpos : 0 < k) (hk : k < 32) :
    Split n.all.toNat k (splitLow n sr) := by
  refine ⟨?_, shiftRight_halves hs hpos hk n⟩
  have hleft : (32 - sr).toNat = 32 - k := toNat_sub_of_le (c := 32) hs hk.le
  have hdvd : 2 ^ k ∣ n.high.toNat * 2 ^ 32 := (Nat.pow_dvd_pow 2 hk.le).mul_left _
  have hword : 2 ^ (64 - k) = 2 ^ (32 - k) * 2 ^ 32 := by
    rw [← Nat.pow_add]
    congr 1
    omega
  calc (splitLow n sr).1.all.toNat = (n.low <<< (32 - sr)).toNat * 2 ^ 32 := by
        rw [splitLow, Udwords.all_toNat, UInt32.toNat_zero, Nat.add_zero]
    _ = n.low.toNat % 2 ^ k * 2 ^ (64 - k) := by
        rw [toNat_shiftLeft hleft (by omega), Nat.sub_sub_self hk.le, hword, Nat.mul_assoc]
    _ = n.all.toNat % 2 ^ k * 2 ^ (64 - k) := by
        rw [Udwords.all_toNat, Nat.add_mod, Nat.mod_eq_zero_of_dvd hdvd, Nat.zero_add, Nat.mod_mod]

theorem splitMiddle_split : Split n.all.toNat 32 (splitMiddle n) := by
  have hlow := n.low.toNat_lt
  unfold Split splitMiddle
  rw [Udwords.all_toNat, Udwords.all_toNat, Udwords.all_toNat, UInt32.toNat_zero]
  dsimp only
  omega

theorem splitHigh_split (hs : sr.toNat = 32 + k) (hpos : 0 < k) (hk : k < 32) :
    Split n.all.toNat (32 + k) (splitHigh n sr) := by
  have hright : (sr - 32).toNat = k := by
    rw [UInt32.toNat_sub_of_le _ _ (UInt32.le_iff_toNat_le.mpr (by rw [hs]; exact Nat.le_add_right 32 k)),
      hs]
    exact Nat.add_sub_cancel_left 32 k
  have hleft : 64 - sr = 32 - (sr - 32) := by
    apply UInt32.toNat_inj.mp
    rw [toNat_sub_of_le (c := 64) hs (by change 32 + k ≤ 64; omega), toNat_sub_of_le (c := 32) hright hk.le]
    change 64 - (32 + k) = 32 - k
    omega
  have hshift : (32 - (sr - 32)).toNat = 32 - k := toNat_sub_of_le (c := 32) hright hk.le
  have hword : 2 ^ 32 = 2 ^ k * 2 ^ (32 - k) := by rw [← Nat.pow_add, Nat.add_sub_cancel' hk.le]
  rw [Split, Nat.pow_add, ← Nat.div_div_eq_div_mul, Nat.mod_mul, n.all_div, n.all_mod, splitHigh, hleft,
    Udwords.all_toNat,
    Udwords.all_toNat]
  dsimp only
  rw [toNat_funnel hright hpos hk, toNat_shiftLeft hshift (by omega), toNat_shiftRight hright hk,
    UInt32.toNat_zero,
    Nat.sub_sub_self hk.le]
  refine ⟨?_, by omega⟩
  rw [show 64 - (32 + k) = 32 - k by omega]
  calc (n.high.toNat % 2 ^ k * 2 ^ (32 - k) + n.low.toNat / 2 ^ k) * 2 ^ 32 +
        n.low.toNat % 2 ^ k * 2 ^ (32 - k)
      = (2 ^ k * (n.low.toNat / 2 ^ k) + n.low.toNat % 2 ^ k + 2 ^ 32 * (n.high.toNat % 2 ^ k)) *
        2 ^ (32 - k) := by
        rw [hword]
        ring
    _ = _ := by rw [Nat.div_add_mod]

/-! ### How many rounds -/

theorem toNat_builtinClz (x : UInt32) : (builtinClz x).toNat = 31 - x.toNat.log2 := by
  rw [builtinClz, UInt32.toNat_ofNat', Nat.mod_eq_of_lt (by omega)]

theorem toNat_ne_zero {x : UInt32} (hx : x ≠ 0) : x.toNat ≠ 0 := mt (fun h => UInt32.toNat_inj.mp h) hx

theorem log2_lt {x : UInt32} (hx : x ≠ 0) : x.toNat.log2 < 32 :=
  (Nat.log2_lt (toNat_ne_zero hx)).mpr x.toNat_lt

theorem eq_one_of_log2 {x : UInt32} (hx : x ≠ 0) (hzero : x.toNat.log2 = 0) : x = 1 := by
  have hless : x.toNat < 2 := (Nat.log2_lt (toNat_ne_zero hx)).mp (hzero ▸ Nat.one_pos)
  have hpos := toNat_ne_zero hx
  apply UInt32.toNat_inj.mp
  rw [UInt32.toNat_one]
  omega

/-- One is a power of two. -/
theorem log2_pos_of_test {x : UInt32} (hx : x ≠ 0) (htest : x &&& (x - 1) ≠ 0) : 0 < x.toNat.log2 := by
  apply Nat.pos_of_ne_zero
  intro hzero
  exact htest (by rw [eq_one_of_log2 hx hzero]; rfl)

/-- The leading bit of a number is that of its high half. -/
theorem log2_all (hhigh : n.high ≠ 0) : n.all.toNat.log2 = n.high.toNat.log2 + 32 := by
  have hne := toNat_ne_zero hhigh
  have hlow := n.low.toNat_lt
  have hleast := Nat.log2_self_le hne
  have hmost : n.high.toNat < 2 ^ (n.high.toNat.log2 + 1) := Nat.lt_log2_self
  rw [Udwords.all_toNat, Nat.log2_eq_iff (by omega), Nat.pow_add, Nat.pow_add, Nat.pow_add]
  rw [Nat.pow_add] at hmost
  omega

/-- The difference of the leading zeros is the distance of the leading bits, and out of range if the divisor
    is the longer one. -/
theorem clz_sub {x y : UInt32} (hx : x ≠ 0) (hy : y ≠ 0) :
    if y.toNat.log2 ≤ x.toNat.log2 then (builtinClz y - builtinClz x).toNat = x.toNat.log2 - y.toNat.log2
    else 32 ≤ (builtinClz y - builtinClz x).toNat := by
  have hxlt := log2_lt hx
  have hylt := log2_lt hy
  rw [UInt32.toNat_sub, toNat_builtinClz, toNat_builtinClz]
  split
  all_goals omega

/-- A power of two has as many zeros behind its last one as its exponent says. -/
theorem trailingZeros_two_pow (bits : Nat) : ∀ {k : Nat}, k < bits → trailingZeros bits (2 ^ k) = k := by
  induction bits with
  | zero =>
      intro k hk
      exact absurd hk (Nat.not_lt_zero k)
  | succ bits ih =>
      intro k hk
      cases k with
      | zero => rfl
      | succ k =>
          have heven : ¬ 2 ^ (k + 1) % 2 = 1 := by
            rw [Nat.pow_succ, Nat.mul_mod_left]
            exact Nat.zero_ne_one
          have hhalf : 2 ^ (k + 1) / 2 = 2 ^ k := by rw [Nat.pow_succ, Nat.mul_div_cancel _ two_pos]
          rw [trailingZeros, if_neg heven, hhalf, ih (Nat.lt_of_succ_lt_succ hk)]

theorem builtinCtz_two_pow {x : UInt32} (hk : k < 32) (hx : x.toNat = 2 ^ k) :
    (builtinCtz x).toNat = k := by
  rw [builtinCtz, hx, trailingZeros_two_pow 32 hk, UInt32.toNat_ofNat', Nat.mod_eq_of_lt (by omega)]

/-! ### Every case of `__udivmoddi4` -/

/-- What is returned is the quotient and what is stored the remainder. -/
def Divides (n d : Udwords) (out : UInt64 × UInt64) : Prop :=
  out.1.toNat = n.all.toNat / d.all.toNat ∧ out.2.toNat = n.all.toNat % d.all.toNat

variable {d : Udwords}

theorem divides_of_lt (hlt : n.all.toNat < d.all.toNat) : Divides n d (0, n.all) :=
  ⟨(Nat.div_eq_of_lt hlt).symm, (Nat.mod_eq_of_lt hlt).symm⟩

/-- The loop, for the number of rounds that the leading bits call for. -/
theorem divides_of_loop {out : Udwords × Udwords} (hn : n.all.toNat ≠ 0) (hd : d.all.toNat ≠ 0)
    (hle : d.all.toNat.log2 ≤ n.all.toNat.log2) (hsr : sr.toNat = n.all.toNat.log2 - d.all.toNat.log2 + 1)
    (hsplit : Split n.all.toNat sr.toNat out) : Divides n d (divLoop d out.1 out.2 sr) := by
  obtain ⟨hwidth, hbelow, hnear⟩ := LongDivision.leading_bits n.all.toNat_lt d.all.toNat_lt hn hd hle
  rw [← hsr] at hwidth hbelow hnear
  exact divLoop_divides n.all.toNat_lt hwidth hbelow hsplit hnear

/-- `0 X / 0 X` -/
theorem divides_low (hn : n.high = 0) (hd : d.high = 0) :
    Divides n d ((n.low / d.low).toUInt64, (n.low % d.low).toUInt64) := by
  have hnall : n.all.toNat = n.low.toNat := by rw [Udwords.all_toNat, hn]; simp
  have hdall : d.all.toNat = d.low.toNat := by rw [Udwords.all_toNat, hd]; simp
  rw [Divides, hnall, hdall, UInt32.toNat_toUInt64, UInt32.toNat_toUInt64, UInt32.toNat_div,
    UInt32.toNat_mod]
  exact ⟨rfl, rfl⟩

/-- A shorter dividend. -/
theorem lt_of_log2_lt {a b : Nat} (hb : b ≠ 0) (hlt : a.log2 < b.log2) : a < b := by
  calc a < 2 ^ (a.log2 + 1) := Nat.lt_log2_self
    _ ≤ 2 ^ b.log2 := Nat.pow_le_pow_right two_pos hlt
    _ ≤ b := Nat.log2_self_le hb

/-- A divisor whose low half is zero divides the high half, and the low half is left. -/
theorem divides_high (hd : d.low = 0) {q r : UInt64} (hq : q.toNat = n.high.toNat / d.high.toNat)
    (hr : r.toNat = n.high.toNat % d.high.toNat * 2 ^ 32 + n.low.toNat) : Divides n d (q, r) := by
  have hall : d.all.toNat = 2 ^ 32 * d.high.toNat := by
    rw [Udwords.all_toNat, hd, UInt32.toNat_zero, Nat.add_zero, Nat.mul_comm]
  rw [Divides, hall, ← Nat.div_div_eq_div_mul, Nat.mod_mul, n.all_div, n.all_mod, hq, hr]
  exact ⟨rfl, by omega⟩

theorem toNat_and_pred {x y : UInt32} (hx : x.toNat = 2 ^ k) : (y &&& (x - 1)).toNat = y.toNat % 2 ^ k := by
  rw [UInt32.toNat_and, UInt32.toNat_pred hx, Nat.and_two_pow_sub_one_eq_mod]

theorem all_ne_zero (hn : n.high ≠ 0) : n.all.toNat ≠ 0 := by
  have hhigh := toNat_ne_zero hn
  rw [Udwords.all_toNat]
  omega

/-- If both high halves are there, the difference of their leading zeros tells which number is the longer
    one, and by how much. -/
theorem clz_sub_cases (hn : n.high ≠ 0) (hd : d.high ≠ 0) :
    31 < (builtinClz d.high - builtinClz n.high).toNat ∧ n.all.toNat < d.all.toNat ∨
      d.all.toNat.log2 ≤ n.all.toNat.log2 ∧
        (builtinClz d.high - builtinClz n.high).toNat = n.all.toNat.log2 - d.all.toNat.log2 := by
  have hsub := clz_sub hn hd
  have hnlog := log2_all hn
  have hdlog := log2_all hd
  split at hsub
  · exact Or.inr ⟨by omega, by omega⟩
  · exact Or.inl ⟨hsub, lt_of_log2_lt (all_ne_zero hd) (by omega)⟩

theorem toNat_succ_round {c : Nat} (hsr : sr.toNat = c) (hc : c ≤ 31) : (sr + 1).toNat = c + 1 := by
  rw [UInt32.toNat_add, hsr, UInt32.toNat_one, Nat.mod_eq_of_lt (by omega)]

/-- `K K / K 0`: the divisor is no power of two, so it cannot be 31 bits shorter. -/
theorem divides_highDivisor (hn : n.high ≠ 0) (hd : d.high ≠ 0) (htest : d.high &&& (d.high - 1) ≠ 0)
    (hsr : sr = builtinClz d.high - builtinClz n.high) :
    if sr > 32 - 2 then Divides n d (0, n.all)
    else Divides n d (divLoop d (splitLow n (sr + 1)).1 (splitLow n (sr + 1)).2 (sr + 1)) := by
  have hnlog := log2_all hn
  have hdlog := log2_all hd
  have hnlt := log2_lt hn
  have hbound : sr > 32 - 2 ↔ 30 < sr.toNat := UInt32.lt_iff_toNat_lt
  rcases clz_sub_cases hn hd with ⟨hfar, hlt⟩ | ⟨hle, hdist⟩
  · rw [← hsr] at hfar
    rw [if_pos (hbound.mpr (by omega))]
    exact divides_of_lt hlt
  · have hlog := log2_pos_of_test hd htest
    rw [← hsr] at hdist
    have hsucc := toNat_succ_round hdist (by omega)
    rw [if_neg (mt hbound.mp (by omega))]
    exact divides_of_loop (all_ne_zero hn) (all_ne_zero hd) hle hsucc
      (splitLow_split rfl (by omega) (by omega))

/-- `K X / K K` -/
theorem divides_bothHigh (hn : n.high ≠ 0) (hd : d.high ≠ 0)
    (hsr : sr = builtinClz d.high - builtinClz n.high) {out : Udwords × Udwords}
    (hout : out = if sr + 1 = 32 then splitMiddle n else splitLow n (sr + 1)) :
    if sr > 32 - 1 then Divides n d (0, n.all) else Divides n d (divLoop d out.1 out.2 (sr + 1)) := by
  have hnlog := log2_all hn
  have hdlog := log2_all hd
  have hnlt := log2_lt hn
  have hbound : sr > 32 - 1 ↔ 31 < sr.toNat := UInt32.lt_iff_toNat_lt
  rcases clz_sub_cases hn hd with ⟨hfar, hlt⟩ | ⟨hle, hdist⟩
  · rw [← hsr] at hfar
    rw [if_pos (hbound.mpr hfar)]
    exact divides_of_lt hlt
  · rw [← hsr] at hdist
    have hsucc := toNat_succ_round hdist (by omega)
    have hsplit : Split n.all.toNat (sr + 1).toNat out := by
      rw [hout]
      split
      next hmiddle =>
        rw [hmiddle]
        exact splitMiddle_split
      next hother =>
        have hne : (sr + 1).toNat ≠ 32 := mt (fun h => UInt32.toNat_inj.mp h) hother
        exact splitLow_split rfl (by omega) (by omega)
    rw [if_neg (mt hbound.mp (by omega))]
    exact divides_of_loop (all_ne_zero hn) (all_ne_zero hd) hle hsucc hsplit

/-- `K X / 0 K`, if the divisor is no power of two. -/
theorem divides_lowDivisor (hn : n.high ≠ 0) (hd : d.high = 0) (hlow : d.low ≠ 0)
    (htest : d.low &&& (d.low - 1) ≠ 0) (hsr : sr = 1 + 32 + builtinClz d.low - builtinClz n.high)
    {out : Udwords × Udwords}
    (hout : out = if sr = 32 then splitMiddle n else if sr < 32 then splitLow n sr else splitHigh n sr) :
    Divides n d (divLoop d out.1 out.2 sr) := by
  have hall : d.all.toNat = d.low.toNat := by rw [Udwords.all_toNat, hd]; simp
  have hnlog := log2_all hn
  have hnlt := log2_lt hn
  have hdlt := log2_lt hlow
  have hlog := log2_pos_of_test hlow htest
  have hrounds : sr.toNat = n.high.toNat.log2 + 33 - d.low.toNat.log2 := by
    rw [hsr, UInt32.toNat_sub, UInt32.toNat_add, toNat_builtinClz, toNat_builtinClz]
    change (2 ^ 32 - (31 - n.high.toNat.log2) + (33 + (31 - d.low.toNat.log2)) % 2 ^ 32) % 2 ^ 32 = _
    omega
  have hdist : sr.toNat = n.all.toNat.log2 - d.all.toNat.log2 + 1 := by
    rw [hrounds, hall]
    omega
  have hsplit : Split n.all.toNat sr.toNat out := by
    rw [hout]
    split
    next hmiddle =>
      rw [hmiddle]
      exact splitMiddle_split
    next hother =>
      have hne : sr.toNat ≠ 32 := mt (fun h => UInt32.toNat_inj.mp h) hother
      split
      next hless =>
        have hlt : sr.toNat < 32 := UInt32.lt_iff_toNat_lt.mp hless
        exact splitLow_split rfl (by omega) hlt
      next hmore =>
        have hge : ¬ sr.toNat < 32 := fun h => hmore (UInt32.lt_iff_toNat_lt.mpr h)
        have hsum : sr.toNat = 32 + (sr.toNat - 32) := by omega
        rw [hsum]
        exact splitHigh_split hsum (by omega) (by omega)
  refine divides_of_loop (all_ne_zero hn) ?_ ?_ hdist hsplit
  · rw [hall]
    exact toNat_ne_zero hlow
  · rw [hall]
    omega

/-- `K X / 0 K`, if the divisor is a power of two. -/
theorem divides_shift (hd : d.high = 0) (hk : k < 32) (hpow : d.low.toNat = 2 ^ k) {q : UInt64}
    (hq : q.toNat = n.all.toNat / 2 ^ k) : Divides n d (q, (n.low &&& (d.low - 1)).toUInt64) := by
  have hall : d.all.toNat = 2 ^ k := by rw [Udwords.all_toNat, hd, hpow]; simp
  have hdvd : 2 ^ k ∣ 2 ^ 32 := Nat.pow_dvd_pow 2 hk.le
  rw [Divides, hall, UInt32.toNat_toUInt64, toNat_and_pred hpow, ← n.all_mod, Nat.mod_mod_of_dvd _ hdvd]
  exact ⟨hq, rfl⟩

theorem udivmoddi4_some {a b : UInt64} (hb : b ≠ 0) :
    ∃ out, udivmoddi4 a b = some out ∧ Divides (.ofAll a) (.ofAll b) out := by
  have hzero : ¬ ((Udwords.ofAll b).high = 0 ∧ (Udwords.ofAll b).low = 0) := by
    rintro ⟨hhigh, hlow⟩
    apply hb
    rw [← Udwords.all_ofAll b, Udwords.all, hhigh, hlow]
    rfl
  unfold udivmoddi4
  generalize Udwords.ofAll a = n
  generalize Udwords.ofAll b = d at hzero ⊢
  dsimp only
  by_cases hn : n.high = 0
  · rw [if_pos hn]
    by_cases hd : d.high = 0
    · have hlow : d.low ≠ 0 := fun h => hzero ⟨hd, h⟩
      rw [if_pos hd, if_neg hlow]
      exact ⟨_, rfl, divides_low hn hd⟩
    · have hdhigh := toNat_ne_zero hd
      have hnlow := n.low.toNat_lt
      have hnall : n.all = n.low.toUInt64 := by rw [Udwords.all, hn]; simp
      rw [if_neg hd, ← hnall]
      refine ⟨_, rfl, divides_of_lt ?_⟩
      rw [Udwords.all_toNat, Udwords.all_toNat, hn, UInt32.toNat_zero]
      omega
  · rw [if_neg hn]
    by_cases hlow : d.low = 0
    · have hd : d.high ≠ 0 := fun h => hzero ⟨h, hlow⟩
      rw [if_pos hlow, if_neg hd]
      by_cases hnlow : n.low = 0
      · rw [if_pos hnlow]
        refine ⟨_, rfl, divides_high hlow ?_ ?_⟩
        · rw [UInt32.toNat_toUInt64, UInt32.toNat_div]
        · rw [Udwords.all_toNat, hnlow, UInt32.toNat_mod]
      · rw [if_neg hnlow]
        by_cases htest : d.high &&& (d.high - 1) = 0
        · obtain ⟨k, hk, hpow⟩ := UInt32.isPowerOfTwo_of_test hd htest
          rw [if_pos htest]
          refine ⟨_, rfl, divides_high hlow ?_ ?_⟩
          · rw [UInt32.toNat_toUInt64, toNat_shiftRight (builtinCtz_two_pow hk hpow) hk, hpow]
          · rw [Udwords.all_toNat, toNat_and_pred hpow, hpow]
        · have hdivides := divides_highDivisor hn hd htest rfl
          rw [if_neg htest]
          split at hdivides
          next hfar => exact ⟨_, if_pos hfar, hdivides⟩
          next hnear => exact ⟨_, if_neg hnear, hdivides⟩
    · rw [if_neg hlow]
      by_cases hd : d.high = 0
      · rw [if_pos hd]
        by_cases htest : d.low &&& (d.low - 1) = 0
        · obtain ⟨k, hk, hpow⟩ := UInt32.isPowerOfTwo_of_test hlow htest
          rw [if_pos htest]
          by_cases hone : d.low = 1
          · rw [if_pos hone]
            refine ⟨_, rfl, divides_shift hd hk hpow ?_⟩
            rw [← hpow, hone]
            exact (Nat.div_one _).symm
          · have hpos : 0 < k := by
              apply Nat.pos_of_ne_zero
              rintro rfl
              exact hone (UInt32.toNat_inj.mp hpow)
            rw [if_neg hone]
            exact ⟨_, rfl,
              divides_shift hd hk hpow (shiftRight_halves (builtinCtz_two_pow hk hpow) hpos hk n)⟩
        · rw [if_neg htest]
          exact ⟨_, rfl, divides_lowDivisor hn hd hlow htest rfl rfl⟩
      · have hdivides := divides_bothHigh hn hd rfl rfl
        rw [if_neg hd]
        split at hdivides
        next hfar => exact ⟨_, if_pos hfar, hdivides⟩
        next hnear => exact ⟨_, if_neg hnear, hdivides⟩

/-! ### Unsigned and signed division -/

/-- Every dividend and every divisor: the quotient and the remainder, and the exception exactly where there
    are none. -/
theorem udivmoddi4_divides (a b : UInt64) :
    udivmoddi4 a b = if b = 0 then none else some (a / b, a % b) := by
  by_cases hb : b = 0
  · rw [if_pos hb, hb]
    unfold udivmoddi4
    dsimp only
    split
    · rfl
    · rfl
  · obtain ⟨out, hsome, hq, hr⟩ := udivmoddi4_some (a := a) hb
    rw [Udwords.all_ofAll, Udwords.all_ofAll] at hq hr
    rw [if_neg hb, hsome]
    congr 1
    apply Prod.ext
    · exact UInt64.toNat_inj.mp (by rw [hq, UInt64.toNat_div])
    · exact UInt64.toNat_inj.mp (by rw [hr, UInt64.toNat_mod])

/-- `__udivmoddi4` and the two functions that return one of its results, for every dividend and every
    divisor. -/
theorem unsigned_division_exact (a b : UInt64) :
    (udivmoddi4 a b = if b = 0 then none else some (a / b, a % b)) ∧
      (udivdi3 a b = if b = 0 then none else some (a / b)) ∧
      (umoddi3 a b = if b = 0 then none else some (a % b)) := by
  unfold udivdi3 umoddi3
  rw [udivmoddi4_divides]
  by_cases hb : b = 0
  · rw [if_pos hb, if_pos hb, if_pos hb]
    exact ⟨rfl, rfl, rfl⟩
  · rw [if_neg hb, if_neg hb, if_neg hb]
    exact ⟨rfl, rfl, rfl⟩

/-- The sign of a number, spread over all bits. -/
def signMask (negative : Bool) : BitVec 64 := if negative then BitVec.allOnes 64 else 0#64

theorem shiftRight_sign (a : Int64) : (a >>> 63).toBitVec = signMask a.toBitVec.msb := by
  have hsign := LongDivision.sshiftRight_sign a.toBitVec
  rw [Int64.toBitVec_shiftRight]
  change a.toBitVec.sshiftRight (64 - 1) = _
  rw [hsign, signMask, BitVec.msb_eq_decide]
  simp only [decide_eq_true_eq]

/-- `(x ^ s) - s` is the number or its negative. -/
theorem xor_sub_signMask (x : BitVec 64) (negative : Bool) :
    (x ^^^ signMask negative) - signMask negative = if negative then -x else x := by
  cases negative with
  | false =>
      change (x ^^^ 0#64) - 0#64 = x
      rw [BitVec.xor_zero, BitVec.sub_zero]
  | true =>
      change (x ^^^ BitVec.allOnes 64) - BitVec.allOnes 64 = -x
      rw [BitVec.xor_allOnes, BitVec.neg_eq_not_add, BitVec.sub_eq_add_neg]
      rfl

theorem signMask_xor (negA negB : Bool) : signMask negA ^^^ signMask negB = signMask (negA ^^ negB) := by
  cases negA <;> cases negB <;> decide

/-- The absolute value, as the functions take it. -/
theorem abs_toBitVec (a : Int64) :
    ((a ^^^ (a >>> 63)) - (a >>> 63)).toUInt64.toBitVec = if a.toBitVec.msb then -a.toBitVec
    else a.toBitVec := by
  change ((a ^^^ (a >>> 63)) - (a >>> 63)).toBitVec = _
  rw [Int64.toBitVec_sub, Int64.toBitVec_xor, shiftRight_sign, xor_sub_signMask]

theorem abs_eq_zero (b : Int64) : ((b ^^^ (b >>> 63)) - (b >>> 63)).toUInt64 = 0 ↔ b = 0 := by
  rw [← UInt64.toBitVec_inj, abs_toBitVec, ← Int64.toBitVec_inj]
  change _ = 0#64 ↔ _ = 0#64
  split
  · exact BitVec.neg_eq_zero_iff
  · exact Iff.rfl

theorem divdi3_eq (a b : Int64) : divdi3 a b = if b = 0 then none else some (a / b) := by
  unfold divdi3
  dsimp only
  rw [udivmoddi4_divides]
  by_cases hb : b = 0
  · rw [if_pos hb, if_pos ((abs_eq_zero b).mpr hb)]
    rfl
  · rw [if_neg hb, if_neg (mt (abs_eq_zero b).mp hb), Option.map_some]
    congr 1
    apply Int64.toBitVec_inj.mp
    rw [Int64.toBitVec_div, BitVec.sdiv_eq, UInt64.toBitVec_toInt64, UInt64.toBitVec_sub,
      UInt64.toBitVec_xor, UInt64.toBitVec_div,
      abs_toBitVec, abs_toBitVec]
    change (_ ^^^ ((a >>> 63) ^^^ (b >>> 63)).toBitVec) - ((a >>> 63) ^^^ (b >>> 63)).toBitVec = _
    rw [Int64.toBitVec_xor, shiftRight_sign, shiftRight_sign, signMask_xor, xor_sub_signMask]
    cases a.toBitVec.msb <;> cases b.toBitVec.msb <;> rfl

theorem moddi3_eq (a b : Int64) : moddi3 a b = if b = 0 then none else some (a % b) := by
  unfold moddi3
  dsimp only
  rw [udivmoddi4_divides]
  by_cases hb : b = 0
  · rw [if_pos hb, if_pos ((abs_eq_zero b).mpr hb)]
    rfl
  · rw [if_neg hb, if_neg (mt (abs_eq_zero b).mp hb), Option.map_some]
    congr 1
    apply Int64.toBitVec_inj.mp
    rw [Int64.toBitVec_mod, BitVec.srem_eq, Int64.toBitVec_sub, Int64.toBitVec_xor, UInt64.toBitVec_toInt64,
      UInt64.toBitVec_mod,
      abs_toBitVec, abs_toBitVec, shiftRight_sign, xor_sub_signMask]
    cases a.toBitVec.msb <;> cases b.toBitVec.msb <;> rfl

/-- The signed functions truncate.  The only quotient out of range, that of the least number by `-1`, comes
    round to that number again, and the remainder there is `0`. -/
theorem signed_division_truncates (a b : Int64) :
    ((divdi3 a b).map Int64.toInt =
        if b = 0 then none
        else some (if a = Int64.minValue ∧ b = -1 then Int64.minValue.toInt else a.toInt.tdiv b.toInt)) ∧
      ((moddi3 a b).map Int64.toInt = if b = 0 then none else some (a.toInt.tmod b.toInt)) := by
  rw [divdi3_eq, moddi3_eq]
  by_cases hb : b = 0
  · rw [if_pos hb, if_pos hb, if_pos hb, if_pos hb]
    exact ⟨rfl, rfl⟩
  · rw [if_neg hb, if_neg hb, if_neg hb, if_neg hb, Option.map_some, Option.map_some, Int64.toInt_mod]
    refine ⟨congrArg some ?_, rfl⟩
    by_cases hwrap : a = Int64.minValue ∧ b = -1
    · rw [if_pos hwrap, hwrap.1, hwrap.2]
      decide
    · rw [if_neg hwrap]
      rcases not_and_or.mp hwrap with ha | hone
      · exact Int64.toInt_div_of_ne_left a b ha
      · exact Int64.toInt_div_of_ne_right a b hone

/-! ### `__udivsi3` -/

/-- The locals as registers. -/
def siRegs (s : UInt32 × UInt32 × UInt32) : LongDivision.Regs 32 :=
  ⟨s.1.toBitVec, s.2.1.toBitVec, s.2.2.toBitVec⟩

theorem divRoundSi_regs (d : UInt32) (s : UInt32 × UInt32 × UInt32) :
    siRegs (divRoundSi d s) = LongDivision.round d.toBitVec (siRegs s) := by
  obtain ⟨q, r, carry⟩ := s
  have hsign : ∀ x : UInt32, ((x.toInt32 >>> 31).toUInt32).toBitVec = x.toBitVec.sshiftRight 31 := by
    intro x
    change (x.toInt32 >>> 31).toBitVec = _
    rw [Int32.toBitVec_shiftRight]
    rfl
  unfold siRegs divRoundSi LongDivision.round
  dsimp only
  rw [UInt32.toBitVec_sub, UInt32.toBitVec_and, UInt32.toBitVec_and, hsign]
  rfl

theorem divRoundsSi_regs (d : UInt32) (sr : Nat) :
    ∀ s, siRegs (divRoundsSi d sr s) = LongDivision.rounds d.toBitVec sr (siRegs s) := by
  induction sr with
  | zero =>
      intro s
      rfl
  | succ sr ih =>
      intro s
      rw [divRoundsSi, LongDivision.rounds, ← divRoundSi_regs]
      exact ih _

/-- Every dividend and every divisor, with `0` for a division by zero. -/
theorem udivsi3_divides (n d : UInt32) : udivsi3 n d = if d = 0 then 0 else n / d := by
  unfold udivsi3
  by_cases hd : d = 0
  · rw [if_pos hd, if_pos hd]
  rw [if_neg hd, if_neg hd]
  by_cases hn : n = 0
  · rw [if_pos hn, hn]
    exact UInt32.zero_div.symm
  rw [if_neg hn]
  dsimp only
  have hsub := clz_sub hn hd
  have hnlt := log2_lt hn
  generalize builtinClz d - builtinClz n = sr at hsub ⊢
  have hbound : sr > 32 - 1 ↔ 31 < sr.toNat := UInt32.lt_iff_toNat_lt
  by_cases hle : d.toNat.log2 ≤ n.toNat.log2
  · rw [if_pos hle] at hsub
    rw [if_neg (mt hbound.mp (by omega))]
    by_cases hlast : sr = 32 - 1
    · have hthirtyone : sr.toNat = 31 := congrArg UInt32.toNat hlast
      have hone : d = 1 := eq_one_of_log2 hd (by omega)
      rw [if_pos hlast, hone]
      exact UInt32.div_one.symm
    · have hne : sr.toNat ≠ 31 := mt (fun h => UInt32.toNat_inj.mp h) hlast
      have hsucc := toNat_succ_round hsub (by omega)
      obtain ⟨hwidth, hbelow, hnear⟩ := LongDivision.leading_bits n.toNat_lt d.toNat_lt (toNat_ne_zero hn)
        (toNat_ne_zero hd) hle
      rw [← hsucc] at hwidth hbelow hnear
      have hleft : (32 - (sr + 1)).toNat = 32 - (sr + 1).toNat := toNat_sub_of_le (c := 32) rfl hwidth
      have hq :
          (n <<< (32 - (sr + 1))).toNat = n.toNat % 2 ^ (sr + 1).toNat * 2 ^ (32 - (sr + 1).toNat) := by
        rw [toNat_shiftLeft hleft (by omega), Nat.sub_sub_self hwidth]
      have hr : (n >>> (sr + 1)).toNat = n.toNat / 2 ^ (sr + 1).toNat := toNat_shiftRight rfl (by omega) n
      have hdivide :=
        (LongDivision.rounds_divide (d := d.toBitVec) (by decide) n.toNat_lt hwidth hbelow hq hr hnear).1
      have hregs := divRoundsSi_regs d (sr + 1).toNat (n <<< (32 - (sr + 1)), n >>> (sr + 1), 0)
      change _ = LongDivision.rounds _ _ ⟨_, _, 0#32⟩ at hregs
      rw [if_neg hlast]
      apply UInt32.toNat_inj.mp
      rw [UInt32.toNat_div]
      rw [← hregs] at hdivide
      exact hdivide
  · have hshort : n.toNat < d.toNat := lt_of_log2_lt (toNat_ne_zero hd) (Nat.lt_of_not_le hle)
    rw [if_neg hle] at hsub
    rw [if_pos (hbound.mpr hsub)]
    apply UInt32.toNat_inj.mp
    rw [UInt32.toNat_div, Nat.div_eq_of_lt hshort]
    rfl

end RumpBaremetal
