/-
Module: RumpBaremetal.Kernel.Librt
Layer: Kernel
Purpose: The division routines of librt, which the compiler calls for what i386 cannot divide in one
  instruction: `__udivmoddi4` with its special cases and its loop over the two halves of each register, the
  signed and unsigned functions on top of it, and `__udivsi3`.
Trusted boundary: human-reviewed spec
Main exports: Udwords, builtinClz, builtinCtz, DivRegs, divRound, divLoop, udivmoddi4, udivdi3, umoddi3,
  divdi3, moddi3, divRoundSi, udivsi3
-/
import Mathlib.Tactic

namespace RumpBaremetal

/-- The union `udwords`.  [SRC librt/int_types.h:44-57] -/
structure Udwords where
  low : UInt32
  high : UInt32
deriving DecidableEq, Repr

namespace Udwords

def all (x : Udwords) : UInt64 := x.low.toUInt64 + x.high.toUInt64 * 0x100000000

def ofAll (x : UInt64) : Udwords := ⟨x.toUInt32, (x >>> 32).toUInt32⟩

end Udwords

/-- `__builtin_clz`, which has no value at `0`. -/
def builtinClz (x : UInt32) : UInt32 := UInt32.ofNat (31 - x.toNat.log2)

/-- The zeros behind the last one of a number, `bits` at most. -/
def trailingZeros : Nat → Nat → Nat
  | 0, _ => 0
  | bits + 1, x => if x % 2 = 1 then 0 else trailingZeros bits (x / 2) + 1

/-- `__builtin_ctz`, which has no value at `0`. -/
def builtinCtz (x : UInt32) : UInt32 := UInt32.ofNat (trailingZeros 32 x.toNat)

/-! ### `__udivmoddi4` -/

/-- The locals `q`, `r` and `carry`. -/
structure DivRegs where
  q : Udwords
  r : Udwords
  carry : UInt32
deriving DecidableEq, Repr

/-- The body of the loop.  [SRC librt/udivmoddi4.c:211-228] -/
def divRound (d : Udwords) (s : DivRegs) : DivRegs :=
  let r : Udwords := ⟨(s.r.low <<< 1) ||| (s.q.high >>> 31), (s.r.high <<< 1) ||| (s.r.low >>> 31)⟩
  let q : Udwords := ⟨(s.q.low <<< 1) ||| s.carry, (s.q.high <<< 1) ||| (s.q.low >>> 31)⟩
  let sign := ((d.all - r.all - 1).toInt64 >>> 63).toUInt64
  ⟨q, .ofAll (r.all - (d.all &&& sign)), (sign &&& 1).toUInt32⟩

def divRounds (d : Udwords) : Nat → DivRegs → DivRegs
  | 0, s => s
  | sr + 1, s => divRounds d sr (divRound d s)

/-- The loop, and what is returned behind it: the quotient and `*rem`.  [SRC librt/udivmoddi4.c:210-232] -/
def divLoop (d q r : Udwords) (sr : UInt32) : UInt64 × UInt64 :=
  let s := divRounds d sr.toNat ⟨q, r, 0⟩
  ((s.q.all <<< 1) ||| s.carry.toUInt64, s.r.all)

/-- `q` and `r` before the loop for at most 31 rounds.  [SRC librt/udivmoddi4.c:115-119, 158-161,
    198-200] -/
def splitLow (n : Udwords) (sr : UInt32) : Udwords × Udwords :=
  (⟨0, n.low <<< (32 - sr)⟩, ⟨(n.high <<< (32 - sr)) ||| (n.low >>> sr), n.high >>> sr⟩)

/-- `q` and `r` before the loop for 32 rounds.  [SRC librt/udivmoddi4.c:151-154, 192-194] -/
def splitMiddle (n : Udwords) : Udwords × Udwords := (⟨0, n.low⟩, ⟨n.high, 0⟩)

/-- `q` and `r` before the loop for more than 32 rounds.  [SRC librt/udivmoddi4.c:165-169] -/
def splitHigh (n : Udwords) (sr : UInt32) : Udwords × Udwords :=
  (⟨n.low <<< (64 - sr), (n.high <<< (64 - sr)) ||| (n.low >>> (sr - 32))⟩, ⟨n.high >>> (sr - 32), 0⟩)

/-- `__udivmoddi4`: the quotient, and what is stored behind `rem` if it is not `NULL`.  `none` is the
    exception that a division by zero raises on the processor.  [SRC librt/udivmoddi4.c:25-233] -/
def udivmoddi4 (a b : UInt64) : Option (UInt64 × UInt64) :=
  let n := Udwords.ofAll a
  let d := Udwords.ofAll b
  if n.high = 0 then
    if d.high = 0 then
      if d.low = 0 then none else some ((n.low / d.low).toUInt64, (n.low % d.low).toUInt64)
    else some (0, n.low.toUInt64)
  else if d.low = 0 then
    -- the divisor of `n.s.high % d.s.low` is zero
    if d.high = 0 then none
    else if n.low = 0 then some ((n.high / d.high).toUInt64, Udwords.all ⟨0, n.high % d.high⟩)
    else if d.high &&& (d.high - 1) = 0 then
      some ((n.high >>> builtinCtz d.high).toUInt64, Udwords.all ⟨n.low, n.high &&& (d.high - 1)⟩)
    else
      let sr := builtinClz d.high - builtinClz n.high
      if sr > 32 - 2 then some (0, n.all)
      else
        let (q, r) := splitLow n (sr + 1)
        some (divLoop d q r (sr + 1))
  else if d.high = 0 then
    if d.low &&& (d.low - 1) = 0 then
      if d.low = 1 then some (n.all, (n.low &&& (d.low - 1)).toUInt64)
      else
        let sr := builtinCtz d.low
        some (Udwords.all ⟨(n.high <<< (32 - sr)) ||| (n.low >>> sr), n.high >>> sr⟩,
          (n.low &&& (d.low - 1)).toUInt64)
    else
      let sr := 1 + 32 + builtinClz d.low - builtinClz n.high
      let (q, r) := if sr = 32 then splitMiddle n else if sr < 32 then splitLow n sr else splitHigh n sr
      some (divLoop d q r sr)
  else
    let sr := builtinClz d.high - builtinClz n.high
    if sr > 32 - 1 then some (0, n.all)
    else
      let sr := sr + 1
      let (q, r) := if sr = 32 then splitMiddle n else splitLow n sr
      some (divLoop d q r sr)

/-! ### On top of it -/

/-- `__udivdi3` [SRC librt/udivdi3.c:19-23] -/
def udivdi3 (a b : UInt64) : Option UInt64 := (udivmoddi4 a b).map Prod.fst

/-- `__umoddi3` [SRC librt/umoddi3.c:19-25] -/
def umoddi3 (a b : UInt64) : Option UInt64 := (udivmoddi4 a b).map Prod.snd

/-- `__divdi3`; the negation of the least number wraps.  [SRC librt/divdi3.c:19-29] -/
def divdi3 (a b : Int64) : Option Int64 :=
  let signA := a >>> 63
  let signB := b >>> 63
  let a := (a ^^^ signA) - signA
  let b := (b ^^^ signB) - signB
  let sign := (signA ^^^ signB).toUInt64
  (udivmoddi4 a.toUInt64 b.toUInt64).map fun out => ((out.1 ^^^ sign) - sign).toInt64

/-- `__moddi3` [SRC librt/moddi3.c:19-30] -/
def moddi3 (a b : Int64) : Option Int64 :=
  let sign := b >>> 63
  let b := (b ^^^ sign) - sign
  let sign := a >>> 63
  let a := (a ^^^ sign) - sign
  (udivmoddi4 a.toUInt64 b.toUInt64).map fun out => (out.2.toInt64 ^^^ sign) - sign

/-! ### `__udivsi3` -/

/-- The body of the loop.  [SRC librt/udivsi3.c:48-63] -/
def divRoundSi (d : UInt32) (s : UInt32 × UInt32 × UInt32) : UInt32 × UInt32 × UInt32 :=
  let (q, r, carry) := s
  let r := (r <<< 1) ||| (q >>> 31)
  let sign := ((d - r - 1).toInt32 >>> 31).toUInt32
  ((q <<< 1) ||| carry, r - (d &&& sign), sign &&& 1)

def divRoundsSi (d : UInt32) : Nat → UInt32 × UInt32 × UInt32 → UInt32 × UInt32 × UInt32
  | 0, s => s
  | sr + 1, s => divRoundsSi d sr (divRoundSi d s)

/-- `__udivsi3` [SRC librt/udivsi3.c:24-66] -/
def udivsi3 (n d : UInt32) : UInt32 :=
  if d = 0 then 0
  else if n = 0 then 0
  else
    let sr := builtinClz d - builtinClz n
    if sr > 32 - 1 then 0
    else if sr = 32 - 1 then n
    else
      let sr := sr + 1
      let (q, _, carry) := divRoundsSi d sr.toNat (n <<< (32 - sr), n >>> sr, 0)
      (q <<< 1) ||| carry

end RumpBaremetal
