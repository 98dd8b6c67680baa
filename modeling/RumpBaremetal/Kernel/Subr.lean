/-
Module: RumpBaremetal.Kernel.Subr
Layer: Kernel
Purpose: The string and memory functions of subr.c on a byte memory.  A pointer is a 32-bit word and wraps,
  a counter is a `size_t` and wraps too.  `bmk_strcmp` keeps a record of what it reads through each of its
  pointers.
Trusted boundary: human-reviewed spec
Main exports: charValue, Strcmp, strcmpLoop, bmkStrcmp, strncpyCopy, fillLoop, bmkStrncpy, bmkMemset,
  bmkMemcpy, bmkSchedCreateName
-/
import RumpBaremetal.Lib.Patch

namespace RumpBaremetal

open ByteMem

/-- The value of a `char`, which is signed on i386. -/
def charValue (b : UInt8) : Int := b.toInt8.toInt

/-! ### Comparing strings -/

/-- The pointers of `bmk_strcmp`, and the addresses read through each so far, the latest first. -/
structure Strcmp where
  a : UInt32
  b : UInt32
  readA : List UInt32
  readB : List UInt32
deriving DecidableEq, Repr

/-- The loop of `bmk_strcmp`, for a number of rounds; `none` if it has not ended by then.
    [SRC subr.c:24-26] -/
def strcmpLoop (mem : ByteMem) : Nat → Strcmp → Option Strcmp
  | 0, _ => none
  | rounds + 1, s =>
      if mem s.a.toNat = 0 then some { s with readA := s.a :: s.readA }
      else
        -- both operands of `==` are read and both pointers advance before the test
        let next : Strcmp := ⟨s.a + 1, s.b + 1, s.a :: s.a :: s.readA, s.b :: s.readB⟩
        if mem s.a.toNat = mem s.b.toNat then strcmpLoop mem rounds next else some next

/-- Behind the loop of `bmk_strcmp`.  [SRC subr.c:27-31] -/
def strcmpEnd (mem : ByteMem) (s : Strcmp) : Int × Strcmp :=
  let s := { s with readA := s.a :: s.readA }
  let s := if mem s.a.toNat ≠ 0 then { s with a := s.a - 1, b := s.b - 1 } else s
  (charValue (mem s.a.toNat) - charValue (mem s.b.toNat),
    { s with readA := s.a :: s.readA, readB := s.b :: s.readB })

/-- `bmk_strcmp`.  After `2^32` rounds both pointers are back where they were, so a loop that has not ended
    by then never ends.  [SRC subr.c:20-32] -/
def bmkStrcmp (mem : ByteMem) (a b : UInt32) : Option (Int × Strcmp) :=
  (strcmpLoop mem (2 ^ 32) ⟨a, b, [], []⟩).map (strcmpEnd mem)

/-! ### Copying and filling -/

/-- `while (n--) *p++ = byte`  [SRC subr.c:51-52, 61-62] -/
def fillLoop (mem : ByteMem) (p : UInt32) (byte : UInt8) : Nat → ByteMem
  | 0 => mem
  | n + 1 => fillLoop (Function.update mem p.toNat byte) (p + 1) byte n

/-- The first loop of `bmk_strncpy`: the memory, `d` and `n` behind it.  A character that is not `NUL` is
    stored before `n` is looked at, and `n` is decremented also when it is zero.  [SRC subr.c:49-50] -/
def strncpyCopy (mem : ByteMem) (d s : UInt32) : Nat → ByteMem × UInt32 × Nat
  | 0 => (Function.update mem d.toNat (mem s.toNat), d + 1, if mem s.toNat = 0 then 0 else 2 ^ 32 - 1)
  | n + 1 =>
      if mem s.toNat = 0 then (Function.update mem d.toNat (mem s.toNat), d + 1, n + 1)
      else strncpyCopy (Function.update mem d.toNat (mem s.toNat)) (d + 1) (s + 1) n

/-- [SRC subr.c:44-54] -/
def bmkStrncpy (mem : ByteMem) (d s n : UInt32) : ByteMem :=
  match strncpyCopy mem d s n.toNat with
  | (mem, d, n) => fillLoop mem d 0 n

/-- [SRC subr.c:56-65] -/
def bmkMemset (mem : ByteMem) (b : UInt32) (c : Int) (n : UInt32) : ByteMem :=
  fillLoop mem b (UInt8.ofInt c) n.toNat

/-- `while (n--) *dp++ = *sp++`  [SRC subr.c:76-77] -/
def copyLoop (mem : ByteMem) (dp sp : UInt32) : Nat → ByteMem
  | 0 => mem
  | n + 1 => copyLoop (Function.update mem dp.toNat (mem sp.toNat)) (dp + 1) (sp + 1) n

/-- [SRC subr.c:67-80] -/
def bmkMemcpy (mem : ByteMem) (d src n : UInt32) : ByteMem := copyLoop mem d src n.toNat

/-! ### Thread names -/

/-- `NAME_MAXLEN`, the size of `bt_name`, which is the first field of `struct bmk_thread`.
    [SRC sched.c:75, 86] -/
def nameMaxlen : UInt32 := 16

/-- The statement of `bmk_sched_create` that sets the name of a thread.  [SRC sched.c:260] -/
def bmkSchedCreateName (mem : ByteMem) (thread name : UInt32) : ByteMem :=
  bmkStrncpy mem thread name (nameMaxlen - 1)

end RumpBaremetal
