/-
Module: RumpBaremetal.Kernel.Rumpuser
Layer: Kernel
Purpose: The hypercalls of rumpuser.c that give out parameters, memory and random bytes: `rumpuser_getparam`
  on a byte memory, `rumpuser_malloc` on the store of the allocator and its page source, and
  `rumpuser_getrandom`.  The string literals lie somewhere in memory; where, is a parameter.
Trusted boundary: human-reviewed spec
Main exports: Literals, Param, paramOf, memlimitDigits, storeBytes, rumpuserGetparam, rumpuserMalloc,
  nextSeed, randomLoop, Getrandom, rumpuserGetrandom
-/
import RumpBaremetal.Kernel.Store
import RumpBaremetal.Kernel.Subr

namespace RumpBaremetal

/-- The addresses of the strings that `rumpuser_getparam` names: the parameters `RUMPUSER_PARAM_NCPU`,
    `"RUMP_VERBOSE"`, `RUMPUSER_PARAM_HOSTNAME` and `"RUMP_MEMLIMIT"`, and the values `"1"` and
    `"rump-baremetal"`. -/
structure Literals where
  ncpu : UInt32
  verbose : UInt32
  hostname : UInt32
  memlimit : UInt32
  one : UInt32
  rumpBaremetal : UInt32
deriving DecidableEq, Repr

/-- `BMK_MEMRESERVE` [SRC rumpuser.c:20] -/
def bmkMemreserve : UInt32 := 1024 * 1024

/-- The branches of `rumpuser_getparam`. -/
inductive Param where
  /-- `RUMPUSER_PARAM_NCPU` or `"RUMP_VERBOSE"` -/
  | one
  | hostname
  | memlimit
  | unknown
deriving DecidableEq, Repr

/-- `bmk_strcmp(a, b) == 0` -/
def equals (mem : ByteMem) (a b : UInt32) : Option Bool := (bmkStrcmp mem a b).map fun r => r.1 = 0

/-- The branch that is taken; `none` if a comparison does not end.  [SRC rumpuser.c:30-38] -/
def paramOf (mem : ByteMem) (lit : Literals) (name : UInt32) : Option Param :=
  (equals mem name lit.ncpu).bind fun ncpu =>
    if ncpu then some .one
    else (equals mem name lit.verbose).bind fun verbose =>
      if verbose then some .one
      else (equals mem name lit.hostname).bind fun hostname =>
        if hostname then some .hostname
        else (equals mem name lit.memlimit).map fun memlimit => if memlimit then .memlimit else .unknown

/-- The digits that the first loop leaves in `tmp`, from `tmp[0]` on, with `left` places left; `none` is the
    failed assertion.  [SRC rumpuser.c:47-51] -/
def memlimitDigits : Nat → UInt32 → Option (List UInt8)
  | 0, memsize => if memsize = 0 then some [] else none
  | left + 1, memsize =>
      if memsize = 0 then some []
      else (memlimitDigits left (memsize / 10)).map fun tmp => ((memsize % 10).toUInt8 + 48) :: tmp

/-- The bytes are stored one behind the other. -/
def storeBytes (mem : ByteMem) (p : UInt32) : List UInt8 → ByteMem
  | [] => mem
  | b :: bs => storeBytes (Function.update mem p.toNat b) (p + 1) bs

/-- The return value and the memory; `none` if an assertion fails or a comparison does not end.
    [SRC rumpuser.c:22-66] -/
def rumpuserGetparam (mem : ByteMem) (lit : Literals) (bmkMemsize name buf buflen : UInt32) :
    Option (Int × ByteMem) :=
  if buflen ≤ 1 then some (1, mem)
  else
    match paramOf mem lit name with
    | none => none
    | some .one => some (0, bmkStrncpy mem buf lit.one (buflen - 1))
    | some .hostname => some (0, bmkStrncpy mem buf lit.rumpBaremetal (buflen - 1))
    | some .memlimit =>
        if bmkMemsize > bmkMemreserve then
          (memlimitDigits 63 (bmkMemsize - bmkMemreserve)).map fun tmp =>
            if UInt32.ofNat tmp.length ≥ buflen then (1, mem)
            -- the terminator first, then the digits from the most significant on
            else (0,
              storeBytes (Function.update mem (buf + UInt32.ofNat tmp.length).toNat 0) buf tmp.reverse)
        else none
    | some .unknown => some (1, mem)

/-! ### Memory -/

/-- `ENOMEM` [SRC kernel.h:53] -/
def eNomem : Int := 1

/-- The return value, `*memp`, which holds `memp` before the call, and the store.  [SRC rumpuser.c:68-83] -/
def rumpuserMalloc (s : Store) (howmuch : UInt32) (alignment : Int32) (memp : UInt32) :
    Int × UInt32 × Store :=
  let (rv, s) :=
    if howmuch = pageSize then
      let (rv, pages) := s.pages.allocpg 1
      (rv, { s with pages := pages })
    else
      let (rv, heap, pages) := bmkMemalloc PageHistory.allocpg s.heap s.pages howmuch alignment.toUInt32
      (rv, { s with heap := heap, pages := pages })
  if rv ≠ 0 then (0, rv, s) else (eNomem, memp, s)

/-! ### Random bytes -/

/-- [SRC rumpuser.c:107] -/
def nextSeed (seed : UInt32) : UInt32 := (seed * 1103515245 + 12345) % 0x80000000

/-- The bytes of a word as they are stored. -/
def wordBytes (x : UInt32) : List UInt8 :=
  [ByteMem.byte x 0, ByteMem.byte x 1, ByteMem.byte x 2, ByteMem.byte x 3]

/-- The loop of `rumpuser_getrandom`: the memory and the seed behind it.  [SRC rumpuser.c:104-108] -/
def randomLoop (mem : ByteMem) (v seed : UInt32) : Nat → ByteMem × UInt32
  | buflen + 4 => randomLoop (storeBytes mem v (wordBytes seed)) (v + 4) (nextSeed seed) buflen
  | _ => (mem, seed)

/-- What a call of `rumpuser_getrandom` leaves: the return value, `*retp`, the memory and the static
    seed. -/
structure Getrandom where
  rv : Int
  ret : UInt32
  mem : ByteMem
  seed : UInt32

/-- The flags are not looked at.  [SRC rumpuser.c:97-110] -/
def rumpuserGetrandom (seed : UInt32) (mem : ByteMem) (buf buflen : UInt32) (_flags : Int32) : Getrandom :=
  let loop := randomLoop mem buf seed buflen.toNat
  ⟨0, buflen, loop.1, loop.2⟩

end RumpBaremetal
