/-
Module: RumpBaremetal.Kernel.Intr
Layer: Kernel
Purpose: Interrupt handlers and their registration (intr.c): the lists `isr_ih`, `bmk_isr_netinit`, and the
  calls that touch the interrupt controllers once the board is set up.
Trusted boundary: human-reviewed spec
Main exports: IntrHand, IntrWorld, bmkIsrNetinit, IntrEvent, intrBoot, intrStep, IntrEvent.registers,
  LineOpen, RegisteredOpen
-/
import RumpBaremetal.Arch.Machdep

namespace RumpBaremetal

/-- `BMK_MAXINTR` [SRC kernel.h:59] -/
def bmkMaxintr : Int32 := 32

/-- [SRC intr.c:9-14] -/
structure IntrHand (Fun Arg : Type*) where
  ihFun : Fun
  ihArg : Arg
deriving DecidableEq, Repr

/-- The board and the handler lists.  `halted` is a panic: nothing runs after it.  [SRC intr.c:16-17] -/
structure IntrWorld (Fun Arg : Type*) where
  board : Board
  isrIh : Nat → List (IntrHand Fun Arg)
  halted : Bool

variable {Fun Arg : Type*}

/-- `bmk_isr_netinit`: the error, `0` for success, and what it leaves.  `found` says whether the allocator
    has room for the handler's record; `bmk_xmalloc` panics if it has not, and the test for `NULL` behind it
    never fires.  The first comparison is one of unsigned words.  [SRC intr.c:82-104, memalloc.c:303-312] -/
def bmkIsrNetinit (s : Stubs) (w : IntrWorld Fun Arg) (func : Fun) (arg : Arg) (intr : Int32)
    (found : Bool) :
    Option (UInt32 × IntrWorld Fun Arg) :=
  if intr.toUInt32 > 4 * 8 ∨ intr > bmkMaxintr then some (eGeneric, w)
  else if found then
    match bmkCpuIntrInit s w.board intr with
    | (error, board) =>
        if error ≠ 0 then some (error, { w with board := board })
        else
          let i := intr.toInt.toNat
          some (0, { w with
            board := board
            isrIh := Function.update w.isrIh i (⟨func, arg⟩ :: w.isrIh i) })
  else none

inductive IntrEvent (Fun Arg : Type*) where
  | netinit (func : Fun) (arg : Arg) (intr : Int32) (found : Bool)
  | nanohlt
deriving DecidableEq, Repr

/-- What `bmk_cpu_init` leaves, with no handler registered. -/
def intrBoot (s : Stubs) : Option (IntrWorld Fun Arg) :=
  (bmkCpuInit s .reset).map fun board => ⟨board, fun _ => [], false⟩

def intrStep (s : Stubs) (w : IntrWorld Fun Arg) : IntrEvent Fun Arg → Option (IntrWorld Fun Arg)
  | .netinit func arg intr found =>
      if w.halted then none
      else
        match bmkIsrNetinit s w func arg intr found with
        | some (_, w) => some w
        | none => some { w with halted := true }
  | .nanohlt => if w.halted then none else some { w with board := bmkCpuNanohlt w.board }

/-- The call is for line `n`, and the allocator has room. -/
def IntrEvent.registers (n : Int32) : IntrEvent Fun Arg → Bool
  | .netinit _ _ intr found => found && intr == n
  | .nanohlt => false

/-! ### What registration is for -/

/-- The service routine of a line, for the lines that have one. -/
def Stubs.line (s : Stubs) (n : Nat) : Option UInt32 :=
  if n = 10 then some s.bmkCpuIsr10 else if n = 11 then some s.bmkCpuIsr11 else none

/-- An interrupt on line `n` of the slave gets through to its routine: the gate is filled, and the line's
    bit is clear in the mask last written. -/
structure LineOpen (s : Stubs) (b : Board) (n : Nat) : Prop where
  gate : ∃ routine, s.line n = some routine ∧ b.idt (32 + n) = fillgate routine
  mask : ∃ mask, b.lastWrite pic2Data = some mask ∧ mask &&& irqBit (UInt8.ofNat (n - 8)) = 0

/-- The master lets the slave through. -/
def CascadeOpen (b : Board) : Prop := ∃ mask, b.lastWrite pic1Data = some mask ∧ mask &&& irqBit 2 = 0

/-- Every line with a handler is open. -/
def RegisteredOpen (s : Stubs) (w : IntrWorld Fun Arg) : Prop :=
  (∀ n, w.isrIh n ≠ [] → LineOpen s w.board n) ∧ CascadeOpen w.board

end RumpBaremetal
