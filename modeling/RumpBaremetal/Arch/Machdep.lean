/-
Module: RumpBaremetal.Arch.Machdep
Layer: Arch
Purpose: The interrupt side of machdep.c: the gates of the interrupt descriptor table, the writes to the two
  interrupt controllers and the timer, the interrupt depth, and the routines that set them up.  The
  controllers cannot be read back, so the model keeps what was written to each port.
Trusted boundary: human-reviewed spec
Main exports: GateDescriptor, fillgate, Board, Board.outb, Board.lastWrite, splhigh, spl0, initpic,
  bmkCpuInit, bmkCpuIntrInit, bmkCpuNanohlt
-/
import Mathlib.Tactic

namespace RumpBaremetal

/-- The error numbers that the interrupt code returns; `0` is success.  [SRC kernel.h:53-56] -/
def eGeneric : UInt32 := 3

/-- [SRC machdep.c:16-25] -/
structure GateDescriptor where
  gdLooffset : BitVec 16
  gdSelector : BitVec 16
  gdStkcpy : BitVec 5
  gdXx : BitVec 3
  gdType : BitVec 5
  gdDpl : BitVec 2
  gdP : BitVec 1
  gdHioffset : BitVec 16
deriving DecidableEq, Repr

/-- A gate that has not been filled: `idt` is zero-initialised.  [SRC machdep.c:27] -/
def GateDescriptor.empty : GateDescriptor := ⟨0, 0, 0, 0, 0, 0, 0, 0⟩

/-- What `fillgate` leaves in the gate, for a routine at address `routine`.  [SRC machdep.c:37-51] -/
def fillgate (routine : UInt32) : GateDescriptor where
  gdHioffset := (routine >>> 16).toBitVec.setWidth 16
  gdLooffset := routine.toBitVec.setWidth 16
  gdSelector := 0x8
  gdStkcpy := 0
  gdXx := 0
  gdType := 14
  gdDpl := 0
  gdP := 1

/-- Where the routines of locore32.S are.  [SRC machdep.c:29-35] -/
structure Stubs where
  bmkCpuInsr : UInt32
  bmkCpuIsrClock : UInt32
  bmkCpuIsr10 : UInt32
  bmkCpuIsr11 : UInt32
deriving DecidableEq, Repr

/-- The descriptor table, the port writes with the latest first, and `bmk_spldepth`. -/
structure Board where
  idt : Nat → GateDescriptor
  ports : List (UInt16 × UInt8)
  splDepth : Nat

/-- Power on.  [SRC machdep.c:5] -/
def Board.reset : Board := ⟨fun _ => .empty, [], 1⟩

namespace Board

def outb (b : Board) (port : UInt16) (value : UInt8) : Board := { b with ports := (port, value) :: b.ports }

/-- Several writes in a row. -/
def outbs (b : Board) (writes : List (UInt16 × UInt8)) : Board :=
  writes.foldl (fun b w => b.outb w.1 w.2) b

/-- The latest byte written to a port. -/
def lastWrite (b : Board) (port : UInt16) : Option UInt8 :=
  (b.ports.find? fun w => w.1 = port).map Prod.snd

def setGate (b : Board) (i : Nat) (routine : UInt32) : Board :=
  { b with idt := Function.update b.idt i (fillgate routine) }

end Board

/-- [SRC md.h:46-52] -/
def splhigh (depth : Nat) : Nat := depth + 1

/-- `none` is the panic.  [SRC md.h:54-62] -/
def spl0 (depth : Nat) : Option Nat := if depth = 0 then none else some (depth - 1)

/-- [SRC machdep.c:91-97] -/
def pic1Cmd : UInt16 := 0x20
def pic1Data : UInt16 := 0x21
def pic2Cmd : UInt16 := 0xa0
def pic2Data : UInt16 := 0xa1
def icw1Ic4 : UInt8 := 0x01
def icw1Init : UInt8 := 0x10
def icw48086 : UInt8 := 0x01

/-- The bit of a line of one controller, `1<<line` -/
def irqBit (line : UInt8) : UInt8 := (1 : UInt8) <<< line

/-- [SRC machdep.c:99-118] -/
def initpic (b : Board) : Board :=
  b.outbs [
    (pic1Cmd, icw1Init ||| icw1Ic4),
    (pic1Data, 32),
    (pic1Data, irqBit 2),
    (pic1Data, icw48086),
    (pic1Data, 0xff &&& ~~~irqBit 2),
    (pic2Cmd, icw1Init ||| icw1Ic4),
    (pic2Data, 32 + 8),
    (pic2Data, 2),
    (pic2Data, icw48086),
    (pic2Data, 0xff)]

/-- [SRC machdep.c:120-125] -/
def timerCntr : UInt16 := 0x40
def timerMode : UInt16 := 0x43
def timerRategen : UInt8 := 0x04
def timer16bit : UInt8 := 0x30
def timerHz : UInt32 := 1193182
def hz : UInt32 := 100

/-- The gates of the processor's own exceptions.  [SRC machdep.c:152-154] -/
def fillExceptions (s : Stubs) (b : Board) : Board :=
  { b with idt := fun i => if i < 32 then fillgate s.bmkCpuInsr else b.idt i }

/-- The segments and the two table registers are left out.  [SRC machdep.c:131-172] -/
def bmkCpuInit (s : Stubs) (b : Board) : Option Board :=
  let b := (initpic (fillExceptions s b)).setGate 32 s.bmkCpuIsrClock
  let b := b.outbs [
    (timerMode, timerRategen ||| timer16bit),
    (timerCntr, ((timerHz / hz) &&& 0xff).toUInt8),
    (timerCntr, ((timerHz / hz) >>> 8).toUInt8)]
  (spl0 b.splDepth).map fun depth => { b with splDepth := depth }

/-- The mask that `bmk_cpu_intr_init` writes for a line.  [SRC machdep.c:194] -/
def slaveMask (intr : Int32) : UInt8 := (0xff &&& ~~~((1 : UInt32) <<< (intr - 8).toUInt32)).toUInt8

/-- The error, `0` for success, and the board.  [SRC machdep.c:174-197] -/
def bmkCpuIntrInit (s : Stubs) (b : Board) (intr : Int32) : UInt32 × Board :=
  if intr < 8 then (eGeneric, b)
  else if intr = 10 then (0, (b.setGate (32 + 10) s.bmkCpuIsr10).outb pic2Data (slaveMask intr))
  else if intr = 11 then (0, (b.setGate (32 + 11) s.bmkCpuIsr11).outb pic2Data (slaveMask intr))
  else (eGeneric, b)

/-- The clock line is open while the processor halts.  [SRC machdep.c:199-209] -/
def bmkCpuNanohlt (b : Board) : Board :=
  b.outbs [(pic1Data, 0xff &&& ~~~(irqBit 2 ||| irqBit 0)), (pic1Data, 0xff &&& ~~~irqBit 2)]

end RumpBaremetal
