/-
Module: RumpBaremetal.Arch.IsrStubs
Layer: Arch
Purpose: The interrupt service routines of locore32.S that call into C, `bmk_cpu_isr_clock` and the two
  instances of `INTRSTUB`, as listings, and what the interrupted code expects of them.
Trusted boundary: human-reviewed spec
Main exports: bmkCpuIsrClock, intrstub, bmkCpuIsr10, bmkCpuIsr11, Handlers, Image, Image.code,
  Image.clockEntry, Interrupted, Preserved
-/
import RumpBaremetal.Lib.Interrupt

namespace RumpBaremetal.IsrStubs

open I386

/-! ### The text -/

/-- [SRC locore32.S:82-89] -/
def bmkCpuIsrClock (bmkIsrClock : UInt32) : List ServiceInstr :=
  [ .cli,
    .call bmkIsrClock,
    .movAl 0x20,
    .outAl 0x20,
    .sti,
    .iret ]

/-- `INTRSTUB(intnum)`.  [SRC locore32.S:95-111] -/
def intrstub (bmkIsr intnum : UInt32) : List ServiceInstr :=
  [ .cli,
    .plain (.pushReg .eax),
    .plain (.pushReg .ebx),
    .plain (.pushReg .ecx),
    .plain (.pushReg .edx),
    .plain (.pushImm intnum),
    .call bmkIsr,
    .addImm 4 .esp,
    .plain (.popReg .edx),
    .plain (.popReg .ecx),
    .plain (.popReg .ebx),
    .plain (.popReg .eax),
    .sti,
    .iret ]

/-- [SRC locore32.S:113] -/
def bmkCpuIsr10 (bmkIsr : UInt32) : List ServiceInstr := intrstub bmkIsr 10

/-- [SRC locore32.S:114] -/
def bmkCpuIsr11 (bmkIsr : UInt32) : List ServiceInstr := intrstub bmkIsr 11

/-- The positions in the text at which the routines begin. -/
def clockAt : Nat := 0
def isr10At : Nat := 6
def isr11At : Nat := 20

/-- What the two C functions do, called in any state. -/
structure Handlers where
  bmkIsr : Core → Core
  bmkIsrClock : Core → Core

/-- Where the linker has put the instructions and the two C functions. -/
structure Image where
  addr : Nat → UInt32
  bmkIsr : UInt32
  bmkIsrClock : UInt32
  distinct : ∀ i j, i < 34 → j < 34 → addr i = addr j → i = j
  outside : ∀ i < 34, addr i ≠ bmkIsr ∧ addr i ≠ bmkIsrClock
  handlers_ne : bmkIsrClock ≠ bmkIsr

def Image.callee (img : Image) (h : Handlers) (f : UInt32) : Option (Core → Core) :=
  if f = img.bmkIsr then some h.bmkIsr else if f = img.bmkIsrClock then some h.bmkIsrClock else none

/-- The routines follow each other in the text. -/
def Image.code (img : Image) (h : Handlers) : Code where
  text := bmkCpuIsrClock img.bmkIsrClock ++ bmkCpuIsr10 img.bmkIsr ++ bmkCpuIsr11 img.bmkIsr
  addr := img.addr
  distinct := img.distinct
  callee := img.callee h
  outside := by
    intro f hf i hi heq
    obtain ⟨hisr, hclock⟩ := img.outside i hi
    rw [Image.callee, if_neg (heq ▸ hisr), if_neg (heq ▸ hclock)] at hf
    cases hf

/-- The state in which `bmk_isr_clock` is entered. -/
def Image.clockEntry (img : Image) (s : Core) : Core :=
  ServiceInstr.exec (img.addr 2) (ServiceInstr.exec (img.addr 1) s .cli) (.call img.bmkIsrClock)

/-! ### What the routines are for -/

/-- The processor has taken an interrupt on the stack: the address to return to, the code segment and the
    flags are on top, and below there is room for the words of a stub and the `depth` bytes that its C
    function needs. -/
structure Interrupted (stack : Extent) (depth : Nat) (s : Core) : Prop where
  room : stack.start + depth + 24 ≤ (s.cpu.regs .esp).toNat
  frame : (s.cpu.regs .esp).toNat + 12 ≤ stack.fin
  fin_le : stack.fin ≤ 2 ^ 32

/-- The stack of the interrupted code is as it was. -/
def StackKept (stack : Extent) (s s' : Core) : Prop :=
  ∀ b, (s.cpu.regs .esp).toNat ≤ b → b < stack.fin → s'.cpu.mem b = s.cpu.mem b

/-- The interrupted code does not notice. -/
structure Preserved (stack : Extent) (s s' : Core) : Prop where
  regs : ∀ r, s'.cpu.regs r = s.cpu.regs r
  kept : StackKept stack s s'

end RumpBaremetal.IsrStubs
