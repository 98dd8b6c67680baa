/-
Module: RumpBaremetal.Fiber.Delivery
Layer: Fiber
Purpose: How an interrupt gets from a device to its handlers.  The two controllers are programmed by what
  machdep.c, intr.c and the stubs write to their ports; the processor takes an interrupt when they offer one
  and the interrupt depth is zero, goes through the gate of its vector, and the routine there tells
  `bmk_isr` the line, or, for the clock, ends the interrupt itself.  All other interrupts are ended by the
  interrupt thread, when it has called the handlers.
Trusted boundary: human-reviewed spec
Main exports: GateDescriptor.target, Routine, Stubs.routine, Machine, boot, deliver, Event, enabled, effect,
  step
-/
import RumpBaremetal.Fiber.Isr
import RumpBaremetal.Lib.Pic

namespace RumpBaremetal

/-- The address that the processor goes to: the gate is present, it is one for interrupts, and it names the
    code segment. -/
def GateDescriptor.target (g : GateDescriptor) : Option UInt32 :=
  if g.gdP = 1 ∧ g.gdType = 14 ∧ g.gdSelector = 0x8 then some ⟨g.gdHioffset ++ g.gdLooffset⟩ else none

namespace Delivery

/-- The routines of locore32.S that a gate can lead to.  [SRC locore32.S:73-114] -/
inductive Routine where
  /-- `bmk_cpu_insr`, which returns. -/
  | insr
  | clock
  /-- `INTRSTUB` for a line. -/
  | isr (which : Nat)
deriving DecidableEq, Repr

end Delivery

/-- What is at an address. -/
def Stubs.routine (s : Stubs) (addr : UInt32) : Option Delivery.Routine :=
  if addr = s.bmkCpuInsr then some .insr
  else if addr = s.bmkCpuIsrClock then some .clock
  else if addr = s.bmkCpuIsr10 then some (.isr 10)
  else if addr = s.bmkCpuIsr11 then some (.isr 11)
  else none

/-- The routines are in different places. -/
def Stubs.Apart (s : Stubs) : Prop := [s.bmkCpuInsr, s.bmkCpuIsrClock, s.bmkCpuIsr10, s.bmkCpuIsr11].Nodup

instance (s : Stubs) : Decidable s.Apart := inferInstanceAs (Decidable (List.Nodup _))

namespace Delivery

/-- Where the processor is in `bmk_cpu_nanohlt`. -/
inductive Hlt where
  | outside
  /-- At `hlt`. -/
  | halted
  /-- Behind `hlt`, after an interrupt. -/
  | woken
deriving DecidableEq, Repr

/-- `lost` is set when an interrupt goes through a gate that leads to none of the routines, or a controller
    is sent something that it is not known to understand. -/
structure Machine (Wh Fun Arg : Type*) where
  node : Node Wh Fun Arg
  pics : Pic.Pair
  hlt : Hlt
  lost : Bool

/-- A byte written to a port. -/
def outb (p : Pic.Pair) (write : UInt16 × UInt8) : Option Pic.Pair :=
  if write.1 = pic1Cmd then (p.master.command write.2).map fun chip => { p with master := chip }
  else if write.1 = pic1Data then (p.master.data write.2).map fun chip => { p with master := chip }
  else if write.1 = pic2Cmd then (p.slave.command write.2).map fun chip => { p with slave := chip }
  else if write.1 = pic2Data then (p.slave.data write.2).map fun chip => { p with slave := chip }
  else some p

/-- What has been written to the ports since, in order. -/
def written (before after : Board) : List (UInt16 × UInt8) :=
  (after.ports.take (after.ports.length - before.ports.length)).reverse

variable {Wh Fun Arg : Type*}

namespace Machine

/-- The node has moved on, and the controllers have got what it has written. -/
def follow (w : Machine Wh Fun Arg) (node : Node Wh Fun Arg) : Machine Wh Fun Arg :=
  match (written w.node.intr.board node.intr.board).foldlM outb w.pics with
  | some pics => { w with node := node, pics := pics }
  | none => { w with node := node, lost := true }

/-- A port is written to outside of the steps of the node. -/
def write (w : Machine Wh Fun Arg) (port : UInt16) (value : UInt8) : Machine Wh Fun Arg :=
  w.follow { w.node with intr := { w.node.intr with board := w.node.intr.board.outb port value } }

end Machine

/-- Behind `bmk_cpu_init`, `bmk_sched_init` and `bmk_isr_init`, whatever state the controllers were in
    before.
    [SRC kernel.c:74-76] -/
def boot (s : Stubs) (bios : Pic.Pair) (clock : Nat) : Option (Machine Wh Fun Arg) :=
  (intrBoot s).bind fun intr =>
    ((written .reset intr.board).foldlM outb bios).map fun pics =>
      ⟨Node.start intr clock, pics, .outside, false⟩

/-- The processor takes an interrupt.  `bmk_isr_clock` does nothing, and the stub behind it writes the end
    of the interrupt.
    [SRC locore32.S:73-114, intr.c:22-27] -/
def deliver (s : Stubs) (w : Machine Wh Fun Arg) : Machine Wh Fun Arg :=
  match w.pics.acknowledge with
  | none => w
  | some (vector, pics) =>
      let w := { w with pics := pics, hlt := if w.hlt = Hlt.halted then .woken else w.hlt }
      match (w.node.intr.board.idt vector.toNat).target.bind s.routine with
      | some .insr => w
      | some .clock => w.write pic1Cmd 0x20
      | some (.isr which) => { w with node := bmkIsr w.node which }
      | none => { w with lost := true }

inductive Event (Wh Fun Arg : Type*) where
  /-- A device requests an interrupt. -/
  | request (line : Nat)
  | deliver
  /-- `bmk_cpu_nanohlt` up to `hlt`.  [SRC machdep.c:206-207] -/
  | hlt
  /-- `bmk_cpu_nanohlt` behind `hlt`.  [SRC machdep.c:208] -/
  | resume
  | node (e : NodeEvent Wh Fun Arg)
deriving DecidableEq, Repr

variable [DecidableEq Wh]

/-- Interrupts come from the controllers only.  `bmk_sched` may halt the processor between any two passes of
    its loop, and nothing but time goes on while it is in `bmk_cpu_nanohlt`. -/
def nodeMoves (w : Machine Wh Fun Arg) : NodeEvent Wh Fun Arg → Bool
  | .irq _ => false
  | .tick _ => true
  | _ => w.hlt == .outside

/-- The devices have all lines but the one of the slave. -/
def enabled (w : Machine Wh Fun Arg) : Event Wh Fun Arg → Bool
  | .request line => line < 16 && line != 2
  | .deliver => w.node.intr.board.splDepth == 0 && w.pics.acknowledge.isSome
  | .hlt => w.node.sched.scheduling && w.hlt == .outside
  | .resume => w.hlt == .woken
  | .node e => nodeMoves w e && nodeEnabled w.node e

def effect (s : Stubs) (w : Machine Wh Fun Arg) : Event Wh Fun Arg → Machine Wh Fun Arg
  | .request line => { w with pics := w.pics.request line }
  | .deliver => deliver s w
  | .hlt => { w.write pic1Data (0xff &&& ~~~(irqBit 2 ||| irqBit 0)) with hlt := .halted }
  | .resume => { w.write pic1Data (0xff &&& ~~~irqBit 2) with hlt := .outside }
  | .node e => w.follow (nodeEffect s w.node e)

/-- Nothing follows a panic, a failed assertion or a lost interrupt. -/
def step (s : Stubs) (w : Machine Wh Fun Arg) (e : Event Wh Fun Arg) : Option (Machine Wh Fun Arg) :=
  if w.lost = false ∧ w.node.sched.halted.isNone ∧ w.node.intr.halted = false ∧
    enabled w e then some (effect s w e)
  else none

theorem step_inv {s : Stubs} {w w' : Machine Wh Fun Arg} {e : Event Wh Fun Arg} (h : step s w e = some w') :
    w.lost = false ∧ w.node.sched.halted.isNone ∧ w.node.intr.halted = false ∧ enabled w e = true ∧
    w' = effect s w e := by
  unfold step at h
  split at h
  · rename_i hok
    exact ⟨hok.1, hok.2.1, hok.2.2.1, hok.2.2.2, (Option.some.inj h).symm⟩
  · cases h

end Delivery

end RumpBaremetal
