/-
Module: RumpBaremetal.Arch.Switch
Layer: Arch
Purpose: Context switching: the listings of `bmk_cpu_sched_switch` and `bmk_cpu_sched_bouncer`, the C code
  that lays out a fresh stack for them, and the machine in which threads run on stacks of their own.  What a
  thread does by itself is any change of the registers and of memory that spares the stacks of the other
  threads and the control blocks; a switch is executed instruction by instruction.
Trusted boundary: human-reviewed spec
Main exports: bmkCpuSchedBouncer, bmkCpuSchedSwitch, Image, Place, stackPush, bmkCpuSchedCreate,
  bmkSchedCreate, Status, Machine, switchRun, Event, enabled, effect, step
-/
import RumpBaremetal.Lib.I386

namespace RumpBaremetal.Switch

open I386

/-! ### The text -/

/-- [SRC locore32.S:122-130] -/
def bmkCpuSchedBouncer : List Instr :=
  [ .popReg .eax,
    .popReg .ebx,
    .pushImm 0,
    .xorReg .ebp .ebp,
    .pushReg .eax,
    .callReg .ebx ]

/-- Up to the `ret` that continues the next thread; `resumed` is the address of the label `1`.
    [SRC locore32.S:132-143] -/
def bmkCpuSchedSwitch (resumed : UInt32) : List Instr :=
  [ .load 4 .esp .ecx,
    .load 8 .esp .edx,
    .pushReg .ebp,
    .pushReg .ebx,
    .pushReg .esi,
    .pushReg .edi,
    .store .esp 0 .ecx,
    .load 0 .edx .esp,
    .storeImm resumed 4 .ecx,
    .pushMem 4 .edx,
    .ret ]

/-- From the label `1` to the end of `bmk_cpu_sched_switch`.  [SRC locore32.S:144-150] -/
def bmkCpuSchedSwitchResumed : List Instr :=
  [ .popReg .edi,
    .popReg .esi,
    .popReg .ebx,
    .popReg .ebp,
    .ret ]

/-- The positions in the text at which the pieces begin. -/
def bouncerAt : Nat := 0
def switchAt : Nat := 6
def resumedAt : Nat := 17

/-- The text of the two routines, which follow each other, with `addr` the addresses of the instructions. -/
def text (addr : Nat → UInt32) : List Instr :=
  bmkCpuSchedBouncer ++ bmkCpuSchedSwitch (addr resumedAt) ++ bmkCpuSchedSwitchResumed

/-- Where the linker has put the instructions. -/
structure Image where
  addr : Nat → UInt32
  distinct : ∀ i j, i < 22 → j < 22 → addr i = addr j → i = j

def Image.program (img : Image) : Program := ⟨text img.addr, img.addr, img.distinct⟩

/-- The two instructions that leave the text: the call in the bouncer and the last `ret`. -/
def leaves (i : Nat) : Bool := i = 5 || i = 21

/-! ### The memory of a thread -/

/-- Where the stack and the `bt_tcb` of a thread are.  [SRC sched.c:95-101] -/
structure Place where
  stack : Extent
  tcb : UInt32
  stack_lt : stack.fin < 2 ^ 32
  tcb_le : tcb.toNat + 8 ≤ 2 ^ 32
  apart : stack.Apart ⟨tcb.toNat, 8⟩

/-- The two words `btcb_sp` and `btcb_ip`. -/
def Place.tcbExtent (p : Place) : Extent := ⟨p.tcb.toNat, 8⟩

/-- Nothing of the one thread overlaps anything of the other. -/
def Place.Apart (p q : Place) : Prop :=
  (p.stack.Apart q.stack ∧ p.stack.Apart q.tcbExtent) ∧ p.tcbExtent.Apart q.stack ∧
    p.tcbExtent.Apart q.tcbExtent

instance (p q : Place) : Decidable (p.Apart q) := inferInstanceAs (Decidable ((_ ∧ _) ∧ _ ∧ _))

/-- [SRC cpu_sched.c:43-51] -/
def stackPush (mem : ByteMem) (stackp value : UInt32) : ByteMem × UInt32 :=
  let stack := stackp - 4
  (mem.store32 stack.toNat value, stack)

/-- [SRC cpu_sched.c:54-62] -/
def bmkCpuSchedCreate (mem : ByteMem) (f arg stackp : UInt32) : ByteMem × UInt32 :=
  let pushed := stackPush mem stackp f
  stackPush pushed.1 pushed.2 arg

/-- What `bmk_sched_create` leaves on the stack and in `bt_tcb` of the new thread.  [SRC sched.c:249-255] -/
def bmkSchedCreate (img : Image) (mem : ByteMem) (place : Place) (f data : UInt32) : ByteMem :=
  let created := bmkCpuSchedCreate mem f data (UInt32.ofNat place.stack.fin)
  (created.1.store32 place.tcb.toNat created.2).store32 (place.tcb + 4).toNat (img.addr bouncerAt)

/-! ### The machine -/

/-- What a thread is doing: a record for the statements about switches, which no instruction reads. -/
inductive Status where
  | running
  /-- Set up by `bmk_sched_create` and not yet dispatched. -/
  | fresh (f data : UInt32)
  /-- Inside `bmk_cpu_sched_switch`, which it called with the processor in this state. -/
  | suspended (call : Cpu)

structure Machine (Tid : Type*) where
  cpu : Cpu
  current : Tid
  threads : List Tid
  place : Tid → Place
  status : Tid → Status

variable {Tid : Type*} [DecidableEq Tid]

/-- The first thread is running on the boot stack, as `bmk_sched_init` finds it.  [SRC sched.c:370-386] -/
def Machine.start (cpu : Cpu) (init : Tid) (place : Place) : Machine Tid where
  cpu := cpu
  current := init
  threads := [init]
  place := fun _ => place
  status := fun _ => .running

/-- The call of `bmk_cpu_sched_switch`, executed up to where it returns or enters a thread.  It executes 16
    or 17 of the 22 instructions. -/
def switchRun (img : Image) (cpu : Cpu) : Option (Cpu × List Nat) := img.program.runTo leaves 22 cpu

inductive Event (Tid : Type*) where
  /-- The running thread executes code of its own: whatever it does to the registers, and the bytes it
      writes. -/
  | own (regs : Reg → UInt32) (eip : UInt32) (writes : List (Nat × UInt8))
  /-- It calls `bmk_sched_create`. -/
  | create (t : Tid) (f data : UInt32) (place : Place)
  /-- It has called `bmk_cpu_sched_switch` from `sched_switch`. -/
  | schedSwitch (next : Tid)
  /-- The memory of a dead thread is given back. -/
  | reap (t : Tid)

/-- The byte is neither in a control block nor in the stack of another thread. -/
def Machine.mayWrite (m : Machine Tid) (a : Nat) : Bool :=
  m.threads.all fun t =>
    decide (Extent.Apart ⟨a, 1⟩ (m.place t).tcbExtent) &&
      (decide (t = m.current) || decide (Extent.Apart ⟨a, 1⟩ (m.place t).stack))

/-- The arguments of the call lie behind the return address.  [SRC sched.c:173] -/
def Machine.callsSwitch (img : Image) (m : Machine Tid) (next : Tid) : Bool :=
  decide (m.cpu.eip = img.addr switchAt) &&
    decide (m.cpu.word (m.cpu.regs .esp + 4) = (m.place m.current).tcb) &&
    decide (m.cpu.word (m.cpu.regs .esp + 8) = (m.place next).tcb)

/-- The return address and the arguments are on the stack, and there is room below for the four registers,
    and for the address that the switch back to this thread will push. -/
def Machine.hasRoom (m : Machine Tid) : Bool :=
  decide ((m.place m.current).stack.start + 20 ≤ (m.cpu.regs .esp).toNat) &&
    decide ((m.cpu.regs .esp).toNat + 12 ≤ (m.place m.current).stack.fin)

def enabled (img : Image) (m : Machine Tid) : Event Tid → Bool
  | .own _ _ writes => writes.all fun write => m.mayWrite write.1
  | .create t _ _ place =>
      decide (t ∉ m.threads) && (m.threads.all fun u => decide (place.Apart (m.place u))) &&
        decide (12 ≤ place.stack.len)
  | .schedSwitch next =>
      decide (next ∈ m.threads) && decide (next ≠ m.current) && m.callsSwitch img next && m.hasRoom
  | .reap t => decide (t ∈ m.threads) && decide (t ≠ m.current)

/-- Write the bytes, one after the other. -/
def writeBytes (mem : ByteMem) (writes : List (Nat × UInt8)) : ByteMem :=
  writes.foldl (fun mem write => Function.update mem write.1 write.2) mem

def effect (img : Image) (m : Machine Tid) : Event Tid → Option (Machine Tid)
  | .own regs eip writes => some { m with cpu := ⟨regs, eip, writeBytes m.cpu.mem writes⟩ }
  | .create t f data place =>
      some { m with
        cpu := { m.cpu with mem := bmkSchedCreate img m.cpu.mem place f data }
        threads := t :: m.threads
        place := Function.update m.place t place
        status := Function.update m.status t (.fresh f data) }
  | .schedSwitch next =>
      -- `current_thread` has been set before the call
      (switchRun img m.cpu).map fun switched =>
        { m with
          cpu := switched.1
          current := next
          status := Function.update (Function.update m.status m.current (.suspended m.cpu)) next .running }
  | .reap t => some { m with threads := m.threads.filter fun u => u ≠ t }

def step (img : Image) (m : Machine Tid) (e : Event Tid) : Option (Machine Tid) :=
  if enabled img m e then effect img m e else none

theorem step_inv {img : Image} {m m' : Machine Tid} {e : Event Tid} (h : step img m e = some m') :
    enabled img m e = true ∧ effect img m e = some m' := by
  unfold step at h
  split at h
  · rename_i henabled
    exact ⟨henabled, h⟩
  · cases h

end RumpBaremetal.Switch
