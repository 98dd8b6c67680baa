/-
Module: RumpBaremetal.Kernel.ThreadMemory
Layer: Kernel
Purpose: The scheduler of sched.c together with the memory that its threads are made of.  `bmk_sched_create`
  takes a record, and a stack unless it is given one, from the heap; the reaper gives both back.  Meanwhile
  others use the heap, and the records and stacks of the threads on the scheduler's queues are written to.
Trusted boundary: human-reviewed spec
Main exports: bmkXmalloc, World, boot, clearRecord, bmkSchedCreate, freeThread, reapedBetween, Event,
  enabled, effect, step
-/
import RumpBaremetal.Kernel.Memory
import RumpBaremetal.Kernel.Sched

namespace RumpBaremetal.ThreadMemory

open Sched (Tid)

/-- `sizeof(struct bmk_thread)`: sixteen characters, two pointers, eight bytes of time, two integers, the
    stack, the two words of `bt_tcb` and the two pointers of `bt_entries`.  [SRC sched.c:85-104] -/
def sizeofThread : UInt32 := 60

/-- `THREAD_STACKSIZE` [SRC sched.c:83] -/
def threadStacksize : UInt32 := 0x10000

/-- `bmk_xmalloc`: the pointer and the memory afterwards; `none` is the panic.  [SRC memalloc.c:303-312] -/
def bmkXmalloc (m : Memory) (howmuch : UInt32) : Option (UInt32 × Memory) :=
  match (m.store.request (.memalloc howmuch 0)).1 with
  | .ptr rv => if rv = 0 then none else some (rv, m.request (.memalloc howmuch 0))
  | _ => none

/-- [SRC sched.c:140-145] -/
def stackalloc (m : Memory) : Option (UInt32 × Memory) := bmkXmalloc m threadStacksize

/-- [SRC sched.c:147-152] -/
def stackfree (m : Memory) (stack : UInt32) : Memory := m.request (.memfree stack)

/-- The scheduler and the memory.  `record` is where the `struct bmk_thread` of a thread is, and `stack`
    what `stackalloc` has returned for it; `clients` is a record of what everybody else holds in the heap,
    by pointer and size. -/
structure World where
  sched : Sched.World
  memory : Memory
  record : Tid → UInt32
  stack : Tid → UInt32
  clients : List (UInt32 × UInt32)
  panicked : Bool

/-- After `bmk_sched_init`.  The record of `init_thread` is static, and it has no `bt_stackbase`.
    [SRC sched.c:373-386] -/
def boot (mem : ByteMem) (bmkMembase bmkMemsize initThread : UInt32) : World where
  sched := Sched.bmkSchedInit
  memory := .boot mem bmkMembase bmkMemsize
  record := Function.update (fun _ => 0) 0 initThread
  stack := fun _ => 0
  clients := []
  panicked := false

/-- `bmk_memset` of a new record.  [SRC sched.c:240] -/
def clearRecord (m : Memory) (thread : UInt32) : Memory :=
  m.writeBytes thread.toNat (List.replicate sizeofThread.toNat 0)

/-- `bmk_sched_create`: the record comes first, and the stack is allocated behind the assertion.
    [SRC sched.c:239-249] -/
def bmkSchedCreate (w : World) (thrflags : Int) (stackBase : Option Nat) (stackSize : Nat) : World :=
  match bmkXmalloc w.memory sizeofThread with
  | none => { w with panicked := true }
  | some (thread, memory) =>
      let memory := clearRecord memory thread
      let created :=
        { w with
          memory := memory
          record := Function.update w.record w.sched.created thread
          sched := Sched.bmkSchedCreate w.sched thrflags stackBase stackSize }
      match stackBase with
      | some _ => created
      | none =>
          if stackSize ≠ 0 then created
          else
            match stackalloc memory with
            | none => { w with memory := memory, panicked := true }
            | some (stack, memory) =>
                { created with memory := memory, stack := Function.update w.stack w.sched.created stack }

/-- What the reaper gives back for one thread.  [SRC sched.c:223-225] -/
def freeThread (w : World) (memory : Memory) (thread : Tid) : Memory :=
  let memory := if (w.sched.tcb thread).flags.extstack then memory else stackfree memory (w.stack thread)
  memory.request (.memfree (w.record thread))

/-- The threads that the reaper has freed between two states of the scheduler, in its order. -/
def reapedBetween (s s' : Sched.World) : List Tid :=
  (s'.freedThreads.take (s'.freedThreads.length - s.freedThreads.length)).reverse

/-- What can happen next. -/
inductive Event where
  | sched (e : Sched.Event)
  /-- Somebody else uses the store. -/
  | client (r : StoreRequest)
  /-- A write to the record of a thread, by the scheduler. -/
  | field (thread : Tid) (offset : Nat) (byte : UInt8)
  /-- A write to the stack of a thread: its own, or that of its creator before it has run, or that of
      another thread which queues behind a structure on this stack. -/
  | push (thread : Tid) (offset : Nat) (byte : UInt8)
deriving DecidableEq, Repr

/-- The thread is on one of the scheduler's queues, and it is not the static one. -/
def World.queued (w : World) (thread : Tid) : Prop :=
  thread ≠ 0 ∧ (thread ∈ w.sched.threads ∨ thread ∈ w.sched.zombies)

instance (w : World) (thread : Tid) : Decidable (w.queued thread) := inferInstanceAs (Decidable (_ ∧ _))

/-- Clients give back and write to what they hold.  The record and the stack of a thread may be written to
    for as long as it is on a queue; nothing here says that the memory is still its own. -/
def enabled (w : World) : Event → Prop
  | .sched e => Sched.enabled w.sched e = true
  | .client (.memalloc nbytes align) => nbytes.toNat + (headerRoom (effectiveAlign align)).toNat < 2 ^ 32
  | .client (.memfree cp) => cp = 0 ∨ ∃ c ∈ w.clients, c.1 = cp
  | .client (.allocpg _) => True
  | .client (.write addr _) =>
      (∃ c ∈ w.clients, c.1.toNat ≤ addr ∧ addr < c.1.toNat + c.2.toNat) ∨
        ∃ g ∈ w.memory.taken, g.extent.start ≤ addr ∧ addr < g.extent.fin
  | .field thread offset _ => w.queued thread ∧ offset < sizeofThread.toNat
  | .push thread offset _ =>
      w.queued thread ∧ (w.sched.tcb thread).flags.extstack = false ∧ offset < threadStacksize.toNat

instance (w : World) : (e : Event) → Decidable (enabled w e)
  | .sched _ => inferInstanceAs (Decidable (_ = true))
  | .client (.memalloc _ _) => inferInstanceAs (Decidable (_ < _))
  | .client (.memfree _) => inferInstanceAs (Decidable (_ ∨ ∃ c ∈ w.clients, _))
  | .client (.allocpg _) => inferInstanceAs (Decidable True)
  | .client (.write _ _) => inferInstanceAs (Decidable ((∃ c ∈ w.clients, _) ∨ ∃ g ∈ w.memory.taken, _))
  | .field _ _ _ => inferInstanceAs (Decidable (_ ∧ _))
  | .push _ _ _ => inferInstanceAs (Decidable (_ ∧ _ ∧ _))

/-- What the clients hold after a request of one of them, from its answer. -/
def clientsAfter (clients : List (UInt32 × UInt32)) : StoreRequest → Answer → List (UInt32 × UInt32)
  | .memalloc nbytes _, .ptr rv => if rv = 0 then clients else (rv, nbytes) :: clients
  | .memfree cp, .done => clients.eraseP fun c => c.1 = cp
  | _, _ => clients

/-- What an event does.  Of the scheduler's functions only `bmk_sched_create` and the reaper touch the
    heap. -/
def effect (w : World) : Event → World
  | .sched (.create thrflags stackBase stackSize) => bmkSchedCreate w thrflags stackBase stackSize
  | .sched e =>
      let sched := Sched.effect w.sched e
      { w with
        sched := sched
        memory := (reapedBetween w.sched sched).foldl (freeThread w) w.memory }
  | .client r =>
      { w with
        memory := w.memory.request r
        clients := clientsAfter w.clients r (w.memory.store.request r).1 }
  | .field thread offset byte =>
      { w with memory := w.memory.request (.write ((w.record thread).toNat + offset) byte) }
  | .push thread offset byte =>
      { w with memory := w.memory.request (.write ((w.stack thread).toNat + offset) byte) }

/-- A failed assertion or a panic has stopped the machine. -/
def World.stopped (w : World) : Bool := w.panicked || w.sched.halted.isSome || w.memory.store.halted

def step (w : World) (e : Event) : Option World :=
  if w.stopped = false ∧ enabled w e then some (effect w e) else none

theorem step_inv {w w' : World} {e : Event} (h : step w e = some w') :
    w.stopped = false ∧ enabled w e ∧ w' = effect w e := by
  unfold step at h
  split at h
  · rename_i hok
    exact ⟨hok.1, hok.2, (Option.some.inj h).symm⟩
  · cases h

end RumpBaremetal.ThreadMemory
