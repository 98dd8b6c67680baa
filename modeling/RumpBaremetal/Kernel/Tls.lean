/-
Module: RumpBaremetal.Kernel.Tls
Layer: Kernel
Purpose: What a thread has for itself: the two pointers of `bt_tls`, in one of which rumpfiber.c keeps
  `curlwp`, and `bt_errno`.  They lie in the record of the thread, which the scheduler takes from the heap,
  and which comes back to the heap when the thread is reaped.  The threads, the clients of the heap and the
  reaper take turns on one memory.  Above it stands the machine that the callers have in mind, where every
  thread has variables of its own and there is no memory.
Trusted boundary: human-reviewed spec
Main exports: bmkSchedSettls, bmkSchedGettls, bmkSchedGeterrno, rumpuserSeterrno, rumpuserCurlwp,
  rumpuserCurlwpop, Call, Event, enabled, effect, step, Var, Locals, Locals.init, Locals.step
-/
import RumpBaremetal.Kernel.ThreadMemory

namespace RumpBaremetal

/-- A word, least significant byte first. -/
def Memory.writeWord (m : Memory) (addr : Nat) (x : UInt32) : Memory :=
  m.writeBytes addr ((List.range 4).map (ByteMem.byte x))

namespace Tls

open Sched (Tid)
open ThreadMemory (World)

/-- `TLS_COUNT` [SRC sched.c:74] -/
def tlsCount : UInt32 := 2

/-- `BMK_TLS_RUMPLWP` [SRC rumpfiber.c:39] -/
def bmkTlsRumplwp : UInt32 := 0

/-- `offsetof(struct bmk_thread, bt_tls)`: behind the name.  [SRC sched.c:85-88] -/
def offsetofTls : Nat := 16

/-- `offsetof(struct bmk_thread, bt_errno)`: behind the name, the two pointers, eight bytes of time and the
    flags.
    [SRC sched.c:85-93] -/
def offsetofErrno : Nat := 36

/-- `&thread->bt_tls[which]` -/
def tlsAddr (w : World) (thread : Tid) (which : UInt32) : Nat :=
  (w.record thread).toNat + (offsetofTls + 4 * which.toNat)

/-- [SRC sched.c:411-418] -/
def bmkSchedSettls (w : World) (thread : Tid) (which value : UInt32) : World :=
  if which ≥ tlsCount then { w with panicked := true }
  else { w with memory := w.memory.writeWord (tlsAddr w thread which) value }

/-- `none` is the panic.  [SRC sched.c:420-427] -/
def bmkSchedGettls (w : World) (thread : Tid) (which : UInt32) : Option UInt32 :=
  if which ≥ tlsCount then none else some (w.memory.store.heap.mem.load32 (tlsAddr w thread which))

/-- The address of `bt_errno` of the running thread; `__errno` returns the same.
    [SRC sched.c:403-409, libc_errno.c:7-12] -/
def bmkSchedGeterrno (w : World) : Nat := (w.record w.sched.currentThread).toNat + offsetofErrno

/-- [SRC rumpfiber.c:56-62] -/
def rumpuserSeterrno (w : World) (error : UInt32) : World :=
  { w with memory := w.memory.writeWord (bmkSchedGeterrno w) error }

/-- [SRC rumpfiber.c:501-506] -/
def rumpuserCurlwp (w : World) : Option UInt32 := bmkSchedGettls w w.sched.currentThread bmkTlsRumplwp

/-- `enum rumplwpop` -/
inductive Rumplwpop where
  | create
  | destroy
  | set
  | clear
deriving DecidableEq, Repr

/-- [SRC rumpfiber.c:478-499] -/
def rumpuserCurlwpop (w : World) (op : Rumplwpop) (l : UInt32) : World :=
  match op with
  | .create | .destroy => w
  | .set =>
      if rumpuserCurlwp w = some 0 then bmkSchedSettls w w.sched.currentThread bmkTlsRumplwp l
      else { w with panicked := true }
  | .clear =>
      if rumpuserCurlwp w = some l then bmkSchedSettls w w.sched.currentThread bmkTlsRumplwp 0
      else { w with panicked := true }

/-! ### The machine -/

/-- The calls of the threads. -/
inductive Call where
  | sched (e : Sched.Event)
  | settls (thread : Tid) (which value : UInt32)
  | gettls (thread : Tid) (which : UInt32)
  | seterrno (error : UInt32)
  | curlwpop (op : Rumplwpop) (l : UInt32)
deriving DecidableEq, Repr

inductive Event where
  | call (c : Call)
  /-- Somebody uses the heap. -/
  | client (r : StoreRequest)
  /-- The scheduler writes to another field of a record. -/
  | field (thread : Tid) (offset : Nat) (byte : UInt8)
  | push (thread : Tid) (offset : Nat) (byte : UInt8)
deriving DecidableEq, Repr

/-- The thread is on one of the scheduler's queues. -/
def onQueue (w : Sched.World) (thread : Tid) : Prop := thread ∈ w.threads ∨ thread ∈ w.zombies

instance (w : Sched.World) (thread : Tid) : Decidable (onQueue w thread) :=
  inferInstanceAs (Decidable (_ ∨ _))

/-- The byte belongs to neither `bt_tls` nor `bt_errno`. -/
def otherField (offset : Nat) : Prop :=
  offset < ThreadMemory.sizeofThread.toNat ∧ (offset < offsetofTls ∨ offsetofTls + 8 ≤ offset) ∧
    (offset < offsetofErrno ∨ offsetofErrno + 4 ≤ offset)

instance (offset : Nat) : Decidable (otherField offset) := inferInstanceAs (Decidable (_ ∧ _))

/-- The running thread calls `rumpuser_seterrno` and `rumpuser_curlwpop`.  The record of a thread may be
    used for as long as it is on a queue; nothing here says that the memory is still its own. -/
def enabled (w : World) : Event → Prop
  | .call (.sched e) => ThreadMemory.enabled w (.sched e)
  | .call (.settls thread _ _) => onQueue w.sched thread
  | .call (.gettls thread _) => onQueue w.sched thread
  | .call (.seterrno _) => w.sched.calls = true
  | .call (.curlwpop _ _) => w.sched.calls = true
  | .client r => ThreadMemory.enabled w (.client r)
  | .field thread offset _ => onQueue w.sched thread ∧ otherField offset
  | .push thread offset byte => ThreadMemory.enabled w (.push thread offset byte)

instance (w : World) : (e : Event) → Decidable (enabled w e)
  | .call (.sched e) => inferInstanceAs (Decidable (ThreadMemory.enabled w (.sched e)))
  | .call (.settls _ _ _) => inferInstanceAs (Decidable (onQueue _ _))
  | .call (.gettls _ _) => inferInstanceAs (Decidable (onQueue _ _))
  | .call (.seterrno _) => inferInstanceAs (Decidable (_ = true))
  | .call (.curlwpop _ _) => inferInstanceAs (Decidable (_ = true))
  | .client r => inferInstanceAs (Decidable (ThreadMemory.enabled w (.client r)))
  | .field _ _ _ => inferInstanceAs (Decidable (_ ∧ _))
  | .push thread offset byte =>
      inferInstanceAs (Decidable (ThreadMemory.enabled w (.push thread offset byte)))

def effect (w : World) : Event → World
  | .call (.sched e) => ThreadMemory.effect w (.sched e)
  | .call (.settls thread which value) => bmkSchedSettls w thread which value
  | .call (.gettls thread which) =>
      if (bmkSchedGettls w thread which).isSome then w else { w with panicked := true }
  | .call (.seterrno error) => rumpuserSeterrno w error
  | .call (.curlwpop op l) => rumpuserCurlwpop w op l
  | .client r => ThreadMemory.effect w (.client r)
  | .field thread offset byte => ThreadMemory.effect w (.field thread offset byte)
  | .push thread offset byte => ThreadMemory.effect w (.push thread offset byte)

def step (w : World) (e : Event) : Option World :=
  if w.stopped = false ∧ enabled w e then some (effect w e) else none

theorem step_inv {w w' : World} {e : Event} (h : step w e = some w') :
    w.stopped = false ∧ enabled w e ∧ w' = effect w e := by
  unfold step at h
  split at h
  · rename_i hok
    exact ⟨hok.1, hok.2, (Option.some.inj h).symm⟩
  · cases h

/-! ### Without memory -/

/-- A variable of a thread. -/
inductive Var where
  | tls (which : UInt32)
  | errno
deriving DecidableEq, Repr

/-- The scheduler, and variables that belong to a thread and to nobody else. -/
structure Locals where
  sched : Sched.World
  vars : Tid → Var → UInt32

namespace Locals

def init : Locals := ⟨Sched.bmkSchedInit, fun _ _ => 0⟩

def set (a : Locals) (thread : Tid) (var : Var) (value : UInt32) : Locals :=
  { a with vars := Function.update a.vars thread (Function.update (a.vars thread) var value) }

/-- A thread begins with zeros. -/
def born (a : Locals) : Sched.Event → Tid → Var → UInt32
  | .create _ _ _ => Function.update a.vars a.sched.created fun _ => 0
  | _ => a.vars

/-- What a call does to the variables; `none` where the source panics or fails an assertion. -/
def step (a : Locals) : Call → Option Locals
  | .sched e => (Sched.step a.sched e).map fun s => ⟨s, a.born e⟩
  | .settls thread which value => if which < tlsCount then some (a.set thread (.tls which) value) else none
  | .gettls _ which => if which < tlsCount then some a else none
  | .seterrno error => some (a.set a.sched.currentThread .errno error)
  | .curlwpop .create _ => some a
  | .curlwpop .destroy _ => some a
  | .curlwpop .set l =>
      if a.vars a.sched.currentThread (.tls bmkTlsRumplwp) = 0 then
        some (a.set a.sched.currentThread (.tls bmkTlsRumplwp) l)
      else none
  | .curlwpop .clear l =>
      if a.vars a.sched.currentThread (.tls bmkTlsRumplwp) = l then
        some (a.set a.sched.currentThread (.tls bmkTlsRumplwp) 0)
      else none

end Locals

/-- What the machine without memory sees of an event. -/
def Event.asCall : Event → Option Call
  | .call c => some c
  | _ => none

end Tls

end RumpBaremetal
