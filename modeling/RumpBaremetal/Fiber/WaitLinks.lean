/-
Module: RumpBaremetal.Fiber.WaitLinks
Layer: Fiber
Purpose: The sleep queues of rumpfiber.c as the source has them: a wait head is a tail queue of `struct
  waiter` records, and each record is a local variable of a call of `wait`.  When the call has returned, its
  stack is used for other things, so the fields of the record may be overwritten with anything.  Beside it,
  the same calls over lists.
Trusted boundary: human-reviewed spec
Main exports: Waiters, waitBegin, waitEnd, wakeupOne, wakeupAll, WaitEvent, Sleepers, sleepersStep,
  LinkedSleepers, linkedStep
-/
import RumpBaremetal.Fiber.Wait
import RumpBaremetal.Kernel.Queue

namespace RumpBaremetal.WaitLinks

/-- The threads, and the records of their calls of `wait`, which go by their threads: a thread is inside one
    `wait` at most.  [SRC rumpfiber.c:66-71] -/
structure Waiters (Tid Wh : Type*) where
  currentThread : Tid
  scheduling : Bool
  tcb : Tcbs Tid
  entries : Tailqs Wh Tid
  who : Tid → Tid
  onlist : Tid → Bool

section Calls

variable {Tid Wh : Type*} [DecidableEq Tid] [DecidableEq Wh]

/-- [SRC rumpfiber.c:73-84] -/
def waitBegin (s : Waiters Tid Wh) (wh : Wh) (now nsec : Nat) : Waiters Tid Wh :=
  let w := s.currentThread
  let s := { s with who := Function.update s.who w s.currentThread }
  let s := { s with entries := tailqInsertTail s.entries wh w }
  let s := { s with onlist := Function.update s.onlist w true }
  let s := { s with tcb := bmkSchedBlock s.tcb (s.who w) }
  let s := if nsec ≠ 0 then { s with tcb := bmkSchedSetwakeup s.tcb (s.who w) (deadline now nsec) } else s
  { s with scheduling := true }

/-- [SRC rumpfiber.c:86-88] -/
def waitEnd (s : Waiters Tid Wh) (wh : Wh) : Waiters Tid Wh :=
  if s.onlist s.currentThread then { s with entries := tailqRemove s.entries wh s.currentThread } else s

/-- Take a record off its queue and wake its thread.  [SRC rumpfiber.c:99-101, 111-113] -/
def wakeRecord (s : Waiters Tid Wh) (wh : Wh) (w : Tid) : Waiters Tid Wh :=
  let s := { s with entries := tailqRemove s.entries wh w }
  let s := { s with onlist := Function.update s.onlist w false }
  { s with tcb := bmkSchedWake s.tcb (s.who w) }

/-- [SRC rumpfiber.c:93-103] -/
def wakeupOne (s : Waiters Tid Wh) (wh : Wh) : Waiters Tid Wh :=
  match tailqFirst s.entries wh with
  | some w => wakeRecord s wh w
  | none => s

/-- The loop of `wakeup_all`, for a number of rounds; `none` if it has not ended by then.
    [SRC rumpfiber.c:110-114] -/
def wakeupLoop (wh : Wh) : Nat → Waiters Tid Wh → Option (Waiters Tid Wh)
  | rounds, s =>
      match tailqFirst s.entries wh with
      | none => some s
      | some w =>
          match rounds with
          | 0 => none
          | rounds + 1 => wakeupLoop wh rounds (wakeRecord s wh w)

/-- A queue has at most one record for each thread.  [SRC rumpfiber.c:105-115] -/
def wakeupAll [Fintype Tid] (s : Waiters Tid Wh) (wh : Wh) : Option (Waiters Tid Wh) :=
  wakeupLoop wh (Fintype.card Tid) s

end Calls

/-! ### The machines -/

inductive WaitEvent (Tid Wh : Type*) where
  | wait (wh : Wh) (now nsec : Nat)
  /-- The running thread is back from `bmk_sched` and leaves `wait`. -/
  | resume
  | wakeupOne (wh : Wh)
  | wakeupAll (wh : Wh)
  /-- What was the record of a thread is overwritten. -/
  | reuse (t : Tid) (next : Option Tid) (prev : Link Wh Tid) (who : Tid) (onlist : Bool)
  | cpu (e : CpuEvent Tid)
deriving DecidableEq, Repr

/-- The queues as lists.  `site` says on which head a thread is inside `wait`. -/
structure Sleepers (Tid Wh : Type*) where
  fib : Fibers Tid Wh
  site : Tid → Option Wh

/-- The queues as records. -/
structure LinkedSleepers (Tid Wh : Type*) where
  waiters : Waiters Tid Wh
  site : Tid → Option Wh

section Machines

variable {Tid Wh : Type*} [DecidableEq Tid] [DecidableEq Wh]

/-- A thread inside `wait` runs nothing but the rest of it, and its record stays as it is. -/
def waitEnabled (currentThread : Tid) (scheduling : Bool) (site : Tid → Option Wh) : WaitEvent Tid Wh → Bool
  | .wait _ _ _ | .wakeupOne _ | .wakeupAll _ => !scheduling && (site currentThread).isNone
  | .resume => !scheduling && (site currentThread).isSome
  | .reuse t _ _ _ _ => (site t).isNone
  | .cpu (.sleep _) | .cpu .yield => (site currentThread).isNone
  | .cpu _ => true

def sleepersStep (s : Sleepers Tid Wh) (e : WaitEvent Tid Wh) : Option (Sleepers Tid Wh) :=
  if waitEnabled s.fib.currentThread s.fib.scheduling s.site e then
    match e with
    | .wait wh now nsec =>
        some ⟨RumpBaremetal.waitBegin s.fib wh now nsec,
          Function.update s.site s.fib.currentThread (some wh)⟩
    | .resume =>
        (s.site s.fib.currentThread).map fun wh =>
          ⟨RumpBaremetal.waitEnd s.fib wh, Function.update s.site s.fib.currentThread none⟩
    | .wakeupOne wh => some { s with fib := RumpBaremetal.wakeupOne s.fib wh }
    | .wakeupAll wh => some { s with fib := RumpBaremetal.wakeupAll s.fib wh }
    | .reuse _ _ _ _ _ => some s
    | .cpu e => (cpuStep s.fib e).map fun fib => { s with fib := fib }
  else none

/-- The processor sees the run states and nothing of the queues. -/
def Waiters.processor (s : Waiters Tid Wh) : Fibers Tid Wh :=
  ⟨s.currentThread, s.scheduling, s.tcb, fun _ => [], s.onlist⟩

def Waiters.setProcessor (s : Waiters Tid Wh) (p : Fibers Tid Wh) : Waiters Tid Wh :=
  { s with currentThread := p.currentThread, scheduling := p.scheduling, tcb := p.tcb }

def Waiters.overwrite (s : Waiters Tid Wh) (t : Tid) (next : Option Tid) (prev : Link Wh Tid) (who : Tid)
    (onlist : Bool) : Waiters Tid Wh :=
  { s with
    entries := (s.entries.setTarget (.next t) next).setPrev t prev
    who := Function.update s.who t who
    onlist := Function.update s.onlist t onlist }

def linkedStep [Fintype Tid] (s : LinkedSleepers Tid Wh) (e : WaitEvent Tid Wh) :
    Option (LinkedSleepers Tid Wh) :=
  if waitEnabled s.waiters.currentThread s.waiters.scheduling s.site e then
    match e with
    | .wait wh now nsec =>
        some ⟨waitBegin s.waiters wh now nsec, Function.update s.site s.waiters.currentThread (some wh)⟩
    | .resume =>
        (s.site s.waiters.currentThread).map fun wh =>
          ⟨waitEnd s.waiters wh, Function.update s.site s.waiters.currentThread none⟩
    | .wakeupOne wh => some { s with waiters := wakeupOne s.waiters wh }
    | .wakeupAll wh => (wakeupAll s.waiters wh).map fun waiters => { s with waiters := waiters }
    | .reuse t next prev who onlist => some { s with waiters := s.waiters.overwrite t next prev who onlist }
    | .cpu e => (cpuStep s.waiters.processor e).map fun p => { s with waiters := s.waiters.setProcessor p }
  else none

end Machines

end RumpBaremetal.WaitLinks
