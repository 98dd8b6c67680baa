/-
Module: RumpBaremetal.Fiber.Wait
Layer: Fiber
Purpose: The sleep queues of rumpfiber.c, `wait`, `wakeup_one` and `wakeup_all`, over the control blocks
  of sched.c, and the processor as the hypercalls see it: a thread goes into `bmk_sched`, some runnable
  thread comes out of it, and meanwhile anything may be woken.  A hypercall is a machine over these; what
  the processor does on its own is the same for all of them and is stated here once.
Trusted boundary: human-reviewed spec
Main exports: Fibers, waitBegin, waitEnd, wakeupOne, wakeupAll, Bound, CpuEvent, cpuEnabled, cpuEffect,
  cpuStep, cpuAllowed, runsAt, retry
-/
import RumpBaremetal.Kernel.Threads

namespace RumpBaremetal

/-- The threads and the wait heads.  A `struct waiter` lives on the stack of the thread that waits, and
    a thread is inside at most one `wait`, so the records are named by their threads: `waithead` holds
    the queues in order, `onlist` the field of that name.  `scheduling` says that the running thread
    is inside `bmk_sched` and has not been switched away from yet. -/
structure Fibers (Tid Wh : Type*) where
  currentThread : Tid
  scheduling : Bool
  tcb : Tcbs Tid
  waithead : Wh → List Tid
  onlist : Tid → Bool

variable {Tid Wh : Type*} [DecidableEq Tid] [DecidableEq Wh]

/-- A 64-bit unsigned sum stored in the signed field `bt_wakeup_time`. -/
def deadline (now nsec : Nat) : Int := ((now + nsec : Nat) : Int).bmod (2 ^ 64)

/-- The first half of `wait`, up to its call of `bmk_sched`, when the clock shows `now`.
    [SRC rumpfiber.c:73-84] -/
def waitBegin (s : Fibers Tid Wh) (wh : Wh) (now nsec : Nat) : Fibers Tid Wh :=
  let who := s.currentThread
  let tcb := bmkSchedBlock s.tcb who
  { s with
    scheduling := true
    waithead := Function.update s.waithead wh (s.waithead wh ++ [who])
    onlist := Function.update s.onlist who true
    tcb := if nsec ≠ 0 then bmkSchedSetwakeup tcb who (deadline now nsec) else tcb }

/-- The second half of `wait`.  [SRC rumpfiber.c:86-88] -/
def waitEnd (s : Fibers Tid Wh) (wh : Wh) : Fibers Tid Wh :=
  if s.onlist s.currentThread then
    { s with waithead := Function.update s.waithead wh ((s.waithead wh).erase s.currentThread) }
  else s

/-- What `wait` returns.  [SRC rumpfiber.c:90] -/
def waitTimedOut (s : Fibers Tid Wh) : Bool := s.onlist s.currentThread

/-- [SRC rumpfiber.c:93-103] -/
def wakeupOne (s : Fibers Tid Wh) (wh : Wh) : Fibers Tid Wh :=
  match s.waithead wh with
  | [] => s
  | who :: rest =>
      { s with
        waithead := Function.update s.waithead wh rest
        onlist := Function.update s.onlist who false
        tcb := bmkSchedWake s.tcb who }

/-- The loop takes the first record until the queue is empty, so it runs once for each record that
    was on the queue.  [SRC rumpfiber.c:105-115] -/
def wakeupAll (s : Fibers Tid Wh) (wh : Wh) : Fibers Tid Wh :=
  (s.waithead wh).foldl (fun s _ => wakeupOne s wh) s

/-- Every thread has a `curlwp` of its own. -/
structure Bound {Lwp : Type*} (tls : Tid → Option Lwp) : Prop where
  nonNull : ∀ t, tls t ≠ none
  distinct : ∀ t u, tls t = tls u → t = u

/-! ### The processor -/

/-- What the processor can do outside the hypercalls that are being modelled. -/
inductive CpuEvent (Tid : Type*) where
  /-- The running thread blocks itself somewhere else, on another lock or in `bmk_sched_nanosleep`, and
      calls `bmk_sched`. -/
  | sleep (wakeupTime : Int)
  /-- The running thread calls `bmk_sched` and stays runnable. -/
  | yield
  /-- `bmk_sched` selects a thread, which comes out of `bmk_sched` or starts. -/
  | dispatch (t : Tid)
  /-- A call of `bmk_sched_wake` from elsewhere, in thread or interrupt context. -/
  | wake (t : Tid)
  /-- The scan in `bmk_sched` looks at a thread when the clock shows `tm`. -/
  | expire (tm : Int) (t : Tid)
deriving DecidableEq, Repr

def cpuEnabled (s : Fibers Tid Wh) : CpuEvent Tid → Bool
  | .sleep _ => !s.scheduling
  | .yield => !s.scheduling
  | .dispatch t => s.scheduling && isRunnable s.tcb t
  | .wake _ => true
  | .expire _ _ => s.scheduling

def cpuEffect (s : Fibers Tid Wh) : CpuEvent Tid → Fibers Tid Wh
  | .sleep wakeupTime =>
      { s with
        scheduling := true
        tcb := bmkSchedSetwakeup (bmkSchedBlock s.tcb s.currentThread) s.currentThread wakeupTime }
  | .yield => { s with scheduling := true }
  | .dispatch t => { s with scheduling := false, currentThread := t }
  | .wake t => { s with tcb := bmkSchedWake s.tcb t }
  | .expire tm t => { s with tcb := expire tm s.tcb t }

def cpuStep (s : Fibers Tid Wh) (e : CpuEvent Tid) : Option (Fibers Tid Wh) :=
  if cpuEnabled s e then some (cpuEffect s e) else none

/-! ### Threads inside hypercalls -/

/-- The events of the processor, for a running thread that is inside `wait` on `site`: there it does not run
    other code. -/
def cpuAllowed (s : Fibers Tid Wh) (site : Option Wh) : CpuEvent Tid → Bool
  | .sleep wakeupTime => cpuEnabled s (.sleep wakeupTime) && site.isNone
  | .yield => cpuEnabled s .yield && site.isNone
  | e => cpuEnabled s e

/-- The running thread is at a place of its program. -/
def runsAt {Pc : Type*} [DecidableEq Pc] (s : Fibers Tid Wh) (pc : Tid → Pc) (place : Pc) : Bool :=
  !s.scheduling && decide (pc s.currentThread = place)

/-- `while (tryenter() != 0) wait()`, from its test to the next call of `bmk_sched` or to its end: the
    caller goes on in `inside`, or goes to sleep in `outside`. -/
def retry {World : Type*} (tryenter : World → Option World) (inside outside : World → World)
    (w : World) : World :=
  match tryenter w with
  | some w => inside w
  | none => outside w

end RumpBaremetal
