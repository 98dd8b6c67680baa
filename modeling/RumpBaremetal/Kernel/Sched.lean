/-
Module: RumpBaremetal.Kernel.Sched
Layer: Kernel
Purpose: The scheduler of sched.c as a machine.  One event is what the processor does without giving up
  control: a call made by the running thread, a pass of the loop in `bmk_sched` with the switch, the
  reaper and the caller's continuation behind it, or a wakeup from interrupt context.  A thread that is
  not running is suspended at `sched_switch` in its own frame of `bmk_sched`, with its own `prev`, or
  has never been inside `bmk_sched` at all.
Trusted boundary: human-reviewed spec
Main exports: Caller, Frame, World, bmkSchedInit, bmkSchedCreate, bmkSchedExit, bmkSchedJoin, reaper,
  pass, Event, enabled, effect, step, rumpuserThreadCreate, rumpuserThreadJoin
-/
import RumpBaremetal.Kernel.Threads

namespace RumpBaremetal.Sched

/-- Threads are numbered in the order of their creation; the static `init_thread` is number 0. -/
abbrev Tid := Nat

/-- Who called `bmk_sched`, and so what is done when it returns. -/
inductive Caller where
  /-- Code outside sched.c, or a function of sched.c that returns right after the call. -/
  | other
  /-- The gate of `bmk_sched_exit`. -/
  | exitGate
  /-- The last loop of `bmk_sched_exit`. -/
  | exitFinal
  /-- The loop of `bmk_sched_join`. -/
  | join (joinable : Tid)
deriving DecidableEq, Repr

/-- Where a thread is. -/
inductive Frame where
  /-- Set up by `bmk_sched_create` and never dispatched: it will start in `bmk_cpu_sched_bouncer`. -/
  | fresh
  /-- Outside `bmk_sched`. -/
  | user
  /-- Inside `bmk_sched`, with the frame's local `prev`. -/
  | sched (prev : Tid) (caller : Caller)
deriving DecidableEq, Repr

/-- `struct join_waiter`.  [SRC sched.c:270-274] -/
structure JoinWaiter where
  jwThread : Tid
  jwWanted : Tid
deriving DecidableEq, Repr

/-- The assertions of sched.c that can be reached with a false condition; a failed one stops the machine
    for good. -/
inductive Halt where
  | stackSize
  | mustjoin
deriving DecidableEq, Repr

/-- The static data of sched.c and the frames of all threads.  The last fields are a record of what has
    happened: `freedThreads` and `freedStacks` the calls of the reaper to `bmk_memfree` and `stackfree`,
    `exitCalls` the threads that have called `bmk_sched_exit`, `joinCalls` and `joinReturns` the calls
    of `bmk_sched_join` and those that have returned, as pairs of joiner and joined. -/
structure World where
  tcb : Tcbs Tid
  threads : List Tid
  zombies : List Tid
  currentThread : Tid
  joinwq : List JoinWaiter
  frame : Tid → Frame
  created : Nat
  freedThreads : List Tid
  freedStacks : List Stack
  exitCalls : List Tid
  joinCalls : List (Tid × Tid)
  joinReturns : List (Tid × Tid)
  halted : Option Halt

/-- `bmk_sched_init`: only `init_thread` exists, and it is running.  [SRC sched.c:373-386] -/
def bmkSchedInit : World where
  tcb := setRunnable (fun _ => {}) 0
  threads := [0]
  zombies := []
  currentThread := 0
  joinwq := []
  frame := fun _ => .user
  created := 1
  freedThreads := []
  freedStacks := []
  exitCalls := []
  joinCalls := []
  joinReturns := []
  halted := none

/-- `bmk_sched_create`.  The argument `thrflags` is not looked at.  [SRC sched.c:231-268] -/
def bmkSchedCreate (w : World) (_thrflags : Int) (stackBase : Option Nat) (stackSize : Nat) : World :=
  let thread := w.created
  match stackBase with
  | none =>
      if stackSize ≠ 0 then { w with halted := some .stackSize }
      else
        { w with
          tcb := setRunnable
            (Function.update w.tcb thread { stackbase := some (.heap thread) }) thread
          threads := thread :: w.threads
          frame := Function.update w.frame thread .fresh
          created := w.created + 1 }
  | some base =>
      { w with
        tcb := setRunnable (Function.update w.tcb thread
          { flags := { extstack := true }, stackbase := some (.external base) }) thread
        threads := thread :: w.threads
        frame := Function.update w.frame thread .fresh
        created := w.created + 1 }

/-- The running thread calls `bmk_sched`: it reads `prev` and starts to look for a thread to run. -/
def enterSched (w : World) (caller : Caller) : World :=
  { w with frame := Function.update w.frame w.currentThread (.sched w.currentThread caller) }

/-- Change the flags of a thread. -/
def World.setFlags (w : World) (thread : Tid) (f : Flags → Flags) : World :=
  { w with tcb := RumpBaremetal.setFlags w.tcb thread f }

/-- Wake the joiner of `thread` if it is already there.  [SRC sched.c:287-293] -/
def wakeJoiner (w : World) (thread : Tid) : World :=
  match w.joinwq.find? fun jw => jw.jwWanted = thread with
  | some jw => { w with tcb := bmkSchedWake w.tcb jw.jwThread }
  | none => w

/-- `bmk_sched_exit` from the test of its gate up to the next call of `bmk_sched`.
    [SRC sched.c:284-307] -/
def exitLoop (w : World) : World :=
  let thread := w.currentThread
  if (w.tcb thread).flags.mustjoin then
    let w := wakeJoiner (w.setFlags thread fun flags => { flags with joined := true }) thread
    enterSched { w with tcb := bmkSchedBlock w.tcb thread } .exitGate
  else
    enterSched { w with
      threads := w.threads.erase thread
      tcb := clearRunnable w.tcb thread
      zombies := thread :: w.zombies } .exitFinal

/-- [SRC sched.c:277-308] -/
def bmkSchedExit (w : World) : World :=
  exitLoop { w with exitCalls := w.currentThread :: w.exitCalls }

/-- `bmk_sched_join` from the test of its loop: either up to the next call of `bmk_sched`, or to its
    return.  The assertion behind the loop repeats the condition the loop ends with.
    [SRC sched.c:319-334] -/
def joinLoop (w : World) (joinable : Tid) : World :=
  let thread := w.currentThread
  if (w.tcb joinable).flags.joined then
    let w := w.setFlags joinable fun flags => { flags with mustjoin := false }
    { w with
      tcb := bmkSchedWake w.tcb joinable
      frame := Function.update w.frame thread .user
      joinReturns := (thread, joinable) :: w.joinReturns }
  else
    enterSched { w with
      joinwq := w.joinwq ++ [⟨thread, joinable⟩]
      tcb := bmkSchedBlock w.tcb thread } (.join joinable)

/-- [SRC sched.c:310-334] -/
def bmkSchedJoin (w : World) (joinable : Tid) : World :=
  let w := { w with joinCalls := (w.currentThread, joinable) :: w.joinCalls }
  if (w.tcb joinable).flags.mustjoin then joinLoop w joinable
  else { w with halted := some .mustjoin }

/-- Free one thread unless it is `prev`.  [SRC sched.c:221-226] -/
def reapOne (prev : Tid) (w : World) (thread : Tid) : World :=
  if thread = prev then w
  else
    { w with
      zombies := w.zombies.erase thread
      freedStacks :=
        if (w.tcb thread).flags.extstack then w.freedStacks
        else (w.tcb thread).stackbase.toList ++ w.freedStacks
      freedThreads := thread :: w.freedThreads }

/-- The reaper at the end of `bmk_sched`.  [SRC sched.c:219-227] -/
def reaper (prev : Tid) (w : World) : World :=
  w.zombies.foldl (reapOne prev) w

/-- What follows the return of `bmk_sched` in the running thread. -/
def resumeCaller (w : World) : Caller → World
  | .other => { w with frame := Function.update w.frame w.currentThread .user }
  | .exitGate => exitLoop w
  | .exitFinal => enterSched w .exitFinal
  | .join joinable => joinLoop { w with joinwq := w.joinwq.erase ⟨w.currentThread, joinable⟩ } joinable

/-- The running thread has got the processor.  A new thread starts outside `bmk_sched`; any other goes
    on in its own frame, with the reaper first. -/
def resume (w : World) : World :=
  match w.frame w.currentThread with
  | .fresh => { w with frame := Function.update w.frame w.currentThread .user }
  | .user => w
  | .sched prev caller => resumeCaller (reaper prev w) caller

/-- One pass of the loop of `bmk_sched` at clock value `tm`: without a thread to run the processor
    halts until the next interrupt, otherwise the thread moves to the end of the list and runs.
    [SRC sched.c:187-217] -/
def pass (tm : Int) (w : World) : World :=
  match scan tm w.tcb w.threads with
  | (tcb, none) => { w with tcb := tcb }
  | (tcb, some next) =>
      resume { w with
        tcb := tcb
        threads := w.threads.erase next ++ [next]
        currentThread := next }

/-- What can happen next. -/
inductive Event where
  /-- `bmk_sched_create` by the running thread. -/
  | create (thrflags : Int) (stackBase : Option Nat) (stackSize : Nat)
  /-- `bmk_sched_exit` by the running thread. -/
  | exit
  /-- `bmk_sched_join` by the running thread. -/
  | join (joinable : Tid)
  /-- `bmk_sched` called by the running thread. -/
  | sched
  /-- `bmk_sched_block` called by the running thread. -/
  | block (thread : Tid)
  /-- `bmk_sched_setwakeup` called by the running thread. -/
  | setwakeup (thread : Tid) (abstime : Int)
  /-- `bmk_sched_nanosleep` called by the running thread when the clock shows `now`.  The sum is formed
      in 64 unsigned bits and stored in a signed field. -/
  | nanosleep (now nsec : Int)
  /-- `bmk_sched_wake` called by the running thread or from interrupt context. -/
  | wake (thread : Tid)
  /-- One pass of the loop in `bmk_sched` when the clock shows `tm`. -/
  | pass (tm : Int)
deriving DecidableEq, Repr

/-- The running thread is outside `bmk_sched` and may call into it. -/
def World.calls (w : World) : Bool := w.frame w.currentThread = .user

/-- The running thread is inside `bmk_sched`. -/
def World.scheduling (w : World) : Bool :=
  match w.frame w.currentThread with
  | .sched _ _ => true
  | _ => false

/-- A call needs the running thread to be outside `bmk_sched`, a pass needs it inside.  A wakeup can
    come at any time. -/
def enabled (w : World) : Event → Bool
  | .wake _ => true
  | .pass _ => w.scheduling
  | _ => w.calls

/-- What an event does. -/
def effect (w : World) : Event → World
  | .create thrflags stackBase stackSize => bmkSchedCreate w thrflags stackBase stackSize
  | .exit => bmkSchedExit w
  | .join joinable => bmkSchedJoin w joinable
  | .sched => enterSched w .other
  | .block thread => { w with tcb := bmkSchedBlock w.tcb thread }
  | .setwakeup thread abstime => { w with tcb := bmkSchedSetwakeup w.tcb thread abstime }
  | .nanosleep now nsec =>
      let tcb := bmkSchedSetwakeup w.tcb w.currentThread ((now + nsec).bmod (2 ^ 64))
      enterSched { w with tcb := clearRunnable tcb w.currentThread } .other
  | .wake thread => { w with tcb := bmkSchedWake w.tcb thread }
  | .pass tm => pass tm w

/-- Run one event.  Nothing follows a failed assertion. -/
def step (w : World) (e : Event) : Option World :=
  if w.halted.isNone ∧ enabled w e then some (effect w e) else none

theorem step_inv {w w' : World} {e : Event} (h : step w e = some w') :
    w.halted = none ∧ enabled w e = true ∧ w' = effect w e := by
  unfold step at h
  split at h
  · rename_i hok
    exact ⟨Option.isNone_iff_eq_none.mp hok.1, hok.2, (Option.some.inj h).symm⟩
  · exact absurd h (by simp)

/-! ### The thread hypercalls of rumpfiber.c -/

/-- [SRC rumpfiber.c:117-130] -/
def rumpuserThreadCreate (joinable : Int) : Event := .create joinable none 0

/-- [SRC rumpfiber.c:139-145] -/
def rumpuserThreadJoin (p : Tid) : Event := .join p

end RumpBaremetal.Sched
