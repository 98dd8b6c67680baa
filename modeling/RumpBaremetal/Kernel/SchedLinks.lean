/-
Module: RumpBaremetal.Kernel.SchedLinks
Layer: Kernel
Purpose: The scheduler of sched.c once more, with its queues as it has them: `threads` and `zombies` are two
  heads over the one field `bt_entries`, and `joinwq` links records on the stacks of the joining threads.
  All that concerns no queue is as in the machine over lists; every access to a queue is one of the macros
  of bmk/queue.h.  A loop over a queue that has not ended after as many rounds as there are threads goes
  round in a circle, and the machine has no next state.
Trusted boundary: human-reviewed spec
Main exports: ThreadQueue, World, bmkSchedInit, bmkSchedCreate, bmkSchedExit, bmkSchedJoin, reaper, pass,
  effect, step
-/
import RumpBaremetal.Kernel.Queue
import RumpBaremetal.Kernel.Sched

namespace RumpBaremetal.SchedLinks

open Sched (Tid Caller Frame JoinWaiter Halt Event)

/-- The heads over `bt_entries`.  [SRC sched.c:106-107] -/
inductive ThreadQueue where
  | threads
  | zombies
deriving DecidableEq, Repr

/-- `jw` holds the record of each thread's call of `bmk_sched_join`; a thread is in one call at most, so the
    records go by their threads.  The other fields are those of the machine over lists. -/
structure World where
  tcb : Tcbs Tid
  entries : Tailqs ThreadQueue Tid
  currentThread : Tid
  jw : Tid → JoinWaiter
  joinwq : Tailqs Unit Tid
  frame : Tid → Frame
  created : Nat
  freedThreads : List Tid
  freedStacks : List Stack
  exitCalls : List Tid
  joinCalls : List (Tid × Tid)
  joinReturns : List (Tid × Tid)
  halted : Option Halt

/-- `bmk_sched_init`, over whatever the entries of threads and records hold before they are first used.
    [SRC sched.c:106-107, 275, 373-386] -/
def bmkSchedInit (entries : Tailqs ThreadQueue Tid) (jw : Tid → JoinWaiter) (joinwq : Tailqs Unit Tid) :
    World where
  tcb := setRunnable (fun _ => {}) 0
  entries := tailqInsertTail (tailqInit (tailqInit entries .zombies) .threads) .threads 0
  currentThread := 0
  jw := jw
  joinwq := tailqInit joinwq ()
  frame := fun _ => .user
  created := 1
  freedThreads := []
  freedStacks := []
  exitCalls := []
  joinCalls := []
  joinReturns := []
  halted := none

/-- A new thread with the given control block.  [SRC sched.c:262-265] -/
def addThread (w : World) (b : BmkThread) : World :=
  { w with
    tcb := setRunnable (Function.update w.tcb w.created b) w.created
    entries := tailqInsertHead w.entries .threads w.created
    frame := Function.update w.frame w.created .fresh
    created := w.created + 1 }

/-- [SRC sched.c:231-268] -/
def bmkSchedCreate (w : World) (_thrflags : Int) (stackBase : Option Nat) (stackSize : Nat) : World :=
  match stackBase with
  | none =>
      if stackSize ≠ 0 then { w with halted := some .stackSize }
      else addThread w { stackbase := some (.heap w.created) }
  | some base => addThread w { flags := { extstack := true }, stackbase := some (.external base) }

def enterSched (w : World) (caller : Caller) : World :=
  { w with frame := Function.update w.frame w.currentThread (.sched w.currentThread caller) }

def World.setFlags (w : World) (thread : Tid) (f : Flags → Flags) : World :=
  { w with tcb := RumpBaremetal.setFlags w.tcb thread f }

/-- The body of the search for the joiner.  [SRC sched.c:289-292] -/
def wakeIfWanted (thread : Tid) (w : World) (jwIter : Tid) : World × Bool :=
  if (w.jw jwIter).jwWanted = thread then
    ({ w with tcb := bmkSchedWake w.tcb (w.jw jwIter).jwThread }, true)
  else (w, false)

/-- [SRC sched.c:287-293] -/
def wakeJoiner (w : World) (thread : Tid) : Option World :=
  (foreach (fun w jwIter => tailqNext w.joinwq jwIter) (wakeIfWanted thread) w.created w
    (tailqFirst w.joinwq ())).map Prod.fst

/-- [SRC sched.c:284-307] -/
def exitLoop (w : World) : Option World :=
  let thread := w.currentThread
  if (w.tcb thread).flags.mustjoin then
    (wakeJoiner (w.setFlags thread fun flags => { flags with joined := true }) thread).map fun w =>
      enterSched { w with tcb := bmkSchedBlock w.tcb thread } .exitGate
  else
    let w := { w with entries := tailqRemove w.entries .threads thread }
    let w := { w with tcb := clearRunnable w.tcb thread }
    some (enterSched { w with entries := tailqInsertHead w.entries .zombies thread } .exitFinal)

/-- [SRC sched.c:277-308] -/
def bmkSchedExit (w : World) : Option World :=
  exitLoop { w with exitCalls := w.currentThread :: w.exitCalls }

/-- [SRC sched.c:319-334] -/
def joinLoop (w : World) (joinable : Tid) : World :=
  let thread := w.currentThread
  if (w.tcb joinable).flags.joined then
    let w := w.setFlags joinable fun flags => { flags with mustjoin := false }
    { w with
      tcb := bmkSchedWake w.tcb joinable
      frame := Function.update w.frame thread .user
      joinReturns := (thread, joinable) :: w.joinReturns }
  else
    enterSched { w with
      jw := Function.update w.jw thread ⟨thread, joinable⟩
      joinwq := tailqInsertTail w.joinwq () thread
      tcb := bmkSchedBlock w.tcb thread } (.join joinable)

/-- [SRC sched.c:310-334] -/
def bmkSchedJoin (w : World) (joinable : Tid) : World :=
  let w := { w with joinCalls := (w.currentThread, joinable) :: w.joinCalls }
  if (w.tcb joinable).flags.mustjoin then joinLoop w joinable
  else { w with halted := some .mustjoin }

/-- The body of the reaper, which never breaks.  [SRC sched.c:221-226] -/
def reapOne (prev : Tid) (w : World) (thread : Tid) : World × Bool :=
  if thread = prev then (w, false)
  else
    ({ w with
        entries := tailqRemove w.entries .zombies thread
        freedStacks :=
          if (w.tcb thread).flags.extstack then w.freedStacks
          else (w.tcb thread).stackbase.toList ++ w.freedStacks
        freedThreads := thread :: w.freedThreads }, false)

/-- [SRC sched.c:219-227] -/
def reaper (prev : Tid) (w : World) : Option World :=
  (foreachSafe (fun w thread => tailqNext w.entries thread) (reapOne prev) w.created w
    (tailqFirst w.entries .zombies)).map Prod.fst

def resumeCaller (w : World) : Caller → Option World
  | .other => some { w with frame := Function.update w.frame w.currentThread .user }
  | .exitGate => exitLoop w
  | .exitFinal => some (enterSched w .exitFinal)
  | .join joinable => some (joinLoop { w with joinwq := tailqRemove w.joinwq () w.currentThread } joinable)

def resume (w : World) : Option World :=
  match w.frame w.currentThread with
  | .fresh => some { w with frame := Function.update w.frame w.currentThread .user }
  | .user => some w
  | .sched prev caller => (reaper prev w).bind fun w => resumeCaller w caller

/-- The body of the scan: a thread that can run goes to the end of the list.  [SRC sched.c:191-205] -/
def scanOne (tm : Int) (w : World) (thread : Tid) : World × Bool :=
  let w := { w with tcb := expire tm w.tcb thread }
  if isRunnable w.tcb thread then
    let w := { w with entries := tailqRemove w.entries .threads thread }
    ({ w with entries := tailqInsertTail w.entries .threads thread }, true)
  else (w, false)

/-- [SRC sched.c:187-217] -/
def pass (tm : Int) (w : World) : Option World :=
  (foreachSafe (fun w thread => tailqNext w.entries thread) (scanOne tm) w.created w
    (tailqFirst w.entries .threads)).bind fun (w, next) =>
      match next with
      | none => some w
      | some next => resume { w with currentThread := next }

def World.calls (w : World) : Bool := w.frame w.currentThread = .user

def World.scheduling (w : World) : Bool :=
  match w.frame w.currentThread with
  | .sched _ _ => true
  | _ => false

def enabled (w : World) : Event → Bool
  | .wake _ => true
  | .pass _ => w.scheduling
  | _ => w.calls

def effect (w : World) : Event → Option World
  | .create thrflags stackBase stackSize => some (bmkSchedCreate w thrflags stackBase stackSize)
  | .exit => bmkSchedExit w
  | .join joinable => some (bmkSchedJoin w joinable)
  | .sched => some (enterSched w .other)
  | .block thread => some { w with tcb := bmkSchedBlock w.tcb thread }
  | .setwakeup thread abstime => some { w with tcb := bmkSchedSetwakeup w.tcb thread abstime }
  | .nanosleep now nsec =>
      let tcb := bmkSchedSetwakeup w.tcb w.currentThread ((now + nsec).bmod (2 ^ 64))
      some (enterSched { w with tcb := clearRunnable tcb w.currentThread } .other)
  | .wake thread => some { w with tcb := bmkSchedWake w.tcb thread }
  | .pass tm => pass tm w

def step (w : World) (e : Event) : Option World :=
  if w.halted.isNone ∧ enabled w e then effect w e else none

end RumpBaremetal.SchedLinks
