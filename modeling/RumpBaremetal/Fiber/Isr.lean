/-
Module: RumpBaremetal.Fiber.Isr
Layer: Fiber
Purpose: The interrupt thread of intr.c among the other threads.  Interrupts arrive between any two steps as
  long as the interrupt depth is zero, so the code they can cut into is cut into steps: `isr` statement by
  statement, `wait` and `bmk_sched_nanosleep` at each change of the control block.  A pass of the loop in
  `bmk_sched` stays one step, since an interrupt within it has the effect of one before or behind it.
  `node_run_sleeps` shows that the calls of `wait` are those of Fiber.Sleep, which makes them in one piece.
Trusted boundary: human-reviewed spec
Main exports: IsrPc, Walk, Pass, Call, WaitReturn, Node, bmkIsr, isrStep, advance, NodeEvent, nodeEnabled,
  nodeEffect, nodeStep, Node.start
-/
import RumpBaremetal.Kernel.Intr
import RumpBaremetal.Kernel.Sched
import RumpBaremetal.Fiber.Wait

namespace RumpBaremetal

open Sched (Tid)

/-- `bmk_isr_init` creates the first thread after `init_thread`.  [SRC intr.c:124, kernel.c:75-76] -/
def isrThread : Tid := 1

/-- `1<<which` -/
def lineBit (which : Nat) : UInt32 := (1 : UInt32) <<< UInt32.ofNat which

/-- `bmk_clock_now`: the cycle counter in a signed word.  [SRC sched.c:154-166] -/
def bmkClockNow (clock : Nat) : Int := (clock : Int).bmod (2 ^ 64)

/-! ### The interrupt thread -/

/-- Where the interrupt thread is in `isr`, with the locals that are still needed.  [SRC intr.c:30-80] -/
inductive IsrPc (Fun Arg : Type*) where
  /-- Inside the three calls before the loop. -/
  | hypSchedule0
  | newlwp
  | hypUnschedule0
  | splhigh
  | test
  | copy
  | clear (isrcopy : UInt32)
  | lower (isrcopy : UInt32)
  /-- At the head of the loop over the lines. -/
  | line (isrcopy : UInt32) (rv : Int32) (i : Nat)
  /-- Inside `hyp_schedule`. -/
  | hypSchedule (isrcopy : UInt32) (rv : Int32) (i : Nat)
  /-- Inside the handler `ih`, with `rest` behind it on the list. -/
  | handler (isrcopy : UInt32) (i : Nat) (ih : IntrHand Fun Arg) (rest : List (IntrHand Fun Arg))
  /-- Inside `hyp_unschedule`. -/
  | hypUnschedule (isrcopy : UInt32) (rv : Int32) (i : Nat)
  | ack (rv : Int32)
  | stray
  /-- At the call of `bmk_sched_block`. -/
  | block
  | lowerIdle
  | callSched
  /-- Inside `bmk_sched`, or just back from it. -/
  | idle
deriving DecidableEq, Repr

/-- The thread is in code outside intr.c, which may call the hypercalls. -/
def IsrPc.outside {Fun Arg : Type*} : IsrPc Fun Arg → Bool
  | .hypSchedule0 | .newlwp | .hypUnschedule0 => true
  | .hypSchedule _ _ _ | .handler _ _ _ _ | .hypUnschedule _ _ _ => true
  | _ => false

/-- What a pass did for one line: the handlers that `isr_ih` listed when it got there, and those it called
    with what they returned, the latest call first. -/
structure Walk (Fun Arg : Type*) where
  line : Nat
  listed : List (IntrHand Fun Arg)
  called : List (IntrHand Fun Arg × Int32)
deriving DecidableEq, Repr

/-- One pass of `isr`: the lines that had been raised since the copy before, the copy, and the lines that
    were walked, the latest first. -/
structure Pass (Fun Arg : Type*) where
  raised : List Nat
  isrcopy : UInt32
  walks : List (Walk Fun Arg)
  finished : Bool
deriving DecidableEq, Repr

/-! ### Threads inside `wait` and `bmk_sched_nanosleep` -/

/-- How far a call of `wait` has come. -/
inductive WaitStage where
  /-- The record is queued, `bmk_sched_block` comes next. -/
  | queued
  /-- Blocked, the wakeup time comes next. -/
  | blocked
  /-- `bmk_sched` comes next. -/
  | timed
  /-- `bmk_sched` has been called. -/
  | asleep
deriving DecidableEq, Repr

/-- The function that a thread is inside of.  `now` is what the clock showed when the wakeup time was
    set. -/
inductive Call (Wh : Type*) where
  | wait (wh : Wh) (nsec : UInt64) (stage : WaitStage) (now : Nat)
  /-- `bmk_sched_nanosleep`, with the wakeup time set. -/
  | nanosleep
deriving DecidableEq, Repr

/-- A call of `wait` that has returned: its number, its arguments, the clock when the wakeup time was set,
    what it returned, and the clock then. -/
structure WaitReturn (Wh : Type*) where
  serial : Nat
  wh : Wh
  nsec : UInt64
  now : Nat
  timedOut : Bool
  clock : Nat
deriving DecidableEq, Repr

/-- The machine.  The last fields are a record: the lines raised since the last copy, the passes of `isr`,
    the number of calls of `wait` so far and the number of each thread's latest, the calls that a wakeup has
    taken off their queue, and those that have returned. -/
structure Node (Wh Fun Arg : Type*) where
  sched : Sched.World
  clock : Nat
  intr : IntrWorld Fun Arg
  isrTodo : UInt32
  pc : IsrPc Fun Arg
  waithead : Wh → List Tid
  onlist : Tid → Bool
  call : Tid → Option (Call Wh)
  raised : List Nat
  passes : List (Pass Fun Arg)
  calls : Nat
  serial : Tid → Nat
  dequeued : List (Wh × Nat)
  returned : List (WaitReturn Wh)

variable {Wh Fun Arg : Type*} [DecidableEq Wh]

namespace Node

/-- The state after `bmk_isr_init`, for whatever handlers.  [SRC kernel.c:74-76, intr.c:115-128] -/
def start (intr : IntrWorld Fun Arg) (clock : Nat) : Node Wh Fun Arg where
  sched := Sched.bmkSchedCreate Sched.bmkSchedInit 0 none 0
  clock := clock
  intr := intr
  isrTodo := 0
  pc := .hypSchedule0
  waithead := fun _ => []
  onlist := fun _ => false
  call := fun _ => none
  raised := []
  passes := []
  calls := 0
  serial := fun _ => 0
  dequeued := []
  returned := []

/-- The part of the state that the sleep queues are over. -/
def fibers (w : Node Wh Fun Arg) : Fibers Tid Wh :=
  ⟨w.sched.currentThread, w.sched.scheduling, w.sched.tcb, w.waithead, w.onlist⟩

def setFibers (w : Node Wh Fun Arg) (s : Fibers Tid Wh) : Node Wh Fun Arg :=
  { w with sched := { w.sched with tcb := s.tcb }, waithead := s.waithead, onlist := s.onlist }

def setCall (w : Node Wh Fun Arg) (t : Tid) (c : Option (Call Wh)) : Node Wh Fun Arg :=
  { w with call := Function.update w.call t c }

/-- A step of sched.c. -/
def does (w : Node Wh Fun Arg) (e : Sched.Event) : Node Wh Fun Arg :=
  { w with sched := Sched.effect w.sched e }

def setDepth (w : Node Wh Fun Arg) (depth : Nat) : Node Wh Fun Arg :=
  { w with intr := { w.intr with board := { w.intr.board with splDepth := depth } } }

/-- `spl0`, with the panic. -/
def lower (w : Node Wh Fun Arg) (pc : IsrPc Fun Arg) : Node Wh Fun Arg :=
  match spl0 w.intr.board.splDepth with
  | some depth => { w.setDepth depth with pc := pc }
  | none => { w with intr := { w.intr with halted := true } }

/-- Add to the record of the pass that is going on. -/
def notePass (w : Node Wh Fun Arg) (f : Pass Fun Arg → Pass Fun Arg) : Node Wh Fun Arg :=
  { w with passes := w.passes.modifyHead f }

/-- The running thread may call into the modelled code: it is outside of it, and, if it is the interrupt
    thread, `isr` has called out. -/
def mayCall (w : Node Wh Fun Arg) : Bool :=
  w.sched.calls && (w.call w.sched.currentThread).isNone &&
    (w.sched.currentThread != isrThread || w.pc.outside)

end Node

/-- [SRC intr.c:106-113] -/
def bmkIsr (w : Node Wh Fun Arg) (which : Nat) : Node Wh Fun Arg :=
  { w.does (.wake isrThread) with
    isrTodo := w.isrTodo ||| lineBit which
    raised := which :: w.raised }

/-- The loop over the handlers, from where `rest` is what is left of the list.  [SRC intr.c:56-60] -/
def walkOn (isrcopy : UInt32) (rv : Int32) (i : Nat) : List (IntrHand Fun Arg) → IsrPc Fun Arg
  | [] => .hypUnschedule isrcopy rv i
  | ih :: rest => .handler isrcopy i ih rest

/-- The next statement of `isr`; where it has called out, the call returns, a handler with `rv`.  A list of
    handlers only ever grows at its head, so the records behind the one that is being called stay as they
    are.
    [SRC intr.c:30-80] -/
def isrStep (w : Node Wh Fun Arg) (rv : Int32) : Node Wh Fun Arg :=
  match w.pc with
  | .hypSchedule0 => { w with pc := .newlwp }
  | .newlwp => { w with pc := .hypUnschedule0 }
  | .hypUnschedule0 => { w with pc := .splhigh }
  | .splhigh => { w.setDepth (splhigh w.intr.board.splDepth) with pc := .test }
  | .test => if w.isrTodo ≠ 0 then { w with pc := .copy } else { w with pc := .block }
  | .copy =>
      { w with
        pc := .clear w.isrTodo
        passes := ⟨w.raised, w.isrTodo, [], false⟩ :: w.passes
        raised := [] }
  | .clear isrcopy => { w with isrTodo := 0, pc := .lower isrcopy }
  | .lower isrcopy => w.lower (.line isrcopy 0 0)
  | .line isrcopy last i =>
      if i < 32 then
        if isrcopy &&& lineBit i = 0 then { w with pc := .line isrcopy last (i + 1) }
        else { w with pc := .hypSchedule isrcopy last i }
      else { w with pc := .ack last }
  | .hypSchedule isrcopy last i =>
      { w.notePass fun p => { p with walks := ⟨i, w.intr.isrIh i, []⟩ :: p.walks } with
        pc := walkOn isrcopy last i (w.intr.isrIh i) }
  | .handler isrcopy i ih rest =>
      { w.notePass fun p => { p with
          walks := p.walks.modifyHead fun k => { k with called := (ih, rv) :: k.called } } with
        pc := if rv ≠ 0 then .hypUnschedule isrcopy rv i else walkOn isrcopy rv i rest }
  | .hypUnschedule isrcopy last i => { w with pc := .line isrcopy last (i + 1) }
  | .ack last =>
      { w.notePass fun p => { p with finished := true } with
        intr := { w.intr with board := w.intr.board.outbs [(pic2Cmd, 0x20), (pic1Cmd, 0x20)] }
        pc := if last = 0 then .stray else .splhigh }
  | .stray => { w with pc := .splhigh }
  | .block => { w.does (.block isrThread) with pc := .lowerIdle }
  | .lowerIdle => w.lower .callSched
  | .callSched => { w.does .sched with pc := .idle }
  | .idle => { w with pc := .splhigh }

/-- `wait` up to the point where the record is queued.  [SRC rumpfiber.c:78-80] -/
def waitEnter (w : Node Wh Fun Arg) (wh : Wh) (nsec : UInt64) : Node Wh Fun Arg :=
  let who := w.sched.currentThread
  { w.setCall who (some (.wait wh nsec .queued 0)) with
    waithead := Function.update w.waithead wh (w.waithead wh ++ [who])
    onlist := Function.update w.onlist who true
    calls := w.calls + 1
    serial := Function.update w.serial who w.calls }

/-- The next statement of the function that the running thread is inside of.
    [SRC rumpfiber.c:81-90, sched.c:344-345] -/
def advance (w : Node Wh Fun Arg) : Node Wh Fun Arg :=
  let who := w.sched.currentThread
  match w.call who with
  | some (.wait wh nsec .queued now) =>
      (w.does (.block who)).setCall who (some (.wait wh nsec .blocked now))
  | some (.wait wh nsec .blocked now) =>
      if nsec ≠ 0 then
        (w.does (.setwakeup who (deadline w.clock nsec.toNat))).setCall who
          (some (.wait wh nsec .timed w.clock))
      else w.setCall who (some (.wait wh nsec .timed now))
  | some (.wait wh nsec .timed now) => (w.does .sched).setCall who (some (.wait wh nsec .asleep now))
  | some (.wait wh nsec .asleep now) =>
      { (w.setFibers (waitEnd w.fibers wh)).setCall who none with
        returned := ⟨w.serial who, wh, nsec, now, waitTimedOut w.fibers, w.clock⟩ :: w.returned }
  | some .nanosleep =>
      { w.setCall who none with
        sched := Sched.enterSched { w.sched with tcb := clearRunnable w.sched.tcb who } .other }
  | none => w

inductive NodeEvent (Wh Fun Arg : Type*) where
  /-- An interrupt on a line. -/
  | irq (which : Nat)
  /-- Time passes. -/
  | tick (cycles : Nat)
  /-- The interrupt thread goes on in `isr`. -/
  | isr (rv : Int32)
  | wait (wh : Wh) (nsec : UInt64)
  /-- The running thread goes on in `wait` or `bmk_sched_nanosleep`. -/
  | advance
  | wakeupOne (wh : Wh)
  | wakeupAll (wh : Wh)
  | nanosleep (nsec : Int)
  /-- Another call into sched.c. -/
  | thread (e : Sched.Event)
  | netinit (func : Fun) (arg : Arg) (intr : Int32) (found : Bool)
  /-- A pass of the loop in `bmk_sched`. -/
  | pass
deriving DecidableEq, Repr

/-- The functions of sched.c that threads call from outside.  `bmk_sched_block`, `bmk_sched_setwakeup` and
    `bmk_sched_wake` have no callers but those modelled here. -/
def threadCall : Sched.Event → Bool
  | .create _ _ _ | .exit | .join _ | .sched => true
  | _ => false

def nodeEnabled (w : Node Wh Fun Arg) : NodeEvent Wh Fun Arg → Bool
  | .irq which => which < 32 && w.intr.board.splDepth == 0
  | .tick _ => true
  | .isr _ => w.sched.currentThread == isrThread && w.sched.calls && (w.call isrThread).isNone
  | .advance => w.sched.calls && (w.call w.sched.currentThread).isSome
  | .wait _ _ | .wakeupOne _ | .wakeupAll _ | .nanosleep _ | .netinit _ _ _ _ => w.mayCall
  | .thread e => w.mayCall && threadCall e
  | .pass => w.sched.scheduling

def nodeEffect (s : Stubs) (w : Node Wh Fun Arg) : NodeEvent Wh Fun Arg → Node Wh Fun Arg
  | .irq which => bmkIsr w which
  | .tick cycles => { w with clock := w.clock + cycles }
  | .isr rv => isrStep w rv
  | .wait wh nsec => waitEnter w wh nsec
  | .advance => advance w
  | .wakeupOne wh =>
      { w.setFibers (wakeupOne w.fibers wh) with
        dequeued := (w.waithead wh).head?.toList.map (fun t => (wh, w.serial t)) ++ w.dequeued }
  | .wakeupAll wh =>
      { w.setFibers (wakeupAll w.fibers wh) with
        dequeued := (w.waithead wh).map (fun t => (wh, w.serial t)) ++ w.dequeued }
  | .nanosleep nsec =>
      (w.does (.setwakeup w.sched.currentThread ((w.clock + nsec).bmod (2 ^ 64)))).setCall
        w.sched.currentThread (some .nanosleep)
  | .thread e => w.does e
  | .netinit func arg intr found =>
      match bmkIsrNetinit s w.intr func arg intr found with
      | some (_, intr) => { w with intr := intr }
      | none => { w with intr := { w.intr with halted := true } }
  | .pass => w.does (.pass (bmkClockNow w.clock))

/-- Nothing follows a failed assertion or a panic. -/
def nodeStep (s : Stubs) (w : Node Wh Fun Arg) (e : NodeEvent Wh Fun Arg) : Option (Node Wh Fun Arg) :=
  if w.sched.halted.isNone ∧ w.intr.halted = false ∧ nodeEnabled w e then some (nodeEffect s w e) else none

theorem nodeStep_inv {s : Stubs} {w w' : Node Wh Fun Arg} {e : NodeEvent Wh Fun Arg}
    (h : nodeStep s w e = some w') :
    w.sched.halted = none ∧ nodeEnabled w e = true ∧ w' = nodeEffect s w e := by
  unfold nodeStep at h
  split at h
  · rename_i hok
    exact ⟨Option.isNone_iff_eq_none.mp hok.1, hok.2.2, (Option.some.inj h).symm⟩
  · exact absurd h (by simp)

end RumpBaremetal
