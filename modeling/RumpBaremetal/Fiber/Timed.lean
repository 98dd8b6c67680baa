/-
Module: RumpBaremetal.Fiber.Timed
Layer: Fiber
Purpose: The hypercalls that take a time.  `rumpuser_cv_timedwait` and `rumpuser_clock_sleep` turn seconds
  and nanoseconds into one 64-bit number and pass it to `wait` and to `bmk_sched_nanosleep`, which the
  machine of the interrupt thread has as events.  A thin machine over that one keeps the arguments of the
  timed waits, and what the clock showed when the thread blocked.
Trusted boundary: human-reviewed spec
Main exports: nanoseconds, duration, rumpuserCvTimedwait, RumpClock, rumpuserClockGettime,
  rumpuserClockSleep, RumpClock.moment, Timedwait, TimedNode, TimedEvent, timedStep
-/
import RumpBaremetal.Fiber.Isr

namespace RumpBaremetal

open Sched (Tid)

/-- `sec * 1000*1000*1000ULL + nsec`.  The first two products are signed; where they overflow, which the
    language leaves undefined, they wrap as the processor's do.  The rest is unsigned.
    [SRC rumpfiber.c:446, rumpuser.c:130] -/
def nanoseconds (sec nsec : Int64) : UInt64 := (sec * 1000 * 1000).toUInt64 * 1000 + nsec.toUInt64

/-- The span that seconds and nanoseconds stand for. -/
def duration (sec nsec : Int) : Int := sec * 10 ^ 9 + nsec

variable {Wh Fun Arg : Type*}

/-- `rumpuser_cv_timedwait` where it calls `wait`.  What it does before and behind, to the mutex and to the
    count of waiters, is in the machine of the condition variables; it returns what `wait` returns.
    [SRC rumpfiber.c:437-451] -/
def rumpuserCvTimedwait (cv : Wh) (sec nsec : Int64) : NodeEvent Wh Fun Arg :=
  .wait cv (nanoseconds sec nsec)

/-! ### The clocks of rump/rumpuser.h -/

/-- `enum rumpclock` -/
inductive RumpClock where
  | relwall
  | absmono
deriving DecidableEq, Repr

/-- The division is unsigned, and `long` has 32 bits.  [SRC rumpuser.c:112-122] -/
def rumpuserClockGettime (_enumRumpclock : RumpClock) (clock : Nat) : Int64 × Int32 :=
  let now := UInt64.ofNat clock
  ((now / 1000000000).toInt64, (now % 1000000000).toUInt32.toInt32)

/-- `rumpuser_clock_sleep` where it calls `bmk_sched_nanosleep`, whose parameter is signed.
    [SRC rumpuser.c:124-134] -/
def rumpuserClockSleep (_enumRumpclock : RumpClock) (sec : Int64) (nsec : Int32) : NodeEvent Wh Fun Arg :=
  .nanosleep (nanoseconds sec nsec.toInt64).toInt64.toInt

/-- The moment that a sleep is to end at, by the contract of the hypercall: a duration from now, or a time
    on the clock that `rumpuser_clock_gettime` reports. -/
def RumpClock.moment (enumRumpclock : RumpClock) (now : Int) (sec : Int64) (nsec : Int32) : Int :=
  match enumRumpclock with
  | .relwall => now + duration sec.toInt nsec.toInt
  | .absmono => duration sec.toInt nsec.toInt

/-! ### Timed waits on record -/

/-- The arguments of a timed wait.  `blockedAt` is what the clock showed when `wait` had blocked the thread
    and came to its wakeup time. -/
structure Timedwait where
  sec : Int64
  nsec : Int64
  blockedAt : Nat
deriving DecidableEq, Repr

/-- `timedwait` holds the latest call of `wait` of each thread if it was a timed wait. -/
structure TimedNode (Wh Fun Arg : Type*) where
  node : Node Wh Fun Arg
  timedwait : Tid → Option Timedwait

inductive TimedEvent (Wh Fun Arg : Type*) where
  | timedwait (cv : Wh) (sec nsec : Int64)
  | other (e : NodeEvent Wh Fun Arg)
deriving DecidableEq, Repr

def TimedEvent.event : TimedEvent Wh Fun Arg → NodeEvent Wh Fun Arg
  | .timedwait cv sec nsec => rumpuserCvTimedwait cv sec nsec
  | .other e => e

def TimedNode.start (intr : IntrWorld Fun Arg) (clock : Nat) : TimedNode Wh Fun Arg :=
  ⟨Node.start intr clock, fun _ => none⟩

/-- The record of the running thread after an event. -/
def TimedNode.note (w : TimedNode Wh Fun Arg) : TimedEvent Wh Fun Arg → Option Timedwait
  | .timedwait _ sec nsec => some ⟨sec, nsec, 0⟩
  | .other (.wait _ _) => none
  | .other .advance =>
      match w.node.call w.node.sched.currentThread with
      | some (.wait _ _ .blocked _) =>
          (w.timedwait w.node.sched.currentThread).map fun c => { c with blockedAt := w.node.clock }
      | _ => w.timedwait w.node.sched.currentThread
  | .other _ => w.timedwait w.node.sched.currentThread

variable [DecidableEq Wh]

def timedStep (s : Stubs) (w : TimedNode Wh Fun Arg) (e : TimedEvent Wh Fun Arg) :
    Option (TimedNode Wh Fun Arg) :=
  (nodeStep s w.node e.event).map fun node =>
    ⟨node, Function.update w.timedwait w.node.sched.currentThread (w.note e)⟩

theorem timedStep_inv {s : Stubs} {w w' : TimedNode Wh Fun Arg} {e : TimedEvent Wh Fun Arg}
    (h : timedStep s w e = some w') :
    nodeStep s w.node e.event = some w'.node ∧
      w'.timedwait = Function.update w.timedwait w.node.sched.currentThread (w.note e) := by
  obtain ⟨node, hnode, rfl⟩ := Option.map_eq_some_iff.mp h
  exact ⟨hnode, rfl⟩

end RumpBaremetal
