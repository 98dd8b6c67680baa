/-
Module: RumpBaremetal.Fiber.Rwlock
Layer: Fiber
Purpose: One reader/writer lock of rumpfiber.c as a machine over the sleep queues.  As with the mutex, a
  thread inside `rumpuser_rw_enter` is suspended at a program counter where the source calls the rump
  kernel or `bmk_sched`.
Trusted boundary: human-reviewed spec
Main exports: Rumprwlock, RumpuserRw, Wq, Pc, World, rumpuserRwTryenter, rumpuserRwExit, Event, enabled,
  effect, step
-/
import RumpBaremetal.Fiber.Wait
import RumpBaremetal.Lib.Counter

namespace RumpBaremetal.Rwlock

/-- `enum rumprwlock` -/
inductive Rumprwlock where
  | writer
  | reader
deriving DecidableEq, Repr

/-- `struct rumpuser_rw` without its wait heads.  [SRC rumpfiber.c:231-236] -/
structure RumpuserRw (Lwp : Type*) where
  v : Int32
  o : Option Lwp
deriving DecidableEq, Repr

/-- One if a writer is marked in the lock. -/
def RumpuserRw.owners {Lwp : Type*} (rw : RumpuserRw Lwp) : Int := if rw.o.isSome then 1 else 0

/-- The two wait heads. -/
inductive Wq where
  | rwait
  | wwait
deriving DecidableEq, Repr

/-- The wait head that `rumpuser_rw_enter` uses.  [SRC rumpfiber.c:258-265] -/
def Rumprwlock.queue : Rumprwlock → Wq
  | .writer => .wwait
  | .reader => .rwait

inductive Errno where
  | EBUSY
  | EINVAL
deriving DecidableEq, Repr

/-- Where a thread is: outside, or in `rumpkern_unsched`, `wait` or `rumpkern_sched` as called by
    `rumpuser_rw_enter`. -/
inductive Pc where
  | outside
  | enterUnsched (lk : Rumprwlock)
  | enterWait (lk : Rumprwlock)
  | enterSched (lk : Rumprwlock)
deriving DecidableEq, Repr

def Pc.site : Pc → Option Wq
  | .enterWait lk => some lk.queue
  | _ => none

/-- `tls` holds the `curlwp` of every thread.  `held` is a record of the enters that no exit has matched
    yet, the latest first; no function of the source reads it. -/
structure World (Tid Lwp : Type*) where
  fib : Fibers Tid Wq
  rw : RumpuserRw Lwp
  pc : Tid → Pc
  tls : Tid → Option Lwp
  held : List (Tid × Rumprwlock)

variable {Tid Lwp : Type*}

/-- [SRC rumpfiber.c:238-249] -/
def rumpuserRwInit [DecidableEq Tid] (tls : Tid → Option Lwp) (tcb : Tcbs Tid) (running : Tid) :
    World Tid Lwp where
  fib :=
    { currentThread := running
      scheduling := false
      tcb := setRunnable tcb running
      waithead := fun _ => []
      onlist := fun _ => false }
  rw := { v := 0, o := none }
  pc := fun _ => .outside
  tls := tls
  held := []

/-- `rumpuser_rw_tryenter`, for the lwp `l`; `none` stands for every other value of the enumeration
    argument.  [SRC rumpfiber.c:275-303] -/
def rumpuserRwTryenter (rw : RumpuserRw Lwp) (wwaitEmpty : Bool) (l : Option Lwp) :
    Option Rumprwlock → Except Errno (RumpuserRw Lwp)
  | some .writer => if rw.o.isNone then .ok { rw with o := l } else .error .EBUSY
  | some .reader =>
      if rw.o.isNone ∧ wwaitEmpty then .ok { rw with v := rw.v + 1 } else .error .EBUSY
  | none => .error .EINVAL

variable [DecidableEq Tid]

/-- The running thread tries to enter. -/
def tryenter (w : World Tid Lwp) (lk : Rumprwlock) : Option (World Tid Lwp) :=
  match rumpuserRwTryenter w.rw (w.fib.waithead .wwait).isEmpty (w.tls w.fib.currentThread)
      (some lk) with
  | .ok rw => some { w with rw := rw, held := (w.fib.currentThread, lk) :: w.held }
  | .error _ => none

def goto (w : World Tid Lwp) (pc : Pc) : World Tid Lwp :=
  { w with pc := Function.update w.pc w.fib.currentThread pc }

/-- [SRC rumpfiber.c:251-267] -/
def rumpuserRwEnter (w : World Tid Lwp) (lk : Rumprwlock) : World Tid Lwp :=
  match tryenter w lk with
  | some w => w
  | none => goto w (.enterUnsched lk)

/-- The running thread puts itself on its wait head and calls `bmk_sched`. -/
def asleep (w : World Tid Lwp) (lk : Rumprwlock) (now : Nat) : World Tid Lwp :=
  { goto w (.enterWait lk) with fib := waitBegin w.fib lk.queue now 0 }

/-- The loop of `rumpuser_rw_enter`.  [SRC rumpfiber.c:269-271] -/
def enterLoop (w : World Tid Lwp) (lk : Rumprwlock) (now : Nat) : World Tid Lwp :=
  retry (tryenter · lk) (fun w => goto w (.enterSched lk)) (fun w => asleep w lk now) w

/-- The wakeups at the end of `rumpuser_rw_exit`.  [SRC rumpfiber.c:315-321] -/
def exitWakeups (fib : Fibers Tid Wq) (o : Option Lwp) : Fibers Tid Wq :=
  if ¬ (fib.waithead .wwait).isEmpty then
    if o.isNone then wakeupOne fib .wwait else fib
  else if ¬ (fib.waithead .rwait).isEmpty ∧ o.isNone then wakeupAll fib .rwait
  else fib

/-- `rumpuser_rw_exit`.  The hold that the caller gives up is its latest one.
    [SRC rumpfiber.c:305-322] -/
def rumpuserRwExit (w : World Tid Lwp) : World Tid Lwp :=
  let rw := if w.rw.o.isSome then { w.rw with o := none } else { w.rw with v := w.rw.v - 1 }
  { w with
    rw := rw
    fib := exitWakeups w.fib rw.o
    held := w.held.eraseP fun hold => hold.1 = w.fib.currentThread }

/-- The running thread goes on inside `rumpuser_rw_enter`. -/
def resume (w : World Tid Lwp) (now : Nat) : World Tid Lwp :=
  match w.pc w.fib.currentThread with
  | .outside => w
  | .enterUnsched lk => enterLoop w lk now
  | .enterWait lk => enterLoop { w with fib := waitEnd w.fib lk.queue } lk now
  | .enterSched _ => goto w .outside

inductive Event (Tid : Type*) where
  | enter (lk : Rumprwlock)
  | tryenter (lk : Option Rumprwlock)
  | exit
  | resume (now : Nat)
  | cpu (e : CpuEvent Tid)
deriving DecidableEq, Repr

def World.calls (w : World Tid Lwp) : Bool := runsAt w.fib w.pc .outside

/-- The running thread holds the lock, as reader or as writer. -/
def World.holds (w : World Tid Lwp) : Bool := w.held.any fun hold => hold.1 = w.fib.currentThread

/-- Only a holder exits. -/
def enabled (w : World Tid Lwp) : Event Tid → Bool
  | .enter _ | .tryenter _ => w.calls
  | .exit => w.calls && w.holds
  | .resume _ => !w.fib.scheduling && decide (w.pc w.fib.currentThread ≠ .outside)
  | .cpu e => cpuAllowed w.fib (w.pc w.fib.currentThread).site e

def effect (w : World Tid Lwp) : Event Tid → World Tid Lwp
  | .enter lk => rumpuserRwEnter w lk
  | .tryenter (some lk) => (tryenter w lk).getD w
  | .tryenter none => w
  | .exit => rumpuserRwExit w
  | .resume now => resume w now
  | .cpu e => { w with fib := cpuEffect w.fib e }

def step (w : World Tid Lwp) (e : Event Tid) : Option (World Tid Lwp) :=
  if enabled w e then some (effect w e) else none

theorem step_inv {w w' : World Tid Lwp} {e : Event Tid} (h : step w e = some w') :
    enabled w e = true ∧ w' = effect w e := by
  unfold step at h
  split at h
  · rename_i hok
    exact ⟨hok, (Option.some.inj h).symm⟩
  · exact absurd h (by simp)

end RumpBaremetal.Rwlock
