/-
Module: RumpBaremetal.Fiber.Mutex
Layer: Fiber
Purpose: One mutex of rumpfiber.c with the condition variables that go with it, as a machine over the
  sleep queues.  A hypercall runs until it calls `bmk_sched` or code of the rump kernel
  (`rumpkern_unsched`, `rumpkern_sched`); there the thread is suspended at a program counter, the rump
  kernel may give up the processor as it likes, and `resume` continues behind the call.
  `mutex_run_sleeps` places its runs among those of all wait heads.
Trusted boundary: human-reviewed spec
Main exports: RumpuserMtx, Wh, CvCall, Pc, World, rumpuserMutexTryenter, Event, enabled, effect, step
-/
import RumpBaremetal.Fiber.Wait
import RumpBaremetal.Lib.Counter

namespace RumpBaremetal.Mutex

/-- The two bits of `mtx->flags` that `cv_resched` looks at. -/
structure MtxFlags where
  spin : Bool
  kmutex : Bool
deriving DecidableEq, Repr

/-- `struct rumpuser_mtx` without its wait head.  [SRC rumpfiber.c:147-152] -/
structure RumpuserMtx (Lwp : Type*) where
  v : Int32
  flags : MtxFlags
  o : Option Lwp
deriving DecidableEq, Repr

/-- The wait heads: that of the mutex and those of the condition variables. -/
inductive Wh (Cv : Type*) where
  | mtx
  | cv (c : Cv)
deriving DecidableEq, Repr

/-- The three ways to wait on a condition variable. -/
inductive CvCall where
  | cvWait
  | cvWaitNowrap
  | cvTimedwait (sec nsec : Int)
deriving DecidableEq, Repr

/-- The argument `nsec` that `wait` gets.  [SRC rumpfiber.c:421,432,446] -/
def CvCall.waitNsec : CvCall → Nat
  | .cvWait => 0
  | .cvWaitNowrap => 0
  | .cvTimedwait sec nsec => ((sec * 1000000000 + nsec) % 2 ^ 64).toNat

/-- Where a thread is. -/
inductive Pc (Cv : Type*) where
  /-- Outside the hypercalls on this mutex and its condition variables. -/
  | outside
  /-- In `rumpkern_unsched`, called by `rumpuser_mutex_enter`. -/
  | enterUnsched
  /-- In `wait`, called by `rumpuser_mutex_enter`. -/
  | enterWait
  /-- In `rumpkern_sched` at the end of `rumpuser_mutex_enter`. -/
  | enterSched
  /-- In `rumpkern_unsched`, called by `cv_unsched`. -/
  | cvUnsched (c : Cv) (call : CvCall)
  /-- In `wait`, called by one of the condition waits. -/
  | cvWait (c : Cv) (call : CvCall)
  /-- In `rumpkern_sched`, called by `cv_resched` for a spin mutex, which is entered behind it. -/
  | cvSchedFirst (c : Cv)
  /-- In `rumpkern_sched` at the end of `cv_resched`. -/
  | cvSchedLast (c : Cv)
deriving DecidableEq, Repr

/-- The wait head on which the thread is inside `wait`. -/
def Pc.site {Cv : Type*} : Pc Cv → Option (Wh Cv)
  | .enterWait => some .mtx
  | .cvWait c _ => some (.cv c)
  | _ => none

inductive Halt where
  /-- The assertion of `rumpuser_mutex_exit`. -/
  | exitAssert
  /-- The panic of `rumpuser_mutex_enter_nowrap` when it is called from outside. -/
  | spinMutexError
  /-- The same panic when a condition wait takes the mutex back. -/
  | reacquire
deriving DecidableEq, Repr

/-- `tls` holds the `curlwp` of every thread, `none` for `NULL`.  `depth` is a record of the enters of each
    thread that no exit has matched yet; no function reads it.  `nwaiters` is an `int` as well, but it
    counts threads, each of which has a stack in memory, so it does not get to the largest value. -/
structure World (Tid Lwp Cv : Type*) where
  fib : Fibers Tid (Wh Cv)
  mtx : RumpuserMtx Lwp
  nwaiters : Cv → Int
  pc : Tid → Pc Cv
  tls : Tid → Option Lwp
  depth : Tid → Nat
  halted : Option Halt

variable {Tid Lwp Cv : Type*}

/-- After `rumpuser_mutex_init` and `rumpuser_cv_init`, with some thread running.
    [SRC rumpfiber.c:154-164, 372-381] -/
def rumpuserMutexInit [DecidableEq Tid] (flags : MtxFlags) (tls : Tid → Option Lwp) (tcb : Tcbs Tid)
    (running : Tid) : World Tid Lwp Cv where
  fib :=
    { currentThread := running
      scheduling := false
      tcb := setRunnable tcb running
      waithead := fun _ => []
      onlist := fun _ => false }
  mtx := { v := 0, flags := flags, o := none }
  nwaiters := fun _ => 0
  pc := fun _ => .outside
  tls := tls
  depth := fun _ => 0
  halted := none

/-- `none` is `EBUSY`.  [SRC rumpfiber.c:191-203] -/
def rumpuserMutexTryenter [DecidableEq Lwp] (mtx : RumpuserMtx Lwp) (l : Option Lwp) :
    Option (RumpuserMtx Lwp) :=
  if mtx.v ≠ 0 ∧ mtx.o ≠ l then none else some { mtx with v := mtx.v + 1, o := l }

variable [DecidableEq Tid] [DecidableEq Lwp] [DecidableEq Cv]

/-- The running thread tries to enter. -/
def tryenter (w : World Tid Lwp Cv) : Option (World Tid Lwp Cv) :=
  (rumpuserMutexTryenter w.mtx (w.tls w.fib.currentThread)).map fun mtx =>
    { w with
      mtx := mtx
      depth := Function.update w.depth w.fib.currentThread (w.depth w.fib.currentThread + 1) }

def goto (w : World Tid Lwp Cv) (pc : Pc Cv) : World Tid Lwp Cv :=
  { w with pc := Function.update w.pc w.fib.currentThread pc }

/-- [SRC rumpfiber.c:171] -/
def rumpuserMutexEnter (w : World Tid Lwp Cv) : World Tid Lwp Cv :=
  match tryenter w with
  | some w => w
  | none => goto w .enterUnsched

/-- The running thread puts itself on a wait head and calls `bmk_sched`. -/
def asleep (w : World Tid Lwp Cv) (pc : Pc Cv) (wh : Wh Cv) (now nsec : Nat) : World Tid Lwp Cv :=
  { goto w pc with fib := waitBegin w.fib wh now nsec }

/-- The loop of `rumpuser_mutex_enter`.  [SRC rumpfiber.c:173-175] -/
def enterLoop (w : World Tid Lwp Cv) (now : Nat) : World Tid Lwp Cv :=
  retry tryenter (fun w => goto w .enterSched) (fun w => asleep w .enterWait .mtx now 0) w

/-- `rumpuser_mutex_enter_nowrap`; `failed` tells its two kinds of callers apart.
    [SRC rumpfiber.c:179-189] -/
def rumpuserMutexEnterNowrap (w : World Tid Lwp Cv) (failed : Halt) : World Tid Lwp Cv :=
  match tryenter w with
  | some w => w
  | none => { w with halted := some failed }

/-- [SRC rumpfiber.c:205-214] -/
def rumpuserMutexExit (w : World Tid Lwp Cv) : World Tid Lwp Cv :=
  if 0 < w.mtx.v then
    let depth := Function.update w.depth w.fib.currentThread (w.depth w.fib.currentThread - 1)
    if w.mtx.v - 1 = 0 then
      { w with
        mtx := { w.mtx with v := w.mtx.v - 1, o := none }
        fib := wakeupOne w.fib .mtx
        depth := depth }
    else { w with mtx := { w.mtx with v := w.mtx.v - 1 }, depth := depth }
  else { w with halted := some .exitAssert }

/-- The part of the three condition waits from the release of the mutex to the call of `bmk_sched`. -/
def cvSleep (w : World Tid Lwp Cv) (c : Cv) (call : CvCall) (now : Nat) : World Tid Lwp Cv :=
  asleep (rumpuserMutexExit w) (.cvWait c call) (.cv c) now call.waitNsec

/-- The call of a condition wait.  [SRC rumpfiber.c:414-451] -/
def cvCall (w : World Tid Lwp Cv) (c : Cv) (call : CvCall) (now : Nat) : World Tid Lwp Cv :=
  let w := { w with nwaiters := Function.update w.nwaiters c (w.nwaiters c + 1) }
  match call with
  | .cvWaitNowrap => cvSleep w c call now
  | _ => goto w (.cvUnsched c call)

/-- The end of a condition wait. -/
def cvReturn (w : World Tid Lwp Cv) (c : Cv) : World Tid Lwp Cv :=
  goto { w with nwaiters := Function.update w.nwaiters c (w.nwaiters c - 1) } .outside

/-- Behind `wait` in the three condition waits, with `cv_resched` for two of them.
    [SRC rumpfiber.c:399-412, 433, 447] -/
def cvWoken (w : World Tid Lwp Cv) (c : Cv) (call : CvCall) : World Tid Lwp Cv :=
  let w := { w with fib := waitEnd w.fib (.cv c) }
  match call with
  | .cvWaitNowrap => cvReturn (rumpuserMutexEnterNowrap w .reacquire) c
  | _ =>
      if w.mtx.flags.kmutex ∧ w.mtx.flags.spin then goto w (.cvSchedFirst c)
      else goto (rumpuserMutexEnterNowrap w .reacquire) (.cvSchedLast c)

/-- The running thread goes on inside the hypercall it is in. -/
def resume (w : World Tid Lwp Cv) (now : Nat) : World Tid Lwp Cv :=
  match w.pc w.fib.currentThread with
  | .outside => w
  | .enterUnsched => enterLoop w now
  | .enterWait => enterLoop { w with fib := waitEnd w.fib .mtx } now
  | .enterSched => goto w .outside
  | .cvUnsched c call => cvSleep w c call now
  | .cvWait c call => cvWoken w c call
  | .cvSchedFirst c => cvReturn (rumpuserMutexEnterNowrap w .reacquire) c
  | .cvSchedLast c => cvReturn w c

inductive Event (Tid Cv : Type*) where
  | enter
  | tryenter
  | enterNowrap
  | exit
  | cvCall (c : Cv) (call : CvCall) (now : Nat)
  | cvSignal (c : Cv)
  | cvBroadcast (c : Cv)
  | resume (now : Nat)
  | cpu (e : CpuEvent Tid)
deriving DecidableEq, Repr

/-- The running thread is outside the hypercalls and may call one. -/
def World.calls (w : World Tid Lwp Cv) : Bool := runsAt w.fib w.pc .outside

/-- The running thread holds the mutex. -/
def World.holds (w : World Tid Lwp Cv) : Bool := decide (0 < w.depth w.fib.currentThread)

/-- When an event can happen.  Only a holder exits or waits on a condition variable: this is the lock
    discipline of the clients. -/
def enabled (w : World Tid Lwp Cv) : Event Tid Cv → Bool
  | .enter | .tryenter | .enterNowrap | .cvSignal _ | .cvBroadcast _ => w.calls
  | .exit | .cvCall _ _ _ => w.calls && w.holds
  | .resume _ => !w.fib.scheduling && decide (w.pc w.fib.currentThread ≠ .outside)
  | .cpu e => cpuAllowed w.fib (w.pc w.fib.currentThread).site e

def effect (w : World Tid Lwp Cv) : Event Tid Cv → World Tid Lwp Cv
  | .enter => rumpuserMutexEnter w
  | .tryenter => (tryenter w).getD w
  | .enterNowrap => rumpuserMutexEnterNowrap w .spinMutexError
  | .exit => rumpuserMutexExit w
  | .cvCall c call now => cvCall w c call now
  | .cvSignal c => { w with fib := wakeupOne w.fib (.cv c) }
  | .cvBroadcast c => { w with fib := wakeupAll w.fib (.cv c) }
  | .resume now => resume w now
  | .cpu e => { w with fib := cpuEffect w.fib e }

/-- Nothing follows a failed assertion or a panic. -/
def step (w : World Tid Lwp Cv) (e : Event Tid Cv) : Option (World Tid Lwp Cv) :=
  if w.halted.isNone ∧ enabled w e then some (effect w e) else none

theorem step_inv {w w' : World Tid Lwp Cv} {e : Event Tid Cv} (h : step w e = some w') :
    w.halted = none ∧ enabled w e = true ∧ w' = effect w e := by
  unfold step at h
  split at h
  · rename_i hok
    exact ⟨Option.isNone_iff_eq_none.mp hok.1, hok.2, (Option.some.inj h).symm⟩
  · exact absurd h (by simp)

end RumpBaremetal.Mutex
