/-
Module: RumpBaremetal.Fiber.Sleep
Layer: Fiber
Purpose: All wait heads of rumpfiber.c at once: any thread may call `wait`, `wakeup_one` and `wakeup_all` on
  any of them, and the condition waits with the mutexes they release and take back.  `rumpkern_sched` and
  `rumpkern_unsched` are code of the rump kernel, which makes such calls itself, so the calls a thread is
  inside of form a stack.  A failed assertion and a panic end the run.
Trusted boundary: human-reviewed spec
Main exports: Lock, Wh, Frame, Mark, World, site, wakeOne, wakeAll, sleepOn, endWait, cvCall, resume, Event,
  enabled, effect, step
-/
import RumpBaremetal.Fiber.Mutex

namespace RumpBaremetal.Sleep

open Mutex (MtxFlags RumpuserMtx CvCall)

/-- What has a wait head apart from condition variables: the mutexes and the rest. -/
inductive Lock (Mtx Head : Type*) where
  | mtx (m : Mtx)
  | other (h : Head)
deriving DecidableEq, Repr

inductive Wh (Mtx Cv Head : Type*) where
  | lock (l : Lock Mtx Head)
  | cv (c : Cv)
deriving DecidableEq, Repr

/-- A call that a thread is inside of. -/
inductive Frame (Mtx Cv Head : Type*) where
  /-- In `wait`, called by anything but a condition wait. -/
  | wait (l : Lock Mtx Head)
  /-- In a condition wait, in front of the release of the mutex: in `rumpkern_unsched`, called by
      `cv_unsched`. -/
  | cvRelease (c : Cv) (m : Mtx) (call : CvCall)
  /-- In `wait`, called by one of the condition waits. -/
  | cvWait (c : Cv) (m : Mtx) (call : CvCall)
  /-- In a condition wait, behind `wait` and without the mutex: in `rumpkern_sched`, called by `cv_resched`
      for a spin mutex, which is entered behind it. -/
  | cvSchedFirst (c : Cv) (m : Mtx)
  /-- In `rumpkern_sched` at the end of `cv_resched`. -/
  | cvSchedLast (c : Cv)
deriving DecidableEq, Repr

section Frames

variable {Mtx Cv Head : Type*}

/-- The wait head of a frame that is a call of `wait`. -/
def Frame.site : Frame Mtx Cv Head → Option (Wh Mtx Cv Head)
  | .wait l => some (.lock l)
  | .cvWait c _ _ => some (.cv c)
  | _ => none

/-- The condition variable of a frame that is a condition wait. -/
def Frame.cv : Frame Mtx Cv Head → Option Cv
  | .wait _ => none
  | .cvRelease c _ _ | .cvWait c _ _ | .cvSchedFirst c _ | .cvSchedLast c => some c

end Frames

/-- What happens to the `n`-th call of `wait`. -/
inductive Mark where
  /-- A wakeup takes its record off the queue. -/
  | dequeued (n : Nat)
  /-- It takes its record off the queue itself. -/
  | withdrew (n : Nat)
  /-- It returns `ETIMEDOUT` or 0. -/
  | returned (n : Nat) (timedOut : Bool)
deriving DecidableEq, Repr

def Mark.call : Mark → Nat
  | .dequeued n | .withdrew n | .returned n _ => n

/-- What goes on record when a call returns. -/
def returnMarks (n : Nat) : Bool → List Mark
  | true => [.withdrew n, .returned n true]
  | false => [.returned n false]

/-- `stack` holds the calls every thread is inside of, the innermost first.  `calls`, `serial` and `log` are
    a record that no function reads: how many calls of `wait` there were, the last one of every thread, and
    what happened to them. -/
structure World (Tid Lwp Mtx Cv Head : Type*) where
  fib : Fibers Tid (Wh Mtx Cv Head)
  mtx : Mtx → RumpuserMtx Lwp
  nwaiters : Cv → Int
  tls : Tid → Option Lwp
  stack : Tid → List (Frame Mtx Cv Head)
  calls : Nat
  serial : Tid → Nat
  log : List Mark

section Reading

variable {Tid Lwp Mtx Cv Head : Type*}

/-- The wait head on which the thread is inside `wait`.  Such a thread runs nothing else, so it is its
    innermost call. -/
def World.site (w : World Tid Lwp Mtx Cv Head) (t : Tid) : Option (Wh Mtx Cv Head) :=
  (w.stack t).head?.bind Frame.site

/-- How many condition waits on `c` the thread is inside of. -/
def World.cvCalls [DecidableEq Cv] (w : World Tid Lwp Mtx Cv Head) (c : Cv) (t : Tid) : Nat :=
  (w.stack t).countP fun f => f.cv = some c

/-- [SRC rumpfiber.c:467-472] -/
def rumpuserCvHasWaiters (w : World Tid Lwp Mtx Cv Head) (c : Cv) : Bool := w.nwaiters c ≠ 0

/-- All mutexes are free, all queues are empty, and some thread is running.
    [SRC rumpfiber.c:154-164, 372-381] -/
def World.start [DecidableEq Tid] (flags : Mtx → MtxFlags) (tls : Tid → Option Lwp) (tcb : Tcbs Tid)
    (running : Tid) : World Tid Lwp Mtx Cv Head where
  fib :=
    { currentThread := running
      scheduling := false
      tcb := setRunnable tcb running
      waithead := fun _ => []
      onlist := fun _ => false }
  mtx := fun m => { v := 0, flags := flags m, o := none }
  nwaiters := fun _ => 0
  tls := tls
  stack := fun _ => []
  calls := 0
  serial := fun _ => 0
  log := []

end Reading

variable {Tid Lwp Mtx Cv Head : Type*} [DecidableEq Tid] [DecidableEq Lwp] [DecidableEq Mtx]
  [DecidableEq Cv] [DecidableEq Head]

/-! ### Waiting and waking -/

/-- The calls of the running thread. -/
def World.frames (w : World Tid Lwp Mtx Cv Head) : List (Frame Mtx Cv Head) := w.stack w.fib.currentThread

def World.setFrames (w : World Tid Lwp Mtx Cv Head) (frames : List (Frame Mtx Cv Head)) :
    World Tid Lwp Mtx Cv Head :=
  { w with stack := Function.update w.stack w.fib.currentThread frames }

/-- `wakeup_one`.  [SRC rumpfiber.c:93-103] -/
def wakeOne (w : World Tid Lwp Mtx Cv Head) (wh : Wh Mtx Cv Head) : World Tid Lwp Mtx Cv Head :=
  { w with
    fib := wakeupOne w.fib wh
    log := w.log ++ ((w.fib.waithead wh).head?.map fun who => Mark.dequeued (w.serial who)).toList }

/-- `wakeup_all`, whose loop does what `wakeup_one` does until the queue is empty.
    [SRC rumpfiber.c:105-115] -/
def wakeAll (w : World Tid Lwp Mtx Cv Head) (wh : Wh Mtx Cv Head) : World Tid Lwp Mtx Cv Head :=
  (w.fib.waithead wh).foldl (fun w _ => wakeOne w wh) w

/-- The running thread calls `wait`, which makes its calls `frames`, up to the call of `bmk_sched`.
    [SRC rumpfiber.c:73-84] -/
def sleepOn (w : World Tid Lwp Mtx Cv Head) (wh : Wh Mtx Cv Head) (frames : List (Frame Mtx Cv Head))
    (now nsec : Nat) : World Tid Lwp Mtx Cv Head :=
  { w.setFrames frames with
    fib := waitBegin w.fib wh now nsec
    serial := Function.update w.serial w.fib.currentThread w.calls
    calls := w.calls + 1 }

/-- `wait` goes on behind `bmk_sched` and returns to `frames`.  [SRC rumpfiber.c:86-90] -/
def endWait (w : World Tid Lwp Mtx Cv Head) (wh : Wh Mtx Cv Head) (frames : List (Frame Mtx Cv Head)) :
    World Tid Lwp Mtx Cv Head :=
  { w.setFrames frames with
    fib := waitEnd w.fib wh
    log := w.log ++ returnMarks (w.serial w.fib.currentThread) (waitTimedOut w.fib) }

/-! ### The mutexes -/

/-- The running thread tries to enter; `none` is `EBUSY`, at which `rumpuser_mutex_enter_nowrap` panics.
    [SRC rumpfiber.c:179-203] -/
def tryenter (w : World Tid Lwp Mtx Cv Head) (m : Mtx) : Option (World Tid Lwp Mtx Cv Head) :=
  (Mutex.rumpuserMutexTryenter (w.mtx m) (w.tls w.fib.currentThread)).map fun mtx =>
    { w with mtx := Function.update w.mtx m mtx }

/-- `none` is the failed assertion.  [SRC rumpfiber.c:205-214] -/
def rumpuserMutexExit (w : World Tid Lwp Mtx Cv Head) (m : Mtx) : Option (World Tid Lwp Mtx Cv Head) :=
  let mtx := w.mtx m
  if 0 < mtx.v then
    if mtx.v - 1 = 0 then
      some { wakeOne w (.lock (.mtx m)) with
        mtx := Function.update w.mtx m { mtx with v := mtx.v - 1, o := none } }
    else some { w with mtx := Function.update w.mtx m { mtx with v := mtx.v - 1 } }
  else none

/-! ### The condition waits -/

/-- From the release of the mutex to the call of `bmk_sched`.
    [SRC rumpfiber.c:394-395, 420-421, 431-432, 445-446] -/
def cvSleep (w : World Tid Lwp Mtx Cv Head) (c : Cv) (m : Mtx) (call : CvCall) (now : Nat) :
    Option (World Tid Lwp Mtx Cv Head) :=
  (rumpuserMutexExit w m).map fun w =>
    sleepOn w (.cv c) (.cvWait c m call :: w.frames.tail) now call.waitNsec

/-- The call of a condition wait.  [SRC rumpfiber.c:414-451] -/
def cvCall (w : World Tid Lwp Mtx Cv Head) (c : Cv) (m : Mtx) (call : CvCall) (now : Nat) :
    Option (World Tid Lwp Mtx Cv Head) :=
  let w :=
    { w.setFrames (.cvRelease c m call :: w.frames) with
      nwaiters := Function.update w.nwaiters c (w.nwaiters c + 1) }
  match call with
  | .cvWaitNowrap => cvSleep w c m call now
  | _ => some w

/-- The end of a condition wait. -/
def cvReturn (w : World Tid Lwp Mtx Cv Head) (c : Cv) : World Tid Lwp Mtx Cv Head :=
  { w.setFrames w.frames.tail with nwaiters := Function.update w.nwaiters c (w.nwaiters c - 1) }

/-- Behind `wait` in the three condition waits, with `cv_resched` for two of them.
    [SRC rumpfiber.c:399-412, 433-434, 447-448] -/
def cvWoken (w : World Tid Lwp Mtx Cv Head) (c : Cv) (m : Mtx) (call : CvCall) :
    Option (World Tid Lwp Mtx Cv Head) :=
  let w := endWait w (.cv c) (.cvSchedFirst c m :: w.frames.tail)
  match call with
  | .cvWaitNowrap => (tryenter w m).map fun w => cvReturn w c
  | _ =>
      if (w.mtx m).flags.kmutex ∧ (w.mtx m).flags.spin then some w
      else (tryenter w m).map fun w => w.setFrames (.cvSchedLast c :: w.frames.tail)

/-- The running thread goes on inside its innermost call. -/
def resume (w : World Tid Lwp Mtx Cv Head) (now : Nat) : Option (World Tid Lwp Mtx Cv Head) :=
  match w.frames with
  | [] => none
  | .wait l :: rest => some (endWait w (.lock l) rest)
  | .cvRelease c m call :: _ => cvSleep w c m call now
  | .cvWait c m call :: _ => cvWoken w c m call
  | .cvSchedFirst c m :: _ => (tryenter w m).map fun w => cvReturn w c
  | .cvSchedLast c :: _ => some (cvReturn w c)

/-! ### The machine -/

inductive Event (Tid Lwp Mtx Cv Head : Type*) where
  | wait (l : Lock Mtx Head) (nsec now : Nat)
  /-- `rumpuser_cv_signal` is this call on the wait head of a condition variable. -/
  | wakeupOne (wh : Wh Mtx Cv Head)
  /-- `rumpuser_cv_broadcast` likewise. -/
  | wakeupAll (wh : Wh Mtx Cv Head)
  | tryenter (m : Mtx)
  | enterNowrap (m : Mtx)
  | exit (m : Mtx)
  | cvCall (c : Cv) (m : Mtx) (call : CvCall) (now : Nat)
  /-- The running thread gets another `curlwp`. -/
  | curlwp (l : Option Lwp)
  | resume (now : Nat)
  | cpu (e : CpuEvent Tid)
deriving DecidableEq, Repr

/-- The running thread is not inside `wait` and may call anything. -/
def World.mayCall (w : World Tid Lwp Mtx Cv Head) : Bool :=
  !w.fib.scheduling && (w.site w.fib.currentThread).isNone

def enabled (w : World Tid Lwp Mtx Cv Head) : Event Tid Lwp Mtx Cv Head → Bool
  | .resume _ => !w.fib.scheduling
  | .cpu e => cpuAllowed w.fib (w.site w.fib.currentThread) e
  | _ => w.mayCall

def effect (w : World Tid Lwp Mtx Cv Head) : Event Tid Lwp Mtx Cv Head → Option (World Tid Lwp Mtx Cv Head)
  | .wait l nsec now => some (sleepOn w (.lock l) (.wait l :: w.frames) now nsec)
  | .wakeupOne wh => some (wakeOne w wh)
  | .wakeupAll wh => some (wakeAll w wh)
  | .tryenter m => some ((tryenter w m).getD w)
  | .enterNowrap m => tryenter w m
  | .exit m => rumpuserMutexExit w m
  | .cvCall c m call now => cvCall w c m call now
  | .curlwp l => some { w with tls := Function.update w.tls w.fib.currentThread l }
  | .resume now => resume w now
  | .cpu e => some { w with fib := cpuEffect w.fib e }

def step (w : World Tid Lwp Mtx Cv Head) (e : Event Tid Lwp Mtx Cv Head) :
    Option (World Tid Lwp Mtx Cv Head) :=
  if enabled w e then effect w e else none

theorem step_inv {w w' : World Tid Lwp Mtx Cv Head} {e : Event Tid Lwp Mtx Cv Head}
    (h : step w e = some w') :
    enabled w e = true ∧ effect w e = some w' := by
  unfold step at h
  split at h
  · rename_i henabled
    exact ⟨henabled, h⟩
  · cases h

end RumpBaremetal.Sleep
