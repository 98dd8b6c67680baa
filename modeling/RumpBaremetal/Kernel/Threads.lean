/-
Module: RumpBaremetal.Kernel.Threads
Layer: Kernel
Purpose: Thread control blocks of sched.c and the primitives that act on one of them: `bmk_sched_wake`,
  `bmk_sched_block`, `bmk_sched_setwakeup`, the test `is_runnable`, and the scan by which `bmk_sched`
  chooses the next thread.  Both the scheduler machine and the sleep queues of the hypercall layer are
  built on these.
Trusted boundary: human-reviewed spec
Main exports: Flags, Stack, BmkThread, Tcbs, isRunnable, bmkSchedWake, bmkSchedBlock, bmkSchedSetwakeup,
  scan
-/
import Mathlib.Tactic

namespace RumpBaremetal

/-- The bits of `bt_flags`.  [SRC sched.c:77-81] -/
structure Flags where
  runnable : Bool := false
  mustjoin : Bool := false
  joined : Bool := false
  extstack : Bool := false
  timedout : Bool := false
deriving DecidableEq, Repr

/-- A stack: one that `stackalloc` took from the heap, told apart by a serial number, or one that the
    creator of the thread supplied. -/
inductive Stack where
  | heap (serial : Nat)
  | external (base : Nat)
deriving DecidableEq, Repr

/-- The fields of `struct bmk_thread` that the scheduler's decisions read.  The name, the error number
    and the saved registers are left out; `bt_stackbase` is `none` for `NULL`, which only the static
    thread has.  [SRC sched.c:85-104] -/
structure BmkThread where
  flags : Flags := {}
  wakeupTime : Int := -1
  stackbase : Option Stack := none
deriving DecidableEq, Repr

/-- All control blocks, by thread. -/
abbrev Tcbs (Tid : Type*) := Tid → BmkThread

variable {Tid : Type*} [DecidableEq Tid]

/-- [SRC sched.c:119-124] -/
def isRunnable (tcb : Tcbs Tid) (thread : Tid) : Bool := (tcb thread).flags.runnable

/-- Change the flags of one thread. -/
def setFlags (tcb : Tcbs Tid) (thread : Tid) (f : Flags → Flags) : Tcbs Tid :=
  Function.update tcb thread { tcb thread with flags := f (tcb thread).flags }

/-- [SRC sched.c:126-131] -/
def setRunnable (tcb : Tcbs Tid) (thread : Tid) : Tcbs Tid :=
  setFlags tcb thread fun flags => { flags with runnable := true }

/-- [SRC sched.c:133-138] -/
def clearRunnable (tcb : Tcbs Tid) (thread : Tid) : Tcbs Tid :=
  setFlags tcb thread fun flags => { flags with runnable := false }

/-- [SRC sched.c:348-353] -/
def bmkSchedSetwakeup (tcb : Tcbs Tid) (thread : Tid) (abstime : Int) : Tcbs Tid :=
  Function.update tcb thread { tcb thread with wakeupTime := abstime }

/-- [SRC sched.c:355-361] -/
def bmkSchedWake (tcb : Tcbs Tid) (thread : Tid) : Tcbs Tid :=
  setRunnable (bmkSchedSetwakeup tcb thread (-1)) thread

/-- [SRC sched.c:363-369] -/
def bmkSchedBlock (tcb : Tcbs Tid) (thread : Tid) : Tcbs Tid :=
  clearRunnable (bmkSchedSetwakeup tcb thread (-1)) thread

/-- The body of the scan for one thread: a sleeper whose time has come is marked and woken.  The local
    `wakeup` is left out: the source compares it, uninitialised, only to update it, and nothing depends
    on the result.  [SRC sched.c:191-198] -/
def expire (tm : Int) (tcb : Tcbs Tid) (thread : Tid) : Tcbs Tid :=
  if !isRunnable tcb thread ∧ 0 ≤ (tcb thread).wakeupTime ∧ (tcb thread).wakeupTime ≤ tm then
    bmkSchedWake (setFlags tcb thread fun flags => { flags with timedout := true }) thread
  else tcb

/-- One pass over the thread list at clock value `tm`.  It stops at the first thread that is runnable
    or has just become so.  [SRC sched.c:188-206] -/
def scan (tm : Int) : Tcbs Tid → List Tid → Tcbs Tid × Option Tid
  | tcb, [] => (tcb, none)
  | tcb, thread :: rest =>
      let tcb := expire tm tcb thread
      if isRunnable tcb thread then (tcb, some thread) else scan tm tcb rest

/-! ### What the primitives change -/

@[simp] theorem setFlags_self (tcb : Tcbs Tid) (t : Tid) (f : Flags → Flags) :
    (setFlags tcb t f t).flags = f (tcb t).flags := by
  simp [setFlags]

theorem setFlags_of_ne (tcb : Tcbs Tid) {t u : Tid} (h : u ≠ t) (f : Flags → Flags) :
    setFlags tcb t f u = tcb u := by
  simp [setFlags, h]

@[simp] theorem isRunnable_wake_self (tcb : Tcbs Tid) (t : Tid) :
    isRunnable (bmkSchedWake tcb t) t = true := by
  simp [isRunnable, bmkSchedWake, setRunnable]

theorem bmkSchedWake_of_ne (tcb : Tcbs Tid) {t u : Tid} (h : u ≠ t) :
    bmkSchedWake tcb t u = tcb u := by
  simp [bmkSchedWake, setRunnable, bmkSchedSetwakeup, setFlags, h]

@[simp] theorem isRunnable_block_self (tcb : Tcbs Tid) (t : Tid) :
    isRunnable (bmkSchedBlock tcb t) t = false := by
  simp [isRunnable, bmkSchedBlock, clearRunnable]

theorem bmkSchedBlock_of_ne (tcb : Tcbs Tid) {t u : Tid} (h : u ≠ t) :
    bmkSchedBlock tcb t u = tcb u := by
  simp [bmkSchedBlock, clearRunnable, bmkSchedSetwakeup, setFlags, h]

theorem isRunnable_wake (tcb : Tcbs Tid) (t u : Tid) :
    isRunnable (bmkSchedWake tcb t) u = true ↔ u = t ∨ isRunnable tcb u = true := by
  by_cases h : u = t
  · subst h
    simp
  · simp [isRunnable, bmkSchedWake_of_ne tcb h, h]

theorem isRunnable_block (tcb : Tcbs Tid) (t u : Tid) :
    isRunnable (bmkSchedBlock tcb t) u = true ↔ u ≠ t ∧ isRunnable tcb u = true := by
  by_cases h : u = t
  · subst h
    simp
  · simp [isRunnable, bmkSchedBlock_of_ne tcb h, h]

/-- Two control blocks that agree on everything but the run state: the flag `RUNNABLE`, the note that
    a timeout caused it, and the wakeup time.  No primitive above changes anything else. -/
structure SameButRunState (b b' : BmkThread) : Prop where
  mustjoin : b'.flags.mustjoin = b.flags.mustjoin
  joined : b'.flags.joined = b.flags.joined
  extstack : b'.flags.extstack = b.flags.extstack
  stackbase : b'.stackbase = b.stackbase

namespace SameButRunState

theorem refl (b : BmkThread) : SameButRunState b b := ⟨rfl, rfl, rfl, rfl⟩

theorem trans {a b c : BmkThread} (ab : SameButRunState a b) (bc : SameButRunState b c) :
    SameButRunState a c :=
  ⟨bc.mustjoin.trans ab.mustjoin, bc.joined.trans ab.joined, bc.extstack.trans ab.extstack,
    bc.stackbase.trans ab.stackbase⟩

omit [DecidableEq Tid] in
theorem of_eq {tcb tcb' : Tcbs Tid} {u : Tid} (h : tcb' u = tcb u) :
    SameButRunState (tcb u) (tcb' u) := h ▸ refl _

theorem wake (tcb : Tcbs Tid) (t u : Tid) : SameButRunState (tcb u) (bmkSchedWake tcb t u) := by
  by_cases h : u = t
  · subst h
    constructor <;> simp [bmkSchedWake, setRunnable, setFlags, bmkSchedSetwakeup]
  · exact of_eq (bmkSchedWake_of_ne tcb h)

theorem block (tcb : Tcbs Tid) (t u : Tid) : SameButRunState (tcb u) (bmkSchedBlock tcb t u) := by
  by_cases h : u = t
  · subst h
    constructor <;> simp [bmkSchedBlock, clearRunnable, setFlags, bmkSchedSetwakeup]
  · exact of_eq (bmkSchedBlock_of_ne tcb h)

theorem setwakeup (tcb : Tcbs Tid) (t u : Tid) (abstime : Int) :
    SameButRunState (tcb u) (bmkSchedSetwakeup tcb t abstime u) := by
  by_cases h : u = t
  · subst h
    constructor <;> simp [bmkSchedSetwakeup]
  · exact of_eq (by simp [bmkSchedSetwakeup, h])

theorem clearRunnable (tcb : Tcbs Tid) (t u : Tid) :
    SameButRunState (tcb u) (RumpBaremetal.clearRunnable tcb t u) := by
  by_cases h : u = t
  · subst h
    constructor <;> simp [RumpBaremetal.clearRunnable, setFlags]
  · exact of_eq (setFlags_of_ne tcb h _)

theorem expire (tm : Int) (tcb : Tcbs Tid) (t u : Tid) :
    SameButRunState (tcb u) (RumpBaremetal.expire tm tcb t u) := by
  unfold RumpBaremetal.expire
  split
  · refine trans ?_ (wake _ t u)
    by_cases h : u = t
    · subst h
      constructor <;> simp [setFlags]
    · exact of_eq (setFlags_of_ne tcb h _)
  · exact refl _

end SameButRunState

/-! ### The scan -/

/-- A sleeper is only ever woken by the scan, never put to sleep. -/
theorem isRunnable_expire (tm : Int) (tcb : Tcbs Tid) (t u : Tid)
    (h : isRunnable tcb u = true) : isRunnable (expire tm tcb t) u = true := by
  unfold expire
  split
  · rw [isRunnable_wake]
    by_cases hu : u = t
    · exact Or.inl hu
    · refine Or.inr ?_
      rw [isRunnable, setFlags_of_ne tcb hu]
      exact h
  · exact h

/-- What one pass can do: it changes run states only, keeps every runnable thread runnable, and the
    thread it selects is on the list and runnable. -/
theorem scan_spec (tm : Int) (threads : List Tid) :
    ∀ (tcb tcb' : Tcbs Tid) (next : Option Tid), scan tm tcb threads = (tcb', next) →
      (∀ u, SameButRunState (tcb u) (tcb' u)) ∧
      (∀ u, isRunnable tcb u = true → isRunnable tcb' u = true) ∧
      (∀ t, next = some t → t ∈ threads ∧ isRunnable tcb' t = true) := by
  induction threads with
  | nil =>
      intro tcb tcb' next h
      simp only [scan, Prod.mk.injEq] at h
      obtain ⟨rfl, rfl⟩ := h
      exact ⟨fun _ => .refl _, fun _ hu => hu, fun t ht => absurd ht (by simp)⟩
  | cons thread rest ih =>
      intro tcb tcb' next h
      simp only [scan] at h
      split at h
      · rename_i hrun
        simp only [Prod.mk.injEq] at h
        obtain ⟨rfl, rfl⟩ := h
        refine ⟨fun u => .expire tm tcb thread u, fun u => isRunnable_expire tm tcb thread u, ?_⟩
        intro t ht
        obtain rfl : thread = t := Option.some.inj ht
        exact ⟨List.mem_cons_self, hrun⟩
      · obtain ⟨hsame, hkeep, hnext⟩ := ih _ _ _ h
        refine ⟨fun u => (SameButRunState.expire tm tcb thread u).trans (hsame u),
          fun u hu => hkeep u (isRunnable_expire tm tcb thread u hu), ?_⟩
        intro t ht
        exact ⟨List.mem_cons_of_mem _ (hnext t ht).1, (hnext t ht).2⟩

end RumpBaremetal
