/-
Module: RumpBaremetal.Proofs.NodeSleep
Layer: Proofs
Purpose: The calls of `wait` with interrupts between their statements are calls of `wait` in one piece.
  Every run of the machine with the interrupt thread is a run of the machine of all wait heads: a call is
  made there when it gets to `bmk_sched`, an interrupt that came before that wakes it behind it, and sched.c
  is the processor.  So the accounts of the sleep queues are in order whenever the interrupts come.
Trusted boundary: none (fully proved)
Main exports: Call.sleepsOn, Call.entering, Node.tally, SameRecords, Unmoved, Follows, Follows.step,
  node_run_sleeps, node_waits_account
-/
import RumpBaremetal.Proofs.Processor
import RumpBaremetal.Proofs.Sleep
import RumpBaremetal.Proofs.Timedwait

namespace RumpBaremetal

open StepSystem
open Sched (Tid)

/-! ### Wakeups and the processor -/

theorem SameRunState.wakes {tcb tcb' : Tcbs Tid} {u : Tid} (taken : List Tid)
    (h : SameRunState (tcb u) (tcb' u)) :
    SameRunState (taken.foldl bmkSchedWake tcb u) (taken.foldl bmkSchedWake tcb' u) := by
  induction taken generalizing tcb tcb' with
  | nil => exact h
  | cons t rest ih => exact ih (h.wake t)

section Processor

variable {Wh : Type*} {w : Sched.World} {s : Fibers Tid Wh}

theorem Outside.wakes (h : Outside w s) (taken : List Tid) (waithead : Wh → List Tid)
    (onlist : Tid → Bool) :
    Outside { w with tcb := taken.foldl bmkSchedWake w.tcb }
      { s with tcb := taken.foldl bmkSchedWake s.tcb, waithead := waithead, onlist := onlist } where
  running := h.running
  scheduling := h.scheduling
  awake := (isRunnable_foldl_wake taken s.tcb w.currentThread).mpr (.inr h.awake)
  others := fun t ht => (h.others t ht).wakes taken

/-- The first half of `wait` leaves the other threads alone. -/
theorem Outside.waits_others [DecidableEq Wh] (h : Outside w s) (wh : Wh) (now nsec : Nat) {t : Tid}
    (ht : t ≠ w.currentThread) : SameRunState (w.tcb t) ((waitBegin s wh now nsec).tcb t) := by
  simp only [waitBegin, h.running]
  split
  · rw [bmkSchedSetwakeup, Function.update_of_ne ht, bmkSchedBlock_of_ne _ ht]
    exact h.others t ht
  · rw [bmkSchedBlock_of_ne _ ht]
    exact h.others t ht

/-- The first half of `wait`, for a thread that nothing has woken since it blocked itself. -/
theorem Outside.waits [DecidableEq Wh] (h : Outside w s) (wh : Wh) {now nsec : Nat}
    (hasleep : isRunnable w.tcb w.currentThread = false)
    (htime : (w.tcb w.currentThread).wakeupTime = if nsec ≠ 0 then deadline now nsec else -1) :
    Inside (Sched.enterSched w .other) (waitBegin s wh now nsec) := by
  refine ⟨h.running, rfl, fun t => ?_⟩
  by_cases ht : t = w.currentThread
  · subst ht
    simp only [waitBegin, h.running, Sched.enterSched]
    refine ⟨?_, fun _ => ?_⟩
    · rw [show (w.tcb w.currentThread).flags.runnable = false from hasleep]
      split <;> simp [bmkSchedSetwakeup, bmkSchedBlock, clearRunnable]
    · rw [htime]
      split <;> simp [bmkSchedSetwakeup, bmkSchedBlock, clearRunnable, setFlags]
  · exact h.waits_others wh now nsec ht

/-- The same for a thread that an interrupt has woken since. -/
theorem Outside.waitsWoken [DecidableEq Wh] (h : Outside w s) (wh : Wh) (now nsec : Nat)
    (hawake : isRunnable w.tcb w.currentThread = true) :
    Inside (Sched.enterSched w .other) (cpuEffect (waitBegin s wh now nsec) (.wake w.currentThread)) := by
  refine ⟨h.running, rfl, fun t => ?_⟩
  simp only [cpuEffect]
  by_cases ht : t = w.currentThread
  · subst ht
    exact .of_runnable hawake (isRunnable_wake_self _ _)
  · rw [bmkSchedWake_of_ne _ ht]
    exact h.waits_others wh now nsec ht

end Processor

variable {Lwp Mtx Cv Wh Fun Arg : Type*}

/-- The events of the processor, among the calls. -/
theorem Sleep.run_cpu [DecidableEq Lwp] [DecidableEq Mtx] [DecidableEq Cv] [DecidableEq Wh]
    {es : List (CpuEvent Tid)} :
    ∀ {s : Sleep.World Tid Lwp Mtx Cv Wh} {fib : Fibers Tid (Sleep.Wh Mtx Cv Wh)},
      run (siteStep s.site) s.fib es = some fib →
      run Sleep.step s (es.map .cpu) = some { s with fib := fib } := by
  induction es with
  | nil =>
      intro s fib hrun
      cases hrun
      rfl
  | cons e rest ih =>
      intro s fib hrun
      obtain ⟨fib', hstep, hrest⟩ := run_cons_inv hrun
      unfold siteStep at hstep
      split at hstep
      · rename_i hallowed
        cases hstep
        have hcpu : Sleep.step s (.cpu e) = some { s with fib := cpuEffect s.fib e } := if_pos hallowed
        rw [List.map_cons, run, hcpu]
        exact ih (s := { s with fib := cpuEffect s.fib e }) hrest
      · cases hstep

/-! ### The calls of `wait` on both sides -/

/-- The wait head of a call of `wait` that has called `bmk_sched`. -/
def Call.sleepsOn : Option (Call Wh) → Option Wh
  | some (.wait wh _ .asleep _) => some wh
  | _ => none

/-- The wait head of one that has not. -/
def Call.entering : Option (Call Wh) → Option Wh
  | some (.wait _ _ .asleep _) => none
  | some (.wait wh _ _ _) => some wh
  | _ => none

def Node.entering (w : Node Wh Fun Arg) : Option Wh := Call.entering (w.call w.sched.currentThread)

/-- What is on record about the `n`-th call of `wait`. -/
def Node.tally (w : Node Wh Fun Arg) (n : Nat) : Sleep.Tally where
  dequeued := w.dequeued.countP fun d => d.2 = n
  withdrew := w.returned.countP fun r => r.serial = n ∧ r.timedOut = true
  returnedZero := w.returned.countP fun r => r.serial = n ∧ r.timedOut = false
  returnedEtimedout := w.returned.countP fun r => r.serial = n ∧ r.timedOut = true

/-- The running thread's record is queued. -/
def Sleep.World.queueUp [DecidableEq Mtx] [DecidableEq Cv] [DecidableEq Wh]
    (s : Sleep.World Tid Lwp Mtx Cv Wh) :
    Option Wh → Sleep.World Tid Lwp Mtx Cv Wh
  | none => s
  | some wh =>
      { s with
        fib := { s.fib with
          waithead := Function.update s.fib.waithead (.lock (.other wh))
            (s.fib.waithead (.lock (.other wh)) ++ [s.fib.currentThread])
          onlist := Function.update s.fib.onlist s.fib.currentThread true }
        serial := Function.update s.serial s.fib.currentThread s.calls
        calls := s.calls + 1 }

/-- The queues and the record of the calls. -/
structure SameRecords (w : Node Wh Fun Arg) (s : Sleep.World Tid Lwp Mtx Cv Wh) : Prop where
  waithead : ∀ wh, s.fib.waithead (.lock (.other wh)) = w.waithead wh
  onlist : s.fib.onlist = w.onlist
  serial : s.serial = w.serial
  calls : s.calls = w.calls
  tally : ∀ n, Sleep.tally s.log n = w.tally n

/-- Records that are taken off a queue are put down once each. -/
theorem tally_takenOff (log : List Sleep.Mark) (serial : Tid → Nat) (taken : List Tid) (n : Nat) :
    Sleep.tally (log ++ taken.map fun t => .dequeued (serial t)) n =
      { Sleep.tally log n with
        dequeued := (Sleep.tally log n).dequeued + taken.countP fun t => serial t = n } := by
  have hown : (taken.map fun t => Sleep.Mark.dequeued (serial t)).count (.dequeued n) =
      taken.countP fun t => serial t = n := by
    rw [List.count, List.countP_map]
    exact List.countP_congr fun t _ => by simp
  have hother : ∀ k : Sleep.Mark, (∀ m, Sleep.Mark.dequeued m ≠ k) →
      (taken.map fun t => Sleep.Mark.dequeued (serial t)).count k = 0 := by
    intro k hk
    refine List.count_eq_zero.mpr fun hmem => ?_
    obtain ⟨t, -, heq⟩ := List.mem_map.mp hmem
    exact hk _ heq
  simp [Sleep.tally, List.count_append, hown, hother]

theorem takeOff_tally [DecidableEq Wh] (w : Node Wh Fun Arg) (wh : Wh) (taken rest : List Tid) (n : Nat) :
    (w.takeOff wh taken rest).tally n =
      { w.tally n with dequeued := (w.tally n).dequeued + taken.countP fun t => w.serial t = n } := by
  simp only [Node.tally, Node.takeOff, List.countP_append, List.countP_map, Function.comp_def,
    Sleep.Tally.mk.injEq,
    and_true]
  exact Nat.add_comm _ _

/-- So is what a call returns. -/
theorem tally_returned {log : List Sleep.Mark} {w : Node Wh Fun Arg} {n : Nat}
    (h : Sleep.tally log n = w.tally n) (r : WaitReturn Wh) :
    Sleep.tally (log ++ Sleep.returnMarks r.serial r.timedOut) n =
    { w with returned := r :: w.returned }.tally n := by
  simp only [Sleep.tally, Node.tally, Sleep.Tally.mk.injEq] at h ⊢
  obtain ⟨hdequeued, hwithdrew, hzero, htimeout⟩ := h
  by_cases hserial : r.serial = n <;> cases htimedOut : r.timedOut <;>
    simp [List.count_append, Sleep.returnMarks, hserial, htimedOut, hdequeued, hwithdrew, hzero, htimeout]

/-- The calls of `wait` and what is on record about them are the same. -/
structure Unmoved (w w' : Node Wh Fun Arg) : Prop where
  sleepsOn : ∀ t, Call.sleepsOn (w'.call t) = Call.sleepsOn (w.call t)
  waithead : w'.waithead = w.waithead
  onlist : w'.onlist = w.onlist
  serial : w'.serial = w.serial
  calls : w'.calls = w.calls
  tally : w'.tally = w.tally
  entering : w'.entering = w.entering
  running : w.entering = none ∨ w'.sched.currentThread = w.sched.currentThread

theorem SameWaits.unmoved {w w' : Node Wh Fun Arg} (h : SameWaits w w')
    (hentering : w.entering = none ∧ w'.entering = none ∨ w'.sched.currentThread = w.sched.currentThread) :
    Unmoved w w' where
  sleepsOn := fun t => by rw [h.call]
  waithead := h.waithead
  onlist := h.onlist
  serial := h.serial
  calls := h.calls
  tally := by
    funext n
    rw [Node.tally, Node.tally, h.dequeued, h.returned]
  entering := by
    rcases hentering with ⟨hfrom, hto⟩ | hcurrent
    · rw [hfrom, hto]
    · rw [Node.entering, Node.entering, h.call, hcurrent]
  running := hentering.imp And.left id

/-- The running thread goes on inside a call, or makes one that is not `wait`. -/
theorem Unmoved.setCall (w : Node Wh Fun Arg) (v : Sched.World) (call : Option (Call Wh))
    (hcurrent : v.currentThread = w.sched.currentThread)
    (hsleeps : Call.sleepsOn call = Call.sleepsOn (w.call w.sched.currentThread))
    (hentering : Call.entering call = Call.entering (w.call w.sched.currentThread)) :
    Unmoved w ({ w with sched := v }.setCall w.sched.currentThread call) where
  sleepsOn := fun t => by
    by_cases ht : t = w.sched.currentThread
    · subst ht
      simp only [Node.setCall, Function.update_self, hsleeps]
    · simp only [Node.setCall, Function.update_of_ne ht]
  waithead := rfl
  onlist := rfl
  serial := rfl
  calls := rfl
  tally := rfl
  entering := by simp only [Node.entering, Node.setCall, hcurrent, Function.update_self, hentering]
  running := .inr hcurrent

/-- Nobody but the running thread is in front of `bmk_sched` in `wait`. -/
theorem ArmedInv.entering {w : Node Wh Fun Arg} (h : ArmedInv w) {t : Tid} {wh : Wh}
    (hentering : Call.entering (w.call t) = some wh) :
    t = w.sched.currentThread ∧ w.sched.frame t = .user := by
  cases hcall : w.call t with
  | none =>
      rw [hcall] at hentering
      cases hentering
  | some call =>
      rw [hcall] at hentering
      cases call with
      | nanosleep => cases hentering
      | wait wh' nsec stage now =>
          have hwait := h.waits t wh' nsec stage now hcall
          rcases hwait.frame with ⟨huser, -⟩ | ⟨rfl, -⟩
          · exact ⟨h.sched.1.alone t hwait.created huser, huser⟩
          · cases hentering

/-- While `bmk_sched` looks for a thread, nobody is. -/
theorem ArmedInv.entering_scheduling {w : Node Wh Fun Arg} (h : ArmedInv w)
    (hscheduling : w.sched.scheduling = true) (t : Tid) : Call.entering (w.call t) = none := by
  refine Option.eq_none_iff_forall_ne_some.mpr fun wh hentering => ?_
  obtain ⟨rfl, huser⟩ := h.entering hentering
  simp [Sched.World.scheduling, huser] at hscheduling

variable [DecidableEq Mtx] [DecidableEq Cv] [DecidableEq Wh]

/-- The state of all wait heads for a state of the machine with the interrupt thread. -/
structure Follows (w : Node Wh Fun Arg) (s : Sleep.World Tid Lwp Mtx Cv Wh) : Prop where
  covers : Covers w.sched s.fib
  stack : ∀ t, s.stack t = (Call.sleepsOn (w.call t)).toList.map fun wh => .wait (.other wh)
  records : SameRecords w (s.queueUp w.entering)

/-- What one machine does, the other follows. -/
def Followed [DecidableEq Lwp] (s : Sleep.World Tid Lwp Mtx Cv Wh) (w' : Node Wh Fun Arg) : Prop :=
  ∃ es s', run Sleep.step s es = some s' ∧ Follows w' s'

namespace Follows

variable [DecidableEq Lwp] {w w' : Node Wh Fun Arg} {s : Sleep.World Tid Lwp Mtx Cv Wh}
  {e : NodeEvent Wh Fun Arg} {stubs : Stubs}

omit [DecidableEq Lwp] in
theorem site (h : Follows w s) (t : Tid) :
    s.site t = (Call.sleepsOn (w.call t)).map fun wh => .lock (.other wh) := by
  rw [Sleep.World.site, h.stack]
  cases Call.sleepsOn (w.call t) <;> rfl

omit [DecidableEq Lwp] in
/-- A thread outside `wait`, or inside it and in front of `bmk_sched`, may do anything. -/
theorem site_running (h : Follows w s) (hcall : Call.sleepsOn (w.call w.sched.currentThread) = none) :
    s.site w.sched.currentThread = none := by
  rw [h.site, hcall]
  rfl

/-- Events that leave the calls of `wait` alone. -/
theorem aside (h : Follows w s) (hreach : CpuReaches s.site s.fib (Covers w'.sched))
    (hsame : Unmoved w w') :
    Followed s w' := by
  obtain ⟨es, fib, hrun, hcovers⟩ := hreach
  obtain ⟨hwaithead, honlist⟩ := siteStep_queues hrun
  refine ⟨_, _, Sleep.run_cpu hrun, hcovers, fun t => ?_, ?_⟩
  · rw [hsame.sleepsOn]
    exact h.stack t
  · have hrecords := h.records
    rw [hsame.entering]
    cases hentering : w.entering with
    | none =>
        rw [hentering] at hrecords
        refine ⟨fun wh => ?_, ?_, ?_, ?_, fun n => ?_⟩
        · rw [hsame.waithead, ← hrecords.waithead]
          exact congrFun hwaithead _
        · rw [hsame.onlist, ← hrecords.onlist]
          exact honlist
        · rw [hsame.serial, ← hrecords.serial]
          rfl
        · rw [hsame.calls, ← hrecords.calls]
          rfl
        · rw [hsame.tally, ← hrecords.tally]
          rfl
    | some wh =>
        have hcurrent : fib.currentThread = s.fib.currentThread := by
          rw [hcovers.running, h.covers.running]
          exact hsame.running.resolve_left (by simp [hentering])
        rw [hentering] at hrecords
        refine ⟨fun wh' => ?_, ?_, ?_, ?_, fun n => ?_⟩
        · rw [hsame.waithead, ← hrecords.waithead]
          simp only [Sleep.World.queueUp, hwaithead, hcurrent]
        · rw [hsame.onlist, ← hrecords.onlist]
          simp only [Sleep.World.queueUp, honlist, hcurrent]
        · rw [hsame.serial, ← hrecords.serial]
          simp only [Sleep.World.queueUp, hcurrent]
        · rw [hsame.calls, ← hrecords.calls]
          rfl
        · rw [hsame.tally, ← hrecords.tally]
          rfl

omit [DecidableEq Lwp] in
/-- A thread that is asleep in `wait` comes straight out of `bmk_sched`. -/
theorem comesBack (h : Follows w s) (hinv : ArmedInv w) (t prev : Tid) (caller : Sched.Caller)
    (hframe : w.sched.frame t = .sched prev caller) : caller = .other ∨ s.site t = none := by
  rw [h.site]
  cases hcall : w.call t with
  | none => exact .inr rfl
  | some call =>
      cases call with
      | nanosleep => exact .inr rfl
      | wait wh nsec stage now =>
          rcases (hinv.waits t wh nsec stage now hcall).frame with ⟨huser, -⟩ | ⟨-, prev', hother⟩
          · rw [huser] at hframe
            cases hframe
          · rw [hother] at hframe
            cases hframe
            exact .inl rfl

/-- Events of sched.c. -/
theorem sched (h : Follows w s) (hinv : ArmedInv w) {e : Sched.Event} (hown : ownCall w.sched e = true)
    (hstep : Sched.step w.sched e = some w'.sched)
    (hcall : fromOutside e = false → Call.sleepsOn (w.call w.sched.currentThread) = none)
    (hsame : Unmoved w w') :
    Followed s w' :=
  h.aside (covers_step h.covers hown hstep (fun he => h.site_running (hcall he)) (h.comesBack hinv)) hsame

/-! ### Wakeups -/

omit [DecidableEq Lwp] in
/-- The running thread takes records off a queue. -/
theorem takeOff (h : Follows w s) (hmay : w.mayCall = true) (wh : Wh) (taken rest : List Tid) :
    Follows (w.takeOff wh taken rest) { s with
      fib := { s.fib with
        waithead := Function.update s.fib.waithead (.lock (.other wh)) rest
        onlist := fun t => if t ∈ taken then false else s.fib.onlist t
        tcb := taken.foldl bmkSchedWake s.fib.tcb }
      log := s.log ++ taken.map fun t => .dequeued (s.serial t) } := by
  obtain ⟨huser, hcall⟩ := mayCall_inv hmay
  have hcalls : w.sched.calls = true := decide_eq_true huser
  have hentering : w.entering = none := by rw [Node.entering, hcall]; rfl
  have hentering' : (w.takeOff wh taken rest).entering = none := hentering
  have hrecords := h.records
  rw [hentering] at hrecords
  refine ⟨Outside.covers ((h.covers.outside hcalls).wakes taken _ _) (calls_scheduling hcalls), h.stack, ?_⟩
  rw [hentering']
  refine ⟨fun wh' => ?_, ?_, hrecords.serial, hrecords.calls, fun n => ?_⟩
  · by_cases hwh : wh' = wh
    · subst hwh
      simp only [Sleep.World.queueUp, Node.takeOff, Function.update_self]
    · simp only [Sleep.World.queueUp, Node.takeOff, Function.update_of_ne hwh]
      rw [Function.update_of_ne (by simpa using hwh)]
      exact hrecords.waithead wh'
  · simp only [Sleep.World.queueUp, Node.takeOff]
    rw [← hrecords.onlist]
    rfl
  · simp only [Sleep.World.queueUp]
    rw [tally_takenOff, takeOff_tally, ← hrecords.tally, ← hrecords.serial]
    rfl

/-! ### A call of `wait` -/

omit [DecidableEq Lwp] in
/-- A call is not seen before it gets to `bmk_sched`. -/
theorem enter (h : Follows w s) (hcall : w.call w.sched.currentThread = none) (wh : Wh) (nsec : UInt64) :
    Follows (waitEnter w wh nsec) s := by
  have hentering : w.entering = none := by rw [Node.entering, hcall]; rfl
  have hentering' : (waitEnter w wh nsec).entering = some wh := by
    simp [Node.entering, waitEnter, Node.setCall, Call.entering]
  have hrecords := h.records
  rw [hentering] at hrecords
  refine ⟨h.covers, fun t => ?_, ?_⟩
  · rw [h.stack]
    by_cases ht : t = w.sched.currentThread
    · subst ht
      simp [waitEnter, Node.setCall, hcall, Call.sleepsOn]
    · simp [waitEnter, Node.setCall, ht]
  · rw [hentering']
    refine ⟨fun wh' => ?_, ?_, ?_, ?_, hrecords.tally⟩
    · by_cases hwh : wh' = wh
      · subst hwh
        simp only [Sleep.World.queueUp, waitEnter, Function.update_self, h.covers.running]
        rw [← hrecords.waithead]
        rfl
      · simp only [Sleep.World.queueUp, waitEnter, Function.update_of_ne hwh]
        rw [Function.update_of_ne (by simpa using hwh)]
        exact hrecords.waithead wh'
    · simp only [Sleep.World.queueUp, waitEnter, h.covers.running]
      rw [← hrecords.onlist]
      rfl
    · simp only [Sleep.World.queueUp, waitEnter, h.covers.running]
      rw [← hrecords.serial, ← hrecords.calls]
      rfl
    · simp only [Sleep.World.queueUp, waitEnter]
      rw [← hrecords.calls]
      rfl

omit [DecidableEq Lwp] in
/-- The call of `bmk_sched` in `wait` is the call of `wait` on the other side. -/
theorem begun (h : Follows w s) (hcall : Call.sleepsOn (w.call w.sched.currentThread) = none) {wh : Wh}
    (hentering : w.entering = some wh) (nsec : UInt64) (now : Nat) {fib : Fibers Tid (Sleep.Wh Mtx Cv Wh)}
    {tcb : Tcbs Tid} (hfib : fib = { waitBegin s.fib (.lock (.other wh)) now nsec.toNat with tcb := tcb })
    (hcovers : Covers (Sched.effect w.sched .sched) fib) :
    Follows ((w.does .sched).setCall w.sched.currentThread (some (.wait wh nsec .asleep now)))
      { Sleep.sleepOn s (.lock (.other wh)) (.wait (.other wh) :: s.frames) now nsec.toNat with
        fib := fib } := by
  have hrecords := h.records
  rw [hentering] at hrecords
  have hframes : s.frames = [] := by
    rw [Sleep.World.frames, h.covers.running, h.stack, hcall]
    rfl
  refine ⟨hcovers, fun t => ?_, ?_⟩
  · simp only [Sleep.sleepOn, Sleep.World.setFrames, Node.setCall, Node.does, h.covers.running, hframes]
    by_cases ht : t = w.sched.currentThread
    · subst ht
      simp [Call.sleepsOn]
    · rw [Function.update_of_ne ht, Function.update_of_ne ht]
      exact h.stack t
  · have hentering' :
        ((w.does .sched).setCall w.sched.currentThread
          (some (.wait wh nsec .asleep now))).entering = none := by
      simp [Node.entering, Node.setCall, Node.does, Sched.effect, Sched.enterSched, Call.entering]
    rw [hentering']
    subst hfib
    exact ⟨hrecords.waithead, hrecords.onlist, hrecords.serial, hrecords.calls, hrecords.tally⟩

/-- The call of `bmk_sched` in `wait`.  An interrupt that has woken the thread before it is there an
    interrupt behind it. -/
theorem sleeps (h : Follows w s) (hinv : ArmedInv w) (hcalls : w.sched.calls = true) {wh : Wh}
    {nsec : UInt64} {now : Nat} (hcall : w.call w.sched.currentThread = some (.wait wh nsec .timed now)) :
    Followed s ((w.does .sched).setCall w.sched.currentThread (some (.wait wh nsec .asleep now))) := by
  have hwait := hinv.waits _ _ _ _ _ hcall
  have hout := h.covers.outside hcalls
  have hsleeps : Call.sleepsOn (w.call w.sched.currentThread) = none := by rw [hcall]; rfl
  have hentering : w.entering = some wh := by rw [Node.entering, hcall]; rfl
  have hmay : s.mayCall = true := by
    rw [Sleep.World.mayCall, hout.scheduling, hout.running, h.site_running hsleeps]
    rfl
  have hbegin : run Sleep.step s [.wait (.other wh) nsec.toNat now] =
      some (Sleep.sleepOn s (.lock (.other wh)) (.wait (.other wh) :: s.frames) now nsec.toNat) :=
        Sleep.run_one hmay rfl
  have hscheduling : (Sched.effect w.sched .sched).scheduling = true := enterSched_scheduling w.sched .other
  cases hrun : isRunnable w.sched.tcb w.sched.currentThread with
  | false =>
      have htime : (w.sched.tcb w.sched.currentThread).wakeupTime =
          if nsec.toNat ≠ 0 then deadline now nsec.toNat else -1 := by
        rw [hwait.armed (.inl rfl) hrun, sleepTime, ite_not]
        refine if_congr ?_ rfl rfl
        rw [← UInt64.toNat_inj]
        rfl
      have hin := hout.waits (.lock (.other wh)) hrun htime
      exact ⟨_, _, hbegin, h.begun hsleeps hentering nsec now rfl (hin.covers hscheduling)⟩
  | true =>
      have hin := hout.waitsWoken (.lock (.other wh)) now nsec.toNat hrun
      refine ⟨[.wait (.other wh) nsec.toNat now] ++ [.cpu (.wake w.sched.currentThread)], _, ?_,
        h.begun hsleeps hentering nsec now rfl (hin.covers hscheduling)⟩
      have hwake :
        ∀ r : Sleep.World Tid Lwp Mtx Cv Wh, run Sleep.step r [.cpu (.wake w.sched.currentThread)] =
          some { r with fib := cpuEffect r.fib (.wake w.sched.currentThread) } :=
            fun r => Sleep.run_one rfl rfl
      rw [run_append, hbegin]
      exact hwake _

/-- `wait` comes out of `bmk_sched` and returns. -/
theorem returns (h : Follows w s) (hcalls : w.sched.calls = true) {wh : Wh} {nsec : UInt64} {now : Nat}
    (hcall : w.call w.sched.currentThread = some (.wait wh nsec .asleep now)) :
    Followed s { (w.setFibers (waitEnd w.fibers wh)).setCall w.sched.currentThread none with
      returned := ⟨w.serial w.sched.currentThread, wh, nsec, now, waitTimedOut w.fibers, w.clock⟩ ::
        w.returned } := by
  have hout := h.covers.outside hcalls
  have hentering : w.entering = none := by rw [Node.entering, hcall]; rfl
  have hrecords := h.records
  rw [hentering] at hrecords
  have hframes : s.frames = [.wait (.other wh)] := by
    rw [Sleep.World.frames, hout.running, h.stack, hcall]
    rfl
  have hresume : run Sleep.step s [.resume w.clock] = some (Sleep.endWait s (.lock (.other wh)) []) := by
    refine Sleep.run_one ?_ ?_
    · rw [Sleep.enabled, hout.scheduling]
      rfl
    · rw [Sleep.effect, Sleep.resume, hframes]
  refine ⟨_, _, hresume, ?_, fun t => ?_, ?_⟩
  · refine Outside.covers ⟨?_, ?_, ?_, fun t ht => ?_⟩ (calls_scheduling hcalls)
    · exact (waitEnd_currentThread _ _).trans hout.running
    · exact (waitEnd_scheduling _ _).trans hout.scheduling
    · exact (waitEnd_tcb s.fib (.lock (.other wh))).symm ▸ hout.awake
    · simp only [Sleep.endWait, Node.setCall, Node.setFibers, waitEnd_tcb, Node.fibers]
      exact hout.others t ht
  · simp only [Sleep.endWait, Sleep.World.setFrames, Node.setCall, Node.setFibers, hout.running]
    by_cases ht : t = w.sched.currentThread
    · subst ht
      simp [Call.sleepsOn]
    · rw [Function.update_of_ne ht, Function.update_of_ne ht]
      exact h.stack t
  · have honlist : s.fib.onlist = w.onlist := hrecords.onlist
    have hentering' : { (w.setFibers (waitEnd w.fibers wh)).setCall w.sched.currentThread none with
        returned := ⟨w.serial w.sched.currentThread, wh, nsec, now, waitTimedOut w.fibers, w.clock⟩ ::
          w.returned
        }.entering = none := by
      simp [Node.entering, Node.setCall, Node.setFibers, Call.entering]
    rw [hentering']
    refine ⟨fun wh' => ?_, ?_, hrecords.serial, hrecords.calls, fun n => ?_⟩
    · have hqueue : ∀ wh, s.fib.waithead (.lock (.other wh)) = w.waithead wh := hrecords.waithead
      simp only [Sleep.World.queueUp, Sleep.endWait, Node.setCall, Node.setFibers, waitEnd_waithead,
        honlist, hqueue,
        hout.running, Sleep.Wh.lock.injEq, Sleep.Lock.other.injEq]
      rfl
    · exact (waitEnd_onlist _ _).trans (hrecords.onlist.trans (waitEnd_onlist w.fibers wh).symm)
    · have hserial : s.serial = w.serial := hrecords.serial
      simp only [Sleep.World.queueUp, Sleep.endWait, waitTimedOut, honlist, hserial, hout.running]
      exact tally_returned (hrecords.tally n)
        ⟨w.serial w.sched.currentThread, wh, nsec, now, w.onlist w.sched.currentThread, w.clock⟩

/-! ### Steps and runs -/

omit [DecidableEq Lwp] in
theorem mayCall (h : Follows w s) (hmay : w.mayCall = true) : s.mayCall = true := by
  obtain ⟨huser, hcall⟩ := mayCall_inv hmay
  have hout := h.covers.outside (decide_eq_true huser)
  rw [Sleep.World.mayCall, hout.scheduling, hout.running, h.site_running (by rw [hcall]; rfl)]
  rfl

omit [DecidableEq Lwp] in
/-- The queues are the same while the running thread may call. -/
theorem waithead (h : Follows w s) (hmay : w.mayCall = true) (wh : Wh) :
    s.fib.waithead (.lock (.other wh)) = w.waithead wh := by
  have hentering : w.entering = none := by
    rw [Node.entering, (mayCall_inv hmay).2]
    rfl
  have hrecords := h.records
  rw [hentering] at hrecords
  exact hrecords.waithead wh

theorem advance (h : Follows w s) (hinv : ArmedInv w) (hhalted : w.sched.halted = none)
    (henabled : nodeEnabled w .advance = true) : Followed s (RumpBaremetal.advance w) := by
  simp only [nodeEnabled, Bool.and_eq_true] at henabled
  have hcalls := henabled.1
  unfold RumpBaremetal.advance
  dsimp only
  split
  · rename_i wh nsec now hcall
    refine h.sched hinv (e := .block w.sched.currentThread) (decide_eq_true rfl) ?_
      (fun _ => by rw [hcall]; rfl) ?_
    · simp [Sched.step, hhalted, Sched.enabled, hcalls, Node.setCall, Node.does]
    · exact .setCall w _ _ rfl (by rw [hcall]; rfl) (by rw [hcall]; rfl)
  · rename_i wh nsec now hcall
    split
    · refine h.sched hinv (e := .setwakeup w.sched.currentThread (deadline w.clock nsec.toNat))
        (decide_eq_true rfl) ?_
        (fun _ => by rw [hcall]; rfl) ?_
      · simp [Sched.step, hhalted, Sched.enabled, hcalls, Node.setCall, Node.does]
      · exact .setCall w _ _ rfl (by rw [hcall]; rfl) (by rw [hcall]; rfl)
    · exact h.aside (.here h.covers) (.setCall w w.sched _ rfl (by rw [hcall]; rfl) (by rw [hcall]; rfl))
  · rename_i wh nsec now hcall
    exact h.sleeps hinv hcalls hcall
  · rename_i wh nsec now hcall
    exact h.returns hcalls hcall
  · rename_i hcall
    have hsite := h.site_running (by rw [hcall]; rfl)
    refine h.aside ?_ (.setCall w _ none rfl (by rw [hcall]; rfl) (by rw [hcall]; rfl))
    refine (h.covers.outside hcalls).enterSched hsite _ ?_ (fun t ht => ?_) .other
    · rfl
    · exact .clearRunnable w.sched.tcb ht
  · exact ⟨[], s, rfl, h⟩

/-- Every step of the machine with the interrupt thread is a run of the other one. -/
theorem step (h : Follows w s) (hinv : ArmedInv w) (hstep : nodeStep stubs w e = some w') :
    Followed s w' := by
  obtain ⟨hhalted, henabled, rfl⟩ := nodeStep_inv hstep
  have hdoes : ∀ {e : Sched.Event}, Sched.enabled w.sched e = true →
      Sched.step w.sched e = some (Sched.effect w.sched e) := fun he => if_pos ⟨by rw [hhalted]; rfl, he⟩
  cases e with
  | irq which =>
      exact h.sched hinv (e := .wake isrThread) rfl (hdoes rfl) (by simp [fromOutside])
        (SameWaits.unmoved ⟨rfl, rfl, rfl, rfl, rfl, rfl, rfl, rfl⟩ (.inr rfl))
  | tick cycles =>
      exact ⟨[], s, rfl, h.covers, h.stack, h.records.waithead, h.records.onlist, h.records.serial,
        h.records.calls,
        h.records.tally⟩
  | isr rv =>
      simp only [nodeEnabled, Bool.and_eq_true, beq_iff_eq, Option.isNone_iff_eq_none] at henabled
      obtain ⟨⟨hcurrent, hcalls⟩, hcall⟩ := henabled
      have hsleeps : Call.sleepsOn (w.call w.sched.currentThread) = none := by
        rw [hcurrent, hcall]
        rfl
      have hunmoved := fun hsame => (isrStep_sameWaits w rv).unmoved (.inr hsame)
      simp only [nodeEffect]
      rcases isrStep_sched w rv with heq | ⟨-, heq⟩ | ⟨-, heq⟩
      · exact h.aside (.here (heq ▸ h.covers)) (hunmoved (by rw [heq]))
      · exact h.sched hinv (e := .block isrThread) (decide_eq_true hcurrent.symm) (heq ▸ hdoes hcalls)
          (fun _ => hsleeps)
          (hunmoved (by rw [heq]; rfl))
      · exact h.sched hinv (e := .sched) rfl (heq ▸ hdoes hcalls) (fun _ => hsleeps)
          (hunmoved (by rw [heq]; rfl))
  | wait wh nsec => exact ⟨[], s, rfl, h.enter (mayCall_inv henabled).2 wh nsec⟩
  | advance => exact h.advance hinv hhalted henabled
  | wakeupOne wh =>
      have hfollows := h.takeOff henabled wh (w.waithead wh).head?.toList (w.waithead wh).tail
      rw [← wakeupOne_takeOff stubs, ← h.waithead henabled] at hfollows
      refine ⟨[.wakeupOne (.lock (.other wh))], _, Sleep.run_one (h.mayCall henabled) ?_, hfollows⟩
      simp [Sleep.effect, Sleep.wakeOne, wakeupOne_eq, Option.toList_map]
  | wakeupAll wh =>
      have hfollows := h.takeOff henabled wh (w.waithead wh) []
      rw [← wakeupAll_takeOff stubs, ← h.waithead henabled] at hfollows
      refine ⟨[.wakeupAll (.lock (.other wh))], _, Sleep.run_one (h.mayCall henabled) ?_, hfollows⟩
      rw [Sleep.effect, Sleep.wakeAll_eq, wakeupAll_eq]
  | nanosleep nsec =>
      obtain ⟨huser, hcall⟩ := mayCall_inv henabled
      refine h.sched hinv (e := .setwakeup w.sched.currentThread ((w.clock + nsec).bmod (2 ^ 64)))
        (decide_eq_true rfl)
        (hdoes (decide_eq_true huser)) (fun _ => by rw [hcall]; rfl) ?_
      exact .setCall w _ _ rfl (by rw [hcall]; rfl) (by rw [hcall]; rfl)
  | thread e =>
      simp only [nodeEnabled, Bool.and_eq_true] at henabled
      obtain ⟨huser, hcall⟩ := mayCall_inv henabled.1
      have hcurrent := (hinv.sched.1.toJoinless.call_frame henabled.2).1
      have hunmoved : Unmoved w (w.does e) :=
        SameWaits.unmoved ⟨rfl, rfl, rfl, rfl, rfl, rfl, rfl, rfl⟩ (.inr hcurrent)
      have hown : ownCall w.sched e = true ∧ Sched.enabled w.sched e = true := by
        cases e <;> first | exact ⟨rfl, decide_eq_true huser⟩ | simp [threadCall] at henabled
      exact h.sched hinv hown.1 (hdoes hown.2) (fun _ => by rw [hcall]; rfl) hunmoved
  | netinit func arg intr found =>
      have hsame : SameWaits w (nodeEffect stubs w (.netinit func arg intr found)) ∧
          (nodeEffect stubs w (.netinit func arg intr found)).sched = w.sched := by
        simp only [nodeEffect]
        split <;> exact ⟨⟨rfl, rfl, rfl, rfl, rfl, rfl, rfl, rfl⟩, rfl⟩
      exact h.aside (.here (hsame.2 ▸ h.covers)) (hsame.1.unmoved (.inr (by rw [hsame.2])))
  | pass =>
      have hnone := hinv.entering_scheduling henabled
      refine h.sched hinv (e := .pass (bmkClockNow w.clock)) rfl (hdoes henabled) (by simp [fromOutside]) ?_
      exact SameWaits.unmoved ⟨rfl, rfl, rfl, rfl, rfl, rfl, rfl, rfl⟩ (.inl ⟨hnone _, hnone _⟩)

omit [DecidableEq Lwp] in
theorem tally (h : Follows w s) (n : Nat) : Sleep.tally s.log n = w.tally n := by
  rw [← h.records.tally]
  cases w.entering <;> rfl

omit [DecidableEq Lwp] in
/-- A call in progress has the same number on both sides. -/
theorem serial (h : Follows w s) {t : Tid} (hsite : (s.site t).isSome) :
    s.serial t = w.serial t ∧ ∃ wh nsec now, w.call t = some (.wait wh nsec .asleep now) := by
  rw [h.site, Option.isSome_map] at hsite
  obtain ⟨wh, nsec, now, hcall⟩ : ∃ wh nsec now, w.call t = some (.wait wh nsec .asleep now) := by
    unfold Call.sleepsOn at hsite
    split at hsite
    · rename_i wh nsec now hcall
      exact ⟨wh, nsec, now, hcall⟩
    · cases hsite
  refine ⟨?_, wh, nsec, now, hcall⟩
  have hrecords := congrFun h.records.serial t
  cases hentering : w.entering with
  | none =>
      rw [hentering] at hrecords
      exact hrecords
  | some wh' =>
      have hne : t ≠ s.fib.currentThread := by
        rintro rfl
        rw [Node.entering, ← h.covers.running, hcall] at hentering
        cases hentering
      rw [hentering] at hrecords
      simpa only [Sleep.World.queueUp, Function.update_of_ne hne] using hrecords

omit [DecidableEq Lwp] in
/-- A call that is over has been made on both sides. -/
theorem calls (h : Follows w s) {n : Nat} (hn : n < w.calls)
    (hover : ∀ t wh nsec stage now, w.call t = some (.wait wh nsec stage now) → w.serial t ≠ n) :
    n < s.calls := by
  have hcalls := h.records.calls
  have hserial := congrFun h.records.serial w.sched.currentThread
  cases hentering : w.entering with
  | none =>
      rw [hentering] at hcalls
      exact hcalls ▸ hn
  | some wh =>
      rw [hentering] at hcalls hserial
      obtain ⟨nsec, stage, now, hcall⟩ :
          ∃ nsec stage now, w.call w.sched.currentThread = some (.wait wh nsec stage now) := by
        unfold Node.entering Call.entering at hentering
        split at hentering
        · cases hentering
        · rename_i hcall
          cases hentering
          exact ⟨_, _, _, hcall⟩
        · cases hentering
      have hown := hover _ _ _ _ _ hcall
      simp only [Sleep.World.queueUp, ← h.covers.running, Function.update_self] at hserial
      simp only [Sleep.World.queueUp] at hcalls
      rw [← h.covers.running] at hown
      omega

end Follows

section Runs

variable [DecidableEq Lwp] {stubs : Stubs} {w : Node Wh Fun Arg} {intr : IntrWorld Fun Arg} {clock : Nat}
  {events : List (NodeEvent Wh Fun Arg)}

omit [DecidableEq Lwp] in
theorem follows_start (flags : Mtx → Mutex.MtxFlags) (tls : Tid → Option Lwp) (intr : IntrWorld Fun Arg)
    (clock : Nat) :
    Follows (Node.start intr clock : Node Wh Fun Arg)
      (.start flags tls (Node.start intr clock : Node Wh Fun Arg).sched.tcb 0 :
        Sleep.World Tid Lwp Mtx Cv Wh) := by
  have hrunning : (Node.start intr clock : Node Wh Fun Arg).sched.currentThread = 0 := rfl
  refine ⟨Outside.covers ⟨rfl, rfl, ?_, fun t ht => ?_⟩ rfl, fun _ => rfl, ?_⟩
  · rw [hrunning]
    simp [Sleep.World.start, isRunnable, setRunnable]
  · rw [hrunning] at ht
    simp only [Sleep.World.start, setRunnable, setFlags_of_ne _ ht]
    exact .refl _
  · exact ⟨fun _ => rfl, rfl, rfl, rfl, fun _ => rfl⟩

/-- Every run of the machine with the interrupt thread is a run of the machine of all wait heads. -/
theorem node_run_sleeps (Cv : Type*) [DecidableEq Cv] (flags : Mtx → Mutex.MtxFlags)
    (tls : Tid → Option Lwp) (hrun : run (nodeStep stubs) (Node.start intr clock) events = some w) :
    ∃ (es : List (Sleep.Event Tid Lwp Mtx Cv Wh)) (s : Sleep.World Tid Lwp Mtx Cv Wh),
      run Sleep.step (.start flags tls (Node.start intr clock : Node Wh Fun Arg).sched.tcb 0) es = some s ∧
        Follows w s := by
  have hfollow : ∀ (v : Node Wh Fun Arg) (e : NodeEvent Wh Fun Arg) (v' : Node Wh Fun Arg)
      (s : Sleep.World Tid Lwp Mtx Cv Wh), ArmedInv v ∧ Follows v s → nodeStep stubs v e = some v' → True →
      ∃ es s', run Sleep.step s es = some s' ∧ ArmedInv v' ∧ Follows v' s' := by
    intro v e v' s h hstep _
    obtain ⟨es, s', hrun, hfollows⟩ := h.2.step h.1 hstep
    exact ⟨es, s', hrun, h.1.step hstep, hfollows⟩
  obtain ⟨es, s, hsleep, -, hfollows⟩ := run_follows (fun _ _ _ _ _ => trivial) hfollow
    ⟨ArmedInv.start intr clock, follows_start flags tls intr clock⟩ hrun trivial
  exact ⟨es, s, hsleep, hfollows⟩

/-- Whenever the interrupts come: every call of `wait` that is over was dequeued once and returned 0, or was
    never dequeued and returned `ETIMEDOUT`. -/
theorem node_waits_account (hrun : run (nodeStep stubs) (Node.start intr clock) events = some w) {n : Nat}
    (hn : n < w.calls)
    (hover : ∀ t wh nsec stage now, w.call t = some (.wait wh nsec stage now) → w.serial t ≠ n) :
    w.tally n = ⟨1, 0, 1, 0⟩ ∨ w.tally n = ⟨0, 1, 0, 1⟩ := by
  obtain ⟨es, s, hsleep, hfollows⟩ :=
    node_run_sleeps Unit (fun _ : Unit => ⟨false, false⟩) (fun _ => some ()) hrun
  have hinv : Sleep.Inv s :=
    run_invariant (fun _ _ _ h hstep => Sleep.inv_step h hstep) (Sleep.Inv.init _ _ _ _) hsleep
  rw [← hfollows.tally]
  refine hinv.accounts.finished n (hfollows.calls hn hover) fun t hsite => ?_
  obtain ⟨hserial, wh, nsec, now, hcall⟩ := hfollows.serial hsite
  rw [hserial]
  exact hover t wh nsec .asleep now hcall

end Runs

end RumpBaremetal
