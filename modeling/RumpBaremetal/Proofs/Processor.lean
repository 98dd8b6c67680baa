/-
Module: RumpBaremetal.Proofs.Processor
Layer: Proofs
Purpose: The processor that the hypercalls run on covers the scheduler of sched.c.  A run of sched.c in
  which threads block no one but themselves is a run of the processor: going to sleep is one event there, at
  the call of `bmk_sched`, and until then a thread that has blocked itself counts as running.  A thread that
  is inside `wait` runs nothing else, so the events in between can be told which threads these are.
Trusted boundary: none (fully proved)
Main exports: SameRunState, siteStep, siteStep_queues, Outside, Inside, Covers, CpuReaches,
  Inside.pass_dispatches, ownCall, covers_step, ownStep, sched_run_processor
-/
import RumpBaremetal.Proofs.RoundRobin
import RumpBaremetal.Proofs.Wait

namespace RumpBaremetal

open StepSystem
open Sched (Tid World Event Caller)

/-! ### What a selection reads of a control block -/

/-- The wakeup time of a runnable thread plays no part. -/
structure SameRunState (b b' : BmkThread) : Prop where
  runnable : b'.flags.runnable = b.flags.runnable
  wakeupTime : b.flags.runnable = false → b'.wakeupTime = b.wakeupTime

namespace SameRunState

variable {b b' : BmkThread} {tcb tcb' : Tcbs Tid} {u : Tid}

theorem refl (b : BmkThread) : SameRunState b b := ⟨rfl, fun _ => rfl⟩

theorem of_eq (h : b' = b) : SameRunState b b' := h ▸ refl b

theorem of_runnable (h : b.flags.runnable = true) (h' : b'.flags.runnable = true) : SameRunState b b' :=
  ⟨h'.trans h.symm, fun hnot => absurd (h.symm.trans hnot) (by decide)⟩

theorem trans {b'' : BmkThread} (h : SameRunState b b') (h' : SameRunState b' b'') : SameRunState b b'' :=
  ⟨h'.runnable.trans h.runnable,
    fun hnot => (h'.wakeupTime (h.runnable.trans hnot)).trans (h.wakeupTime hnot)⟩

theorem symm (h : SameRunState b b') : SameRunState b' b :=
  ⟨h.runnable.symm, fun hnot => (h.wakeupTime (h.runnable.symm.trans hnot)).symm⟩

theorem wake (h : SameRunState (tcb u) (tcb' u)) (t : Tid) :
    SameRunState (bmkSchedWake tcb t u) (bmkSchedWake tcb' t u) := by
  by_cases hu : u = t
  · subst hu
    exact of_runnable (isRunnable_wake_self tcb u) (isRunnable_wake_self tcb' u)
  · rw [bmkSchedWake_of_ne tcb hu, bmkSchedWake_of_ne tcb' hu]
    exact h

theorem eligible {t : Tid} (h : SameRunState (tcb t) (tcb' t)) (tm : Int) :
    RumpBaremetal.eligible tm tcb' t = RumpBaremetal.eligible tm tcb t := by
  unfold RumpBaremetal.eligible isRunnable
  rw [h.runnable]
  cases hrun : (tcb t).flags.runnable with
  | true => rfl
  | false => rw [h.wakeupTime hrun]

theorem clearRunnable (tcb : Tcbs Tid) {t u : Tid} (hu : u ≠ t) :
    SameRunState (tcb u) (RumpBaremetal.clearRunnable tcb t u) :=
  of_eq (setFlags_of_ne tcb hu _)

/-- Flags that the scheduler does not read. -/
theorem setFlags (w : World) (t u : Tid) {f : Flags → Flags}
    (hf : ∀ flags, (f flags).runnable = flags.runnable) :
    SameRunState (w.tcb u) ((w.setFlags t f).tcb u) := by
  rw [World.setFlags]
  by_cases hu : u = t
  · subst hu
    exact ⟨by rw [setFlags_self, hf], fun _ => by simp [RumpBaremetal.setFlags]⟩
  · exact of_eq (setFlags_of_ne w.tcb hu f)

end SameRunState

/-! ### The processor, with some threads inside `wait` -/

section Sites

variable {Wh : Type*} {site : Tid → Option Wh} {s s' : Fibers Tid Wh}

/-- A step of the processor; a thread that is inside `wait` neither sleeps nor yields anywhere else. -/
def siteStep (site : Tid → Option Wh) (s : Fibers Tid Wh) (e : CpuEvent Tid) : Option (Fibers Tid Wh) :=
  if cpuAllowed s (site s.currentThread) e then some (cpuEffect s e) else none

theorem siteStep_none :
    siteStep (fun _ => none) = (cpuStep : Fibers Tid Wh → CpuEvent Tid → Option (Fibers Tid Wh)) := by
  funext s e
  have hsame : cpuAllowed s none e = cpuEnabled s e := by cases e <;> simp [cpuAllowed]
  rw [siteStep, cpuStep, hsame]

/-- The processor leaves the wait heads alone. -/
theorem siteStep_queues {es : List (CpuEvent Tid)} (hrun : run (siteStep site) s es = some s') :
    s'.waithead = s.waithead ∧ s'.onlist = s.onlist := by
  refine run_invariant (I := fun v : Fibers Tid Wh => v.waithead = s.waithead ∧ v.onlist = s.onlist) ?_
    ⟨rfl, rfl⟩ hrun
  intro v e v' hv hstep
  unfold siteStep at hstep
  split at hstep
  · cases hstep
    cases e <;> exact hv
  · cases hstep

end Sites

/-! ### The scheduler and the processor -/

variable {Wh : Type*} {site : Tid → Option Wh} {w w' : World} {s s' : Fibers Tid Wh}

/-- The running thread is outside `bmk_sched`, or is coming out of it.  It may have blocked itself
    already. -/
structure Outside (w : World) (s : Fibers Tid Wh) : Prop where
  running : s.currentThread = w.currentThread
  scheduling : s.scheduling = false
  awake : isRunnable s.tcb w.currentThread = true
  others : ∀ t, t ≠ w.currentThread → SameRunState (w.tcb t) (s.tcb t)

/-- The running thread is inside `bmk_sched`. -/
structure Inside (w : World) (s : Fibers Tid Wh) : Prop where
  running : s.currentThread = w.currentThread
  scheduling : s.scheduling = true
  threads : ∀ t, SameRunState (w.tcb t) (s.tcb t)

/-- The state of the processor for a state of the scheduler. -/
def Covers (w : World) (s : Fibers Tid Wh) : Prop := if w.scheduling then Inside w s else Outside w s

/-- The processor gets to where the scheduler is. -/
def CpuReaches (site : Tid → Option Wh) (s : Fibers Tid Wh) (P : Fibers Tid Wh → Prop) : Prop :=
  ∃ es s', run (siteStep site) s es = some s' ∧ P s'

theorem CpuReaches.here {P : Fibers Tid Wh → Prop} (h : P s) : CpuReaches site s P := ⟨[], s, rfl, h⟩

theorem CpuReaches.step {P : Fibers Tid Wh → Prop} {e : CpuEvent Tid} (hstep : siteStep site s e = some s')
    (h : CpuReaches site s' P) : CpuReaches site s P := by
  obtain ⟨es, s'', hrun, hP⟩ := h
  refine ⟨e :: es, s'', ?_, hP⟩
  rw [run, hstep]
  exact hrun

theorem calls_scheduling (hcalls : w.calls = true) : w.scheduling = false := by
  have huser : w.frame w.currentThread = .user := of_decide_eq_true hcalls
  simp [World.scheduling, huser]

theorem Covers.outside (h : Covers w s) (hcalls : w.calls = true) : Outside w s := by
  rwa [Covers, if_neg (by simp [calls_scheduling hcalls])] at h

theorem Covers.running (h : Covers w s) : s.currentThread = w.currentThread := by
  unfold Covers at h
  split at h
  · exact h.running
  · exact h.running

theorem Covers.inside (h : Covers w s) (hscheduling : w.scheduling = true) : Inside w s := by
  rwa [Covers, if_pos hscheduling] at h

/-- The processor of a run that starts with the control blocks of a state. -/
theorem covers_start (w : World) (hcalls : w.calls = true)
    (hrun : isRunnable w.tcb w.currentThread = true) (waithead : Wh → List Tid) (onlist : Tid → Bool) :
    Covers w ⟨w.currentThread, false, w.tcb, waithead, onlist⟩ := by
  rw [Covers, if_neg (by simp [calls_scheduling hcalls])]
  exact ⟨rfl, rfl, hrun, fun t _ => .refl _⟩

namespace Outside

theorem covers (h : Outside w s) (hout : w.scheduling = false) : Covers w s := by
  rw [Covers, if_neg (by simp [hout])]
  exact h

/-- What the running thread does to its own control block is seen only when it calls `bmk_sched`. -/
theorem congr (h : Outside w s) (hcurrent : w'.currentThread = w.currentThread)
    (hothers : ∀ t, t ≠ w.currentThread → SameRunState (w.tcb t) (w'.tcb t)) : Outside w' s where
  running := h.running.trans hcurrent.symm
  scheduling := h.scheduling
  awake := hcurrent ▸ h.awake
  others := fun t ht => (hothers t (hcurrent ▸ ht)).symm.trans (h.others t (hcurrent ▸ ht))

theorem wake (h : Outside w s) (site : Tid → Option Wh) (t : Tid) :
    ∃ s', siteStep site s (.wake t) = some s' ∧ Outside { w with tcb := bmkSchedWake w.tcb t } s' :=
  ⟨_, rfl, h.running, h.scheduling, (isRunnable_wake _ _ _).mpr (.inr h.awake),
    fun u hu => (h.others u hu).wake t⟩

/-- The running thread calls `bmk_sched`.  What it has done to its run state shows now. -/
theorem enters (h : Outside w s) (hsite : site w.currentThread = none) (w' : World)
    (hcurrent : w'.currentThread = w.currentThread)
    (hothers : ∀ t, t ≠ w.currentThread → SameRunState (w.tcb t) (w'.tcb t)) :
    ∃ e s', siteStep site s e = some s' ∧ Inside w' s' := by
  have hfree : ∀ e, cpuEnabled s e = true → siteStep site s e = some (cpuEffect s e) := by
    intro e henabled
    rw [siteStep, h.running, hsite, if_pos]
    cases e <;> simp [cpuAllowed, henabled]
  have hcalls : (!s.scheduling) = true := by simp [h.scheduling]
  have hshow : ∀ t, t ≠ w.currentThread → SameRunState (w'.tcb t) (s.tcb t) := fun t ht =>
    (hothers t ht).symm.trans (h.others t ht)
  cases hrun : (w'.tcb w.currentThread).flags.runnable with
  | true =>
      refine ⟨.yield, _, hfree _ hcalls, h.running.trans hcurrent.symm, rfl, fun t => ?_⟩
      by_cases ht : t = w.currentThread
      · subst ht
        exact .of_runnable hrun h.awake
      · exact hshow t ht
  | false =>
      refine ⟨.sleep (w'.tcb w.currentThread).wakeupTime, _, hfree _ hcalls, h.running.trans hcurrent.symm,
        rfl,
        fun t => ?_⟩
      simp only [cpuEffect, h.running]
      by_cases ht : t = w.currentThread
      · subst ht
        refine ⟨?_, fun _ => ?_⟩
        · rw [hrun]
          simp [bmkSchedSetwakeup, bmkSchedBlock, clearRunnable]
        · simp [bmkSchedSetwakeup]
      · have hsame : bmkSchedSetwakeup (bmkSchedBlock s.tcb w.currentThread) w.currentThread
            (w'.tcb w.currentThread).wakeupTime t = s.tcb t := by
          rw [bmkSchedSetwakeup, Function.update_of_ne ht, bmkSchedBlock_of_ne _ ht]
        rw [hsame]
        exact hshow t ht

end Outside

namespace Inside

theorem covers (h : Inside w s) (hin : w.scheduling = true) : Covers w s := by
  rw [Covers, if_pos hin]
  exact h

theorem wake (h : Inside w s) (site : Tid → Option Wh) (t : Tid) :
    ∃ s', siteStep site s (.wake t) = some s' ∧ Inside { w with tcb := bmkSchedWake w.tcb t } s' :=
  ⟨_, rfl, h.running, h.scheduling, fun u => (h.threads u).wake t⟩

/-- A selection that `bmk_sched` makes: the thread is looked at and dispatched. -/
theorem pass_dispatches (h : Inside w s) (site : Tid → Option Wh) {tm : Int} {next : Tid}
    (hselected : w.threads.find? (eligible tm w.tcb) = some next) (threads : List Tid) :
    CpuReaches site s (Outside { w with
      tcb := expire tm w.tcb next
      threads := threads
      currentThread := next }) := by
  have helig : eligible tm w.tcb next = true := List.find?_some hselected
  have hrun : isRunnable (expire tm s.tcb next) next = true := by
    rw [isRunnable_expire_self, (h.threads next).eligible]
    exact helig
  refine .step (e := .expire tm next) (if_pos h.scheduling)
    (.step (e := .dispatch next) (if_pos ?_) (.here ?_))
  · simp [cpuAllowed, cpuEnabled, cpuEffect, h.scheduling, hrun]
  · refine ⟨rfl, rfl, hrun, fun t ht => ?_⟩
    simp only [cpuEffect, expire_of_ne tm _ (show t ≠ next from ht)]
    exact h.threads t

end Inside

/-! ### The calls into sched.c -/

theorem wake_covers (h : Covers w s) (t : Tid) :
    CpuReaches site s (Covers { w with tcb := bmkSchedWake w.tcb t }) := by
  unfold Covers at h
  split at h
  · rename_i hin
    obtain ⟨s', hstep, hs'⟩ := h.wake site t
    exact .step hstep (.here (hs'.covers hin))
  · rename_i hout
    obtain ⟨s', hstep, hs'⟩ := h.wake site t
    exact .step hstep (.here (hs'.covers (Bool.not_eq_true _ ▸ hout)))

theorem enterSched_scheduling (w : World) (caller : Caller) :
    (Sched.enterSched w caller).scheduling = true := by
  simp [World.scheduling, Sched.enterSched]

/-- A new thread is runnable, whatever its control block was before. -/
theorem Outside.create (h : Outside w s) (hcalls : w.calls = true) (thread : Tid) (b : BmkThread) :
    CpuReaches site s (Covers { w with
      tcb := setRunnable (Function.update w.tcb thread b) thread
      threads := thread :: w.threads
      frame := Function.update w.frame thread .fresh
      created := w.created + 1 }) := by
  have huser : w.frame w.currentThread = .user := of_decide_eq_true hcalls
  refine .step (e := .wake thread) rfl
    (.here (Outside.covers ⟨h.running, h.scheduling, ?_, fun t ht => ?_⟩ ?_))
  · exact (isRunnable_wake _ _ _).mpr (.inr h.awake)
  · by_cases hnew : t = thread
    · subst hnew
      exact .of_runnable (by simp [setRunnable]) (isRunnable_wake_self s.tcb t)
    · simp only [cpuEffect, bmkSchedWake_of_ne s.tcb hnew, setRunnable, setFlags_of_ne _ hnew,
        Function.update_of_ne hnew]
      exact h.others t ht
  · by_cases hown : w.currentThread = thread
    · simp [World.scheduling, hown]
    · simp [World.scheduling, Function.update_of_ne hown, huser]

/-- `bmk_sched_create`. -/
theorem create_covers (h : Covers w s) (hcalls : w.calls = true) (thrflags : Int) (stackBase : Option Nat)
    (stackSize : Nat) :
    CpuReaches site s (Covers (Sched.bmkSchedCreate w thrflags stackBase stackSize)) := by
  have hout := h.outside hcalls
  unfold Sched.bmkSchedCreate
  cases stackBase with
  | none =>
      dsimp only
      split
      · exact .here (Outside.covers (hout.congr rfl fun t _ => .refl _) (calls_scheduling hcalls))
      · exact hout.create hcalls _ _
  | some base => exact hout.create hcalls _ _

/-- The running thread calls `bmk_sched` from inside sched.c. -/
theorem Outside.enterSched (h : Outside w s) (hsite : site w.currentThread = none) (w' : World)
    (hcurrent : w'.currentThread = w.currentThread)
    (hothers : ∀ t, t ≠ w.currentThread → SameRunState (w.tcb t) (w'.tcb t)) (caller : Caller) :
    CpuReaches site s (Covers (Sched.enterSched w' caller)) := by
  obtain ⟨e, s', hstep, hin⟩ := h.enters hsite (Sched.enterSched w' caller) hcurrent hothers
  exact .step hstep (.here (hin.covers (enterSched_scheduling w' caller)))

/-- `bmk_sched_exit`, from the test of its gate. -/
theorem Outside.exitLoop (h : Outside w s) (hsite : site w.currentThread = none) :
    CpuReaches site s (Covers (Sched.exitLoop w)) := by
  unfold Sched.exitLoop
  dsimp only
  split
  · have hjoined : Outside (w.setFlags w.currentThread fun flags => { flags with joined := true }) s := by
      refine h.congr rfl fun t _ => .setFlags w w.currentThread t ?_
      exact fun _ => rfl
    have hblocks : ∀ {v : World} {r : Fibers Tid Wh}, v.currentThread = w.currentThread → Outside v r →
        CpuReaches site r
          (Covers (Sched.enterSched { v with tcb := bmkSchedBlock v.tcb w.currentThread } .exitGate)) := by
      intro v r hcurrent hout
      refine hout.enterSched (hcurrent ▸ hsite) { v with tcb := bmkSchedBlock v.tcb w.currentThread } rfl
        (fun t ht => .of_eq ?_) .exitGate
      exact bmkSchedBlock_of_ne v.tcb (hcurrent ▸ ht)
    unfold Sched.wakeJoiner
    split
    · rename_i jw _
      obtain ⟨s', hstep, hwoken⟩ := hjoined.wake site jw.jwThread
      exact .step hstep (hblocks rfl hwoken)
    · exact hblocks rfl hjoined
  · refine h.enterSched hsite _ ?_ (fun t ht => ?_) .exitFinal
    · rfl
    · exact .clearRunnable w.tcb ht

/-- `bmk_sched_join`, from the test of its loop. -/
theorem Outside.joinLoop (h : Outside w s) (hsite : site w.currentThread = none) (joinable : Tid) :
    CpuReaches site s (Covers (Sched.joinLoop w joinable)) := by
  unfold Sched.joinLoop
  dsimp only
  split
  · have hflags : Outside (w.setFlags joinable fun flags => { flags with mustjoin := false }) s := by
      refine h.congr rfl fun t _ => .setFlags w joinable t ?_
      exact fun _ => rfl
    obtain ⟨s', hstep, hwoken⟩ := hflags.wake site joinable
    refine .step hstep (.here (Outside.covers (hwoken.congr rfl fun t _ => .refl _) ?_))
    simp [World.scheduling, World.setFlags]
  · refine h.enterSched hsite _ ?_ (fun t ht => ?_) (.join joinable)
    · rfl
    · exact .of_eq (bmkSchedBlock_of_ne w.tcb ht)

/-- The running thread has got the processor.  Inside `wait` it comes straight out of `bmk_sched`. -/
theorem Outside.resume (h : Outside w s)
    (hcomes : ∀ prev caller, w.frame w.currentThread = .sched prev caller → caller = .other ∨
      site w.currentThread = none) :
    CpuReaches site s (Covers (Sched.resume w)) := by
  unfold Sched.resume
  split
  · exact .here (Outside.covers (h.congr rfl fun t _ => .refl _) (by simp [World.scheduling]))
  · rename_i huser
    exact .here (h.covers (by simp [World.scheduling, huser]))
  · rename_i prev caller hframe
    obtain ⟨zombies, freedStacks, freedThreads, hreaper⟩ := Sched.reaper_eq prev w
    rw [hreaper]
    have hsame : ∀ {w' : World}, w'.currentThread = w.currentThread → w'.tcb = w.tcb → Outside w' s :=
      fun hcurrent htcb => h.congr hcurrent fun t _ => .of_eq (congrFun htcb t)
    cases caller with
    | other => exact .here (Outside.covers (hsame rfl rfl) (by simp [Sched.resumeCaller, World.scheduling]))
    | exitGate => exact Outside.exitLoop (hsame rfl rfl) ((hcomes _ _ hframe).resolve_left (by simp))
    | exitFinal =>
        refine h.enterSched ((hcomes _ _ hframe).resolve_left (by simp)) _ ?_ (fun t _ => ?_) .exitFinal
        · rfl
        · exact .refl _
    | join joinable =>
        have hsite := (hcomes _ _ hframe).resolve_left (by simp)
        refine Outside.joinLoop ?_ ?_ joinable
        · exact hsame rfl rfl
        · exact hsite

/-- A pass of the loop in `bmk_sched`. -/
theorem Inside.pass (h : Inside w s) (hin : w.scheduling = true) (tm : Int)
    (hcomes : ∀ t prev caller, w.frame t = .sched prev caller → caller = .other ∨ site t = none) :
    CpuReaches site s (Covers (Sched.pass tm w)) := by
  rw [Sched.pass, scan_eq]
  cases hselected : w.threads.find? (eligible tm w.tcb) with
  | none => exact .here (h.covers hin)
  | some next =>
      obtain ⟨es, s', hrun, hout⟩ := h.pass_dispatches site hselected (w.threads.erase next ++ [next])
      obtain ⟨es', s'', hrun', hcovers⟩ := hout.resume (hcomes next)
      exact ⟨es ++ es', s'', by rw [run_append, hrun]; exact hrun', hcovers⟩

/-- Threads block no one but themselves, and set no wakeup time but their own. -/
def ownCall (w : World) : Event → Bool
  | .block thread | .setwakeup thread _ => thread = w.currentThread
  | _ => true

/-- Events that are not calls of the running thread. -/
def fromOutside : Event → Bool
  | .wake _ | .pass _ => true
  | _ => false

/-- Every event of sched.c is a run of the processor. -/
theorem covers_step {e : Event} (h : Covers w s) (hown : ownCall w e = true)
    (hstep : Sched.step w e = some w') (hsite : fromOutside e = false → site w.currentThread = none)
    (hcomes : ∀ t prev caller, w.frame t = .sched prev caller → caller = .other ∨ site t = none) :
    CpuReaches site s (Covers w') := by
  obtain ⟨-, henabled, rfl⟩ := Sched.step_inv hstep
  cases e with
  | create thrflags stackBase stackSize => exact create_covers h henabled thrflags stackBase stackSize
  | exit =>
      have hout := h.outside henabled
      exact Outside.exitLoop (hout.congr rfl fun t _ => .refl _) (hsite rfl)
  | join joinable =>
      have hout := h.outside henabled
      rw [Sched.effect, Sched.bmkSchedJoin]
      dsimp only
      split
      · have hcalled : Outside { w with joinCalls := (w.currentThread, joinable) :: w.joinCalls } s :=
          hout.congr rfl fun t _ => .refl _
        exact hcalled.joinLoop (hsite rfl) joinable
      · exact .here (Outside.covers (hout.congr rfl fun t _ => .refl _) (calls_scheduling henabled))
  | sched => exact (h.outside henabled).enterSched (hsite rfl) w rfl (fun t _ => .refl _) .other
  | block thread =>
      obtain rfl := of_decide_eq_true hown
      refine .here
        (Outside.covers ((h.outside henabled).congr ?_ fun t ht => ?_) (calls_scheduling henabled))
      · rfl
      · exact .of_eq (bmkSchedBlock_of_ne w.tcb ht)
  | setwakeup thread abstime =>
      obtain rfl := of_decide_eq_true hown
      refine .here
        (Outside.covers ((h.outside henabled).congr ?_ fun t ht => ?_) (calls_scheduling henabled))
      · rfl
      · exact .of_eq (Function.update_of_ne ht _ _)
  | nanosleep now nsec =>
      refine (h.outside henabled).enterSched (hsite rfl) _ ?_ (fun t ht => ?_) .other
      · rfl
      · exact .trans (.of_eq (Function.update_of_ne ht _ _)) (.clearRunnable _ ht)
  | wake thread => exact wake_covers h thread
  | pass tm => exact (h.inside henabled).pass henabled tm hcomes

/-! ### Runs -/

/-- The scheduler with threads that block no one but themselves. -/
def ownStep (w : World) (e : Event) : Option World := if ownCall w e then Sched.step w e else none

/-- Every run of sched.c is a run of the processor, from any state in which a thread runs. -/
theorem sched_run_processor {events : List Event} (hrun : run ownStep w events = some w')
    (hcalls : w.calls = true) (hawake : isRunnable w.tcb w.currentThread = true)
    (waithead : Wh → List Tid) (onlist : Tid → Bool) :
    ∃ es s', run cpuStep ⟨w.currentThread, false, w.tcb, waithead, onlist⟩ es = some s' ∧ Covers w' s' ∧
      s'.waithead = waithead ∧ s'.onlist = onlist := by
  have hfollow : ∀ (v : World) (e : Event) (v' : World) (r : Fibers Tid Wh),
      Covers v r → ownStep v e = some v' → True → CpuReaches (fun _ => none) r (Covers v') := by
    intro v e v' r hcovers hstep _
    unfold ownStep at hstep
    split at hstep
    · rename_i hown
      exact covers_step hcovers hown hstep (fun _ => rfl) fun _ _ _ _ => .inr rfl
    · cases hstep
  obtain ⟨es, s', hrun', hcovers⟩ := run_follows (fun _ _ _ _ _ => trivial) hfollow
    (covers_start w hcalls hawake waithead onlist) hrun trivial
  obtain ⟨hwaithead, honlist⟩ := siteStep_queues hrun'
  rw [siteStep_none] at hrun'
  exact ⟨es, s', hrun', hcovers, hwaithead, honlist⟩

end RumpBaremetal
