/-
Module: RumpBaremetal.Proofs.Alone
Layer: Proofs
Purpose: What a thread keeps while others run.  No thread is ever joinable, so no call of another thread
  reaches its control block or its frame; a pass of the loop in `bmk_sched` reaches those of the thread that
  it selects.  The machine of the interrupt thread moves the scheduler by steps of the scheduler's own
  machine only.
Trusted boundary: none (fully proved)
Main exports: Joinless, Detached, Untouched, Joinless.call_untouched, Joinless.resumes, Detached.step,
  node_refines_sched, node_sched_invariant, node_created_le, node_detached, isrStep_sameWaits,
  running_aside, NodeMove, node_move
-/
import RumpBaremetal.Fiber.Isr
import RumpBaremetal.Proofs.Join
import RumpBaremetal.Proofs.RoundRobin
import RumpBaremetal.Proofs.Wait

namespace RumpBaremetal

namespace Sched

open StepSystem

/-- No thread is joinable, and none is inside `bmk_sched_join`. -/
structure Joinless (w : World) : Prop where
  noMustjoin : NoMustjoin w
  noJoin : ∀ t prev joinable, w.frame t ≠ .sched prev (.join joinable)

/-- Besides, none but the running thread is outside `bmk_sched`. -/
structure Detached (w : World) : Prop extends Joinless w where
  alone : ∀ t < w.created, w.frame t = .user → t = w.currentThread

/-- The control block and the frame of a thread are as they were. -/
structure Untouched (w w' : World) (t : Tid) : Prop where
  tcb : w'.tcb t = w.tcb t
  frame : w'.frame t = w.frame t

/-- The thread leaves `bmk_sched` when it is resumed, if it is inside. -/
def Frame.returns : Frame → Bool
  | .fresh | .user | .sched _ .other => true
  | _ => false

variable {w : World}

theorem Joinless.exitLoop_eq (h : Joinless w) :
    exitLoop w = enterSched { w with
      threads := w.threads.erase w.currentThread
      tcb := clearRunnable w.tcb w.currentThread
      zombies := w.currentThread :: w.zombies } .exitFinal := by
  unfold exitLoop
  dsimp only
  rw [if_neg (by simp [h.noMustjoin w.currentThread])]

theorem Joinless.exit_untouched (h : Joinless w) {t : Tid} (hne : t ≠ w.currentThread) :
    Untouched w (exitLoop w) t := by
  have hcleared : clearRunnable w.tcb w.currentThread t = w.tcb t := setFlags_of_ne w.tcb hne _
  rw [h.exitLoop_eq]
  exact ⟨hcleared, Function.update_of_ne hne _ _⟩

theorem create_untouched (w : World) (thrflags : Int) (stackBase : Option Nat) (stackSize : Nat) {t : Tid}
    (hne : t ≠ w.created) : Untouched w (bmkSchedCreate w thrflags stackBase stackSize) t := by
  have hnew : ∀ b : BmkThread, setRunnable (Function.update w.tcb w.created b) w.created t = w.tcb t := by
    intro b
    rw [setRunnable, setFlags_of_ne _ hne, Function.update_of_ne hne]
  unfold bmkSchedCreate
  cases stackBase with
  | none =>
      dsimp only
      split
      · exact ⟨rfl, rfl⟩
      · exact ⟨hnew _, Function.update_of_ne hne _ _⟩
  | some base => exact ⟨hnew _, Function.update_of_ne hne _ _⟩

/-- A call of the running thread. -/
theorem Joinless.call_untouched (h : Joinless w) {e : Event} (he : threadCall e = true) {t : Tid}
    (hcreated : t < w.created) (hne : t ≠ w.currentThread) : Untouched w (effect w e) t := by
  cases e with
  | create thrflags stackBase stackSize =>
      exact create_untouched w thrflags stackBase stackSize (Nat.ne_of_lt hcreated)
  | exit =>
      have h' : Joinless { w with exitCalls := w.currentThread :: w.exitCalls } := ⟨h.noMustjoin, h.noJoin⟩
      exact ⟨(h'.exit_untouched hne).tcb, (h'.exit_untouched hne).frame⟩
  | join joinable =>
      simp only [effect, bmkSchedJoin]
      rw [if_neg (by simp [h.noMustjoin joinable])]
      exact ⟨rfl, rfl⟩
  | sched => exact ⟨rfl, Function.update_of_ne hne _ _⟩
  | _ => simp [threadCall] at he

/-- The thread that gets the processor goes on in its own frame and leaves the others alone. -/
theorem Joinless.resume_untouched (h : Joinless w) :
    (resume w).currentThread = w.currentThread ∧
      (∀ t, t ≠ w.currentThread → Untouched w (resume w) t) ∧
      ((w.frame w.currentThread).returns = true →
        (resume w).frame w.currentThread = .user ∧ (resume w).tcb = w.tcb) ∧
      ∀ prev joinable, (resume w).frame w.currentThread ≠ .sched prev (.join joinable) := by
  unfold resume
  split
  · refine ⟨rfl, fun t ht => ⟨rfl, Function.update_of_ne ht _ _⟩,
      fun _ => ⟨Function.update_self _ _ _, rfl⟩, ?_⟩
    intro prev joinable
    simp only [Function.update_self]
    exact Frame.noConfusion
  · rename_i hframe
    refine ⟨rfl, fun t _ => ⟨rfl, rfl⟩, fun _ => ⟨hframe, rfl⟩, fun prev joinable => ?_⟩
    rw [hframe]
    exact Frame.noConfusion
  · rename_i prev caller hframe
    obtain ⟨zombies, freedStacks, freedThreads, heq⟩ := reaper_eq prev w
    rw [heq]
    cases caller with
    | other =>
        refine ⟨rfl, fun t ht => ⟨rfl, Function.update_of_ne ht _ _⟩,
          fun _ => ⟨Function.update_self _ _ _, rfl⟩, ?_⟩
        intro prev joinable
        simp only [resumeCaller, Function.update_self]
        exact Frame.noConfusion
    | exitGate =>
        have h' : Joinless { w with
            zombies := zombies
            freedStacks := freedStacks
            freedThreads := freedThreads } :=
          ⟨h.noMustjoin, h.noJoin⟩
        refine ⟨?_, fun t ht => ?_, fun hreturns => absurd hreturns (by simp [hframe, Frame.returns]), ?_⟩
        · simp only [resumeCaller, h'.exitLoop_eq]
          rfl
        · have hother := h'.exit_untouched ht
          exact ⟨hother.tcb, hother.frame⟩
        · intro prev joinable
          simp only [resumeCaller, h'.exitLoop_eq, enterSched, Function.update_self]
          simp
    | exitFinal =>
        refine ⟨rfl, fun t ht => ⟨rfl, Function.update_of_ne ht _ _⟩,
          fun hreturns => absurd hreturns (by simp [hframe, Frame.returns]), ?_⟩
        intro prev joinable
        simp only [resumeCaller, enterSched, Function.update_self]
        simp
    | join joinable => exact absurd hframe (h.noJoin _ _ _)

/-- A pass finds nobody, or it wakes and resumes one thread. -/
structure Resumes (tm : Int) (w : World) (next : Tid) : Prop where
  listed : next ∈ w.threads
  eligible : eligible tm w.tcb next = true
  current : (pass tm w).currentThread = next
  created : (pass tm w).created = w.created
  others : ∀ t, t ≠ next → Untouched w (pass tm w) t
  back : (w.frame next).returns = true →
    (pass tm w).frame next = .user ∧ (pass tm w).tcb next = expire tm w.tcb next next
  noJoin : ∀ prev joinable, (pass tm w).frame next ≠ .sched prev (.join joinable)

theorem Joinless.resumes (h : Joinless w) {tm : Int} {next : Tid}
    (hselected : selected w (.pass tm) = some next) :
    Resumes tm w next := by
  rw [selected_pass] at hselected
  have hpass : pass tm w = resume (dispatched w (expire tm w.tcb next) next) := by
    simp only [pass, scan_eq, hselected, dispatched]
  have hmust : NoMustjoin (dispatched w (expire tm w.tcb next) next) :=
    h.noMustjoin.setTcb fun t => .expire tm w.tcb next t
  have hjoinless : Joinless (dispatched w (expire tm w.tcb next) next) := ⟨hmust, h.noJoin⟩
  obtain ⟨hcurrent, hothers, hback, hnoJoin⟩ := hjoinless.resume_untouched
  refine ⟨List.mem_of_find?_eq_some hselected, List.find?_some hselected, ?_, ?_, ?_, ?_, ?_⟩
  · rw [hpass]
    exact hcurrent
  · rw [hpass]
    exact (resume_threads _).1
  · intro t ht
    rw [hpass]
    exact ⟨(hothers t ht).tcb.trans (expire_of_ne tm w.tcb ht), (hothers t ht).frame⟩
  · intro hreturns
    rw [hpass]
    exact ⟨(hback hreturns).1, congrFun (hback hreturns).2 next⟩
  · rw [hpass]
    exact hnoJoin

theorem pass_eq_self {tm : Int} (hselected : selected w (.pass tm) = none) : pass tm w = w := by
  rw [selected_pass] at hselected
  simp only [pass, scan_eq, hselected]

theorem Joinless.pass_cases (h : Joinless w) (tm : Int) : pass tm w = w ∨ ∃ next, Resumes tm w next := by
  cases hselected : selected w (.pass tm) with
  | none => exact .inl (pass_eq_self hselected)
  | some next => exact .inr ⟨next, h.resumes hselected⟩

/-- A thread that comes out of `bmk_sched` fails no assertion on the way. -/
theorem pass_halted {tm : Int} {next prev : Tid} (hselected : selected w (.pass tm) = some next)
    (hframe : w.frame next = .sched prev .other) : (pass tm w).halted = w.halted := by
  rw [selected_pass] at hselected
  simp only [pass, scan_eq, hselected, resume, hframe]
  obtain ⟨zombies, freedStacks, freedThreads, heq⟩ := reaper_eq prev
    { w with tcb := expire tm w.tcb next, threads := w.threads.erase next ++ [next], currentThread := next }
  rw [heq]
  rfl

/-- What a call does to a frame: the running thread enters `bmk_sched`, but not from `bmk_sched_join`, and a
    new thread is fresh. -/
theorem Joinless.call_frame (h : Joinless w) {e : Event} (he : threadCall e = true) :
    (effect w e).currentThread = w.currentThread ∧ ∀ t,
      (effect w e).frame t = w.frame t ∧ (t < (effect w e).created → t < w.created) ∨
      (effect w e).frame t = .fresh ∨
      ∃ caller, (∀ joinable, caller ≠ .join joinable) ∧ (effect w e).frame t = .sched t caller := by
  cases e with
  | create thrflags stackBase stackSize =>
      have hnew : ∀ t, Function.update w.frame w.created .fresh t = w.frame t ∧
        (t < w.created + 1 → t < w.created) ∨
          Function.update w.frame w.created .fresh t = .fresh := by
        intro t
        by_cases ht : t = w.created
        · subst ht
          exact .inr (Function.update_self _ _ _)
        · exact .inl ⟨Function.update_of_ne ht _ _,
            fun hlt => (Nat.lt_succ_iff_lt_or_eq.mp hlt).resolve_right ht⟩
      simp only [effect, bmkSchedCreate]
      cases stackBase with
      | none =>
          dsimp only
          split
          · exact ⟨rfl, fun t => .inl ⟨rfl, id⟩⟩
          · exact ⟨rfl, fun t => (hnew t).imp id .inl⟩
      | some base => exact ⟨rfl, fun t => (hnew t).imp id .inl⟩
  | exit =>
      have h' : Joinless { w with exitCalls := w.currentThread :: w.exitCalls } := ⟨h.noMustjoin, h.noJoin⟩
      simp only [effect, bmkSchedExit, h'.exitLoop_eq, enterSched]
      refine ⟨trivial, fun t => ?_⟩
      by_cases hcurrent : t = w.currentThread
      · subst hcurrent
        exact .inr (.inr ⟨.exitFinal, fun _ => Caller.noConfusion, Function.update_self _ _ _⟩)
      · exact .inl ⟨Function.update_of_ne hcurrent _ _, id⟩
  | join joinable =>
      simp only [effect, bmkSchedJoin]
      rw [if_neg (by simp [h.noMustjoin joinable])]
      exact ⟨rfl, fun t => .inl ⟨rfl, id⟩⟩
  | sched =>
      refine ⟨rfl, fun t => ?_⟩
      by_cases hcurrent : t = w.currentThread
      · subst hcurrent
        exact .inr (.inr ⟨.other, fun _ => Caller.noConfusion, Function.update_self _ _ _⟩)
      · exact .inl ⟨Function.update_of_ne hcurrent _ _, id⟩
  | _ => simp [threadCall] at he

theorem Detached.call (h : Detached w) {e : Event} (he : threadCall e = true)
    (hmust : NoMustjoin (effect w e)) :
    Detached (effect w e) := by
  obtain ⟨hcurrent, hframe⟩ := h.call_frame he
  refine ⟨⟨hmust, fun t prev joinable => ?_⟩, fun t hcreated huser => ?_⟩
  · rcases hframe t with ⟨heq, -⟩ | heq | ⟨caller, hcaller, heq⟩
    · rw [heq]
      exact h.noJoin t prev joinable
    · rw [heq]
      exact Frame.noConfusion
    · rw [heq]
      exact fun hjoin => hcaller joinable (Frame.sched.inj hjoin).2
  · rw [hcurrent]
    rcases hframe t with ⟨heq, hold⟩ | heq | ⟨caller, -, heq⟩
    · exact h.alone t (hold hcreated) (heq ▸ huser)
    · exact absurd (heq.symm.trans huser) Frame.noConfusion
    · exact absurd (heq.symm.trans huser) Frame.noConfusion

theorem Detached.pass (h : Detached w) (hscheduling : w.scheduling = true) (tm : Int)
    (hmust : NoMustjoin (pass tm w)) : Detached (pass tm w) := by
  rcases h.pass_cases tm with heq | ⟨next, hnext⟩
  · rw [heq]
    exact h
  · refine ⟨⟨hmust, fun t prev joinable => ?_⟩, fun t hcreated huser => ?_⟩
    · by_cases ht : t = next
      · subst ht
        exact hnext.noJoin prev joinable
      · rw [(hnext.others t ht).frame]
        exact h.noJoin t prev joinable
    · rw [hnext.current]
      by_contra ht
      rw [hnext.created] at hcreated
      rw [(hnext.others t ht).frame] at huser
      -- the thread would be running, but that one is inside `bmk_sched`
      rw [h.alone t hcreated huser] at huser
      simp [World.scheduling, huser] at hscheduling

theorem Detached.step {w' : World} {e : Event} (h : Detached w) (hstep : step w e = some w') :
    Detached w' := by
  have hmust := h.noMustjoin.step hstep
  obtain ⟨-, henabled, rfl⟩ := step_inv hstep
  cases e with
  | create thrflags stackBase stackSize => exact h.call rfl hmust
  | exit => exact h.call rfl hmust
  | join joinable => exact h.call rfl hmust
  | sched => exact h.call rfl hmust
  | block thread => exact ⟨⟨hmust, h.noJoin⟩, h.alone⟩
  | setwakeup thread abstime => exact ⟨⟨hmust, h.noJoin⟩, h.alone⟩
  | nanosleep now nsec =>
      obtain ⟨⟨-, hnoJoin⟩, halone⟩ := h.call (e := .sched) rfl h.noMustjoin
      exact ⟨⟨hmust, hnoJoin⟩, halone⟩
  | wake thread => exact ⟨⟨hmust, h.noJoin⟩, h.alone⟩
  | pass tm => exact h.pass henabled tm hmust

/-- After `bmk_isr_init`. -/
theorem detached_start : Detached (bmkSchedCreate bmkSchedInit 0 none 0) := by
  have hinit : Detached bmkSchedInit := by
    refine ⟨⟨NoMustjoin.init, fun t prev joinable => Frame.noConfusion⟩, fun t hcreated _ => ?_⟩
    exact Nat.lt_one_iff.mp hcreated
  exact hinit.call (e := .create 0 none 0) rfl (NoMustjoin.init.create 0 none 0)

theorem lifeCycle_start : LifeCycle (bmkSchedCreate bmkSchedInit 0 none 0) := by
  have hcreate : step bmkSchedInit (.create 0 none 0) = some (bmkSchedCreate bmkSchedInit 0 none 0) := rfl
  exact lifeCycle_step lifeCycle_init hcreate

theorem LifeCycle.current_created (h : LifeCycle w) : w.currentThread < w.created := by
  refine (h.mem_iff_created _).mp ?_
  rcases h.running with hthreads | hzombies
  · exact .inl hthreads
  · exact .inr (.inl hzombies)

end Sched

/-! ### The scheduler inside the machine of the interrupt thread -/

section Node

open StepSystem Sched

variable {Wh Fun Arg : Type*} [DecidableEq Wh] {s : Stubs} {w w' : Node Wh Fun Arg}
  {e : NodeEvent Wh Fun Arg}

/-- The queue that is left, the marks and the control blocks after the records of `taken` have been taken
    off. -/
def Node.takeOff (w : Node Wh Fun Arg) (wh : Wh) (taken rest : List Tid) : Node Wh Fun Arg :=
  { w with
    sched := { w.sched with tcb := taken.foldl bmkSchedWake w.sched.tcb }
    waithead := Function.update w.waithead wh rest
    onlist := fun t => if t ∈ taken then false else w.onlist t
    dequeued := taken.map (fun t => (wh, w.serial t)) ++ w.dequeued }

theorem wakeupOne_takeOff (s : Stubs) (w : Node Wh Fun Arg) (wh : Wh) :
    nodeEffect s w (.wakeupOne wh) = w.takeOff wh (w.waithead wh).head?.toList (w.waithead wh).tail := by
  simp only [nodeEffect, Node.takeOff, Node.setFibers, Node.fibers, wakeupOne_eq]

theorem head_append_tail {α : Type*} (l : List α) : l = l.head?.toList ++ l.tail := by
  cases l <;> rfl

theorem wakeupAll_takeOff (s : Stubs) (w : Node Wh Fun Arg) (wh : Wh) :
    nodeEffect s w (.wakeupAll wh) = w.takeOff wh (w.waithead wh) [] := by
  simp only [nodeEffect, Node.takeOff, Node.setFibers, Node.fibers, wakeupAll_eq]

theorem run_wakes (taken : List Tid) :
    ∀ {w : World}, w.halted = none →
      run Sched.step w (taken.map .wake) = some { w with tcb := taken.foldl bmkSchedWake w.tcb } := by
  induction taken with
  | nil => exact fun _ => rfl
  | cons t rest ih =>
      intro w hhalted
      have hstep : Sched.step w (.wake t) = some { w with tcb := bmkSchedWake w.tcb t } := by
        simp [Sched.step, hhalted, enabled, effect]
      simp only [List.map_cons, run, hstep, List.foldl_cons]
      exact ih hhalted

theorem run_one {w : World} {e : Sched.Event} (hhalted : w.halted = none) (henabled : enabled w e = true) :
    run Sched.step w [e] = some (effect w e) := by
  simp [run, Sched.step, hhalted, henabled]

theorem setwakeup_block (tcb : Tcbs Tid) (t : Tid) :
    bmkSchedSetwakeup (bmkSchedBlock tcb t) t (tcb t).wakeupTime = clearRunnable tcb t := by
  funext u
  by_cases hu : u = t
  · subst hu
    simp [bmkSchedSetwakeup, bmkSchedBlock, clearRunnable, setFlags]
  · simp [bmkSchedSetwakeup, bmkSchedBlock, clearRunnable, setFlags, hu]

/-- The second half of `bmk_sched_nanosleep` in terms of the scheduler's events, whatever the wakeup time is
    by then. -/
theorem run_nanosleep {w : World} (hhalted : w.halted = none) (hcalls : w.calls = true) :
    run Sched.step w [.block w.currentThread, .setwakeup w.currentThread (w.tcb w.currentThread).wakeupTime,
      .sched] =
      some (enterSched { w with tcb := clearRunnable w.tcb w.currentThread } .other) := by
  have hframe : w.frame w.currentThread = .user := of_decide_eq_true hcalls
  simp [run, Sched.step, hhalted, enabled, effect, World.calls, hframe, setwakeup_block]

omit [DecidableEq Wh] in
/-- What the statements of `isr` do to the scheduler. -/
theorem isrStep_sched (w : Node Wh Fun Arg) (rv : Int32) :
    (isrStep w rv).sched = w.sched ∨ w.pc = .block ∧
    (isrStep w rv).sched = effect w.sched (.block isrThread) ∨
      w.pc = .callSched ∧ (isrStep w rv).sched = effect w.sched .sched := by
  have hlower : ∀ pc, (w.lower pc).sched = w.sched := by
    intro pc
    unfold Node.lower
    split <;> rfl
  cases hpc : w.pc with
  | block => exact .inr (.inl ⟨rfl, by simp only [isrStep, hpc, Node.does]⟩)
  | callSched => exact .inr (.inr ⟨rfl, by simp only [isrStep, hpc, Node.does]⟩)
  | lower isrcopy => exact .inl (by simp only [isrStep, hpc, hlower])
  | lowerIdle => exact .inl (by simp only [isrStep, hpc, hlower])
  | test =>
      refine .inl ?_
      simp only [isrStep, hpc]
      split <;> rfl
  | line isrcopy last i =>
      refine .inl ?_
      simp only [isrStep, hpc]
      split
      · split <;> rfl
      · rfl
  | _ => exact .inl (by simp only [isrStep, hpc, Node.setDepth, Node.notePass])

/-- Every step of the machine is a run of the scheduler's machine, as far as the scheduler goes. -/
theorem node_refines_sched (h : nodeStep s w e = some w') :
    ∃ es, run Sched.step w.sched es = some w'.sched := by
  obtain ⟨hhalted, henabled, rfl⟩ := nodeStep_inv h
  cases e with
  | irq which => exact ⟨[.wake isrThread], run_one hhalted rfl⟩
  | tick cycles => exact ⟨[], rfl⟩
  | isr rv =>
      simp only [nodeEnabled, Bool.and_eq_true] at henabled
      simp only [nodeEffect]
      rcases isrStep_sched w rv with heq | ⟨-, heq⟩ | ⟨-, heq⟩
      · exact ⟨[], congrArg some heq.symm⟩
      · rw [heq]
        exact ⟨[.block isrThread], run_one hhalted henabled.1.2⟩
      · rw [heq]
        exact ⟨[.sched], run_one hhalted henabled.1.2⟩
  | wait wh nsec => exact ⟨[], rfl⟩
  | advance =>
      simp only [nodeEnabled, Bool.and_eq_true] at henabled
      obtain ⟨hcalls, hinside⟩ := henabled
      simp only [nodeEffect, advance]
      split
      · exact ⟨[.block _], run_one hhalted hcalls⟩
      · split
        · exact ⟨[.setwakeup _ _], run_one hhalted hcalls⟩
        · exact ⟨[], rfl⟩
      · exact ⟨[.sched], run_one hhalted hcalls⟩
      · refine ⟨[], ?_⟩
        simp only [run_nil, Node.setCall, Node.setFibers, waitEnd_tcb, Node.fibers]
      · exact ⟨_, run_nanosleep hhalted hcalls⟩
      · exact ⟨[], rfl⟩
  | wakeupOne wh =>
      rw [wakeupOne_takeOff]
      exact ⟨_, run_wakes _ hhalted⟩
  | wakeupAll wh =>
      rw [wakeupAll_takeOff]
      exact ⟨_, run_wakes _ hhalted⟩
  | nanosleep nsec =>
      have hcalls : w.sched.calls = true := by
        simp only [nodeEnabled, Node.mayCall, Bool.and_eq_true] at henabled
        exact henabled.1.1
      exact ⟨[.setwakeup _ _], run_one hhalted hcalls⟩
  | thread e =>
      simp only [nodeEnabled, Node.mayCall, Bool.and_eq_true] at henabled
      refine ⟨[e], run_one hhalted ?_⟩
      cases e <;> first | exact henabled.1.1.1 | simp [threadCall] at henabled
  | netinit func arg intr found =>
      refine ⟨[], ?_⟩
      simp only [nodeEffect]
      split <;> rfl
  | pass => exact ⟨[.pass _], run_one hhalted henabled⟩

/-- What the scheduler's machine keeps, this machine keeps. -/
theorem node_sched_invariant {I : World → Prop} (keep : ∀ w e w', I w → Sched.step w e = some w' → I w')
    (h : nodeStep s w e = some w') (hw : I w.sched) : I w'.sched := by
  obtain ⟨es, hrun⟩ := node_refines_sched h
  exact run_invariant keep hw hrun

theorem node_created_le (h : nodeStep s w e = some w') : w.sched.created ≤ w'.sched.created := by
  refine node_sched_invariant (I := fun v => w.sched.created ≤ v.created) ?_ h le_rfl
  intro v e v' hle hstep
  rcases step_threads hstep with ⟨-, hcreated, -⟩ | ⟨hcreated, -⟩
  · exact hle.trans (hcreated ▸ Nat.le_succ v.created)
  · exact hle.trans hcreated.ge

/-- The scheduler's own invariants. -/
theorem node_lifeCycle (h : nodeStep s w e = some w') (hw : Detached w.sched ∧ LifeCycle w.sched) :
    Detached w'.sched ∧ LifeCycle w'.sched :=
  node_sched_invariant (I := fun v => Detached v ∧ LifeCycle v)
    (fun _ _ _ hv hstep => ⟨hv.1.step hstep, lifeCycle_step hv.2 hstep⟩) h hw

/-- The scheduler with a thread that has been created. -/
theorem node_detached {t : Tid} (h : nodeStep s w e = some w')
    (hw : Detached w.sched ∧ t < w.sched.created) :
    Detached w'.sched ∧ t < w'.sched.created :=
  ⟨node_sched_invariant (fun _ _ _ hd hstep => hd.step hstep) h hw.1, hw.2.trans_le (node_created_le h)⟩

/-! ### What the statements of `isr` leave alone -/

/-- The sleep queues and the calls of `wait` are as they were. -/
structure SameWaits (w w' : Node Wh Fun Arg) : Prop where
  clock : w'.clock = w.clock
  waithead : w'.waithead = w.waithead
  onlist : w'.onlist = w.onlist
  call : w'.call = w.call
  calls : w'.calls = w.calls
  serial : w'.serial = w.serial
  dequeued : w'.dequeued = w.dequeued
  returned : w'.returned = w.returned

omit [DecidableEq Wh] in
theorem lower_sameWaits (w : Node Wh Fun Arg) (pc : IsrPc Fun Arg) : SameWaits w (w.lower pc) := by
  unfold Node.lower
  split <;> exact ⟨rfl, rfl, rfl, rfl, rfl, rfl, rfl, rfl⟩

omit [DecidableEq Wh] in
theorem isrStep_sameWaits (w : Node Wh Fun Arg) (rv : Int32) : SameWaits w (isrStep w rv) := by
  cases hpc : w.pc with
  | test =>
      simp only [isrStep, hpc]
      split <;> exact ⟨rfl, rfl, rfl, rfl, rfl, rfl, rfl, rfl⟩
  | line isrcopy last i =>
      simp only [isrStep, hpc]
      split
      · split <;> exact ⟨rfl, rfl, rfl, rfl, rfl, rfl, rfl, rfl⟩
      · exact ⟨rfl, rfl, rfl, rfl, rfl, rfl, rfl, rfl⟩
  | lower isrcopy =>
      simp only [isrStep, hpc]
      exact lower_sameWaits w _
  | lowerIdle =>
      simp only [isrStep, hpc]
      exact lower_sameWaits w _
  | _ =>
      simp only [isrStep, hpc]
      exact ⟨rfl, rfl, rfl, rfl, rfl, rfl, rfl, rfl⟩

/-! ### What the running thread leaves alone -/

/-- The events in which the running thread goes on and wakes nobody. -/
def NodeEvent.ofRunning : NodeEvent Wh Fun Arg → Bool
  | .isr _ | .wait _ _ | .advance | .nanosleep _ | .thread _ | .netinit _ _ _ _ => true
  | _ => false

/-- Nothing has happened to a thread. -/
structure Aside (w w' : Node Wh Fun Arg) (t : Tid) : Prop where
  sched : Untouched w.sched w'.sched t
  call : w'.call t = w.call t
  onlist : w'.onlist t = w.onlist t
  serial : w'.serial t = w.serial t

theorem block_untouched (w : World) {t u : Tid} (hne : t ≠ u) : Untouched w (effect w (.block u)) t :=
  ⟨bmkSchedBlock_of_ne w.tcb hne, rfl⟩

theorem setwakeup_untouched (w : World) {t u : Tid} (hne : t ≠ u) (abstime : Int) :
    Untouched w (effect w (.setwakeup u abstime)) t :=
  ⟨Function.update_of_ne hne _ _, rfl⟩

theorem sched_untouched (w : World) {t : Tid} (hne : t ≠ w.currentThread) :
    Untouched w (effect w .sched) t :=
  ⟨rfl, Function.update_of_ne hne _ _⟩

theorem advance_aside (w : Node Wh Fun Arg) {t : Tid} (hne : t ≠ w.sched.currentThread) :
    Aside w (advance w) t := by
  have hcall : ∀ c, Function.update w.call w.sched.currentThread c t = w.call t :=
    fun c => Function.update_of_ne hne _ _
  simp only [advance]
  split
  · exact ⟨block_untouched w.sched hne, hcall _, rfl, rfl⟩
  · split
    · exact ⟨setwakeup_untouched w.sched hne _, hcall _, rfl, rfl⟩
    · exact ⟨⟨rfl, rfl⟩, hcall _, rfl, rfl⟩
  · exact ⟨sched_untouched w.sched hne, hcall _, rfl, rfl⟩
  · refine ⟨⟨?_, rfl⟩, hcall _, ?_, rfl⟩
    · simp only [Node.setCall, Node.setFibers, waitEnd_tcb, Node.fibers]
    · simp only [Node.setCall, Node.setFibers, waitEnd]
      split <;> rfl
  · have hcleared : clearRunnable w.sched.tcb w.sched.currentThread t = w.sched.tcb t :=
      setFlags_of_ne w.sched.tcb hne _
    exact ⟨⟨hcleared, Function.update_of_ne hne _ _⟩, hcall _, rfl, rfl⟩
  · exact ⟨⟨rfl, rfl⟩, rfl, rfl, rfl⟩

theorem running_call (he : e.ofRunning = true) {t : Tid} (hne : t ≠ w.sched.currentThread) :
    (nodeEffect s w e).call t = w.call t := by
  cases e with
  | isr rv => exact congrFun (isrStep_sameWaits w rv).call t
  | wait wh nsec => exact Function.update_of_ne hne _ _
  | advance => exact (advance_aside w hne).call
  | nanosleep nsec => exact Function.update_of_ne hne _ _
  | thread e => rfl
  | netinit func arg intr found =>
      simp only [nodeEffect]
      split <;> rfl
  | _ => exact absurd he (by simp [NodeEvent.ofRunning])

theorem running_aside (hw : Joinless w.sched) (henabled : nodeEnabled w e = true)
    (he : e.ofRunning = true) {t : Tid} (hcreated : t < w.sched.created) (hne : t ≠ w.sched.currentThread) :
    Aside w (nodeEffect s w e) t := by
  cases e with
  | isr rv =>
      simp only [nodeEnabled, Bool.and_eq_true, beq_iff_eq] at henabled
      have hsame := isrStep_sameWaits w rv
      refine ⟨?_, congrFun hsame.call t, congrFun hsame.onlist t, congrFun hsame.serial t⟩
      simp only [nodeEffect]
      rcases isrStep_sched w rv with heq | ⟨-, heq⟩ | ⟨-, heq⟩
      · rw [heq]
        exact ⟨rfl, rfl⟩
      · rw [heq]
        exact block_untouched w.sched (henabled.1.1 ▸ hne)
      · rw [heq]
        exact sched_untouched w.sched hne
  | wait wh nsec =>
      exact ⟨⟨rfl, rfl⟩, Function.update_of_ne hne _ _, Function.update_of_ne hne _ _,
        Function.update_of_ne hne _ _⟩
  | advance => exact advance_aside w hne
  | nanosleep nsec => exact ⟨setwakeup_untouched w.sched hne _, Function.update_of_ne hne _ _, rfl, rfl⟩
  | thread e =>
      simp only [nodeEnabled, Bool.and_eq_true] at henabled
      exact ⟨hw.call_untouched henabled.2 hcreated hne, rfl, rfl, rfl⟩
  | netinit func arg intr found =>
      simp only [nodeEffect]
      split <;> exact ⟨⟨rfl, rfl⟩, rfl, rfl, rfl⟩
  | _ => exact absurd he (by simp [NodeEvent.ofRunning])

/-! ### What a step does to a thread -/

theorem foldl_wake_of_not_mem (taken : List Tid) :
    ∀ (tcb : Tcbs Tid) {t : Tid}, t ∉ taken → taken.foldl bmkSchedWake tcb t = tcb t := by
  induction taken with
  | nil => exact fun _ _ _ => rfl
  | cons who taken ih =>
      intro tcb t ht
      rw [List.mem_cons, not_or] at ht
      rw [List.foldl_cons, ih _ ht.2, bmkSchedWake_of_ne tcb ht.1]

omit [DecidableEq Wh] in
/-- A thread that may call is outside `bmk_sched` and inside none of the calls. -/
theorem mayCall_inv (h : w.mayCall = true) :
    w.sched.frame w.sched.currentThread = .user ∧ w.call w.sched.currentThread = none := by
  simp only [Node.mayCall, Bool.and_eq_true, Option.isNone_iff_eq_none] at h
  exact ⟨of_decide_eq_true h.1.1, h.1.2⟩

theorem node_alive (h : nodeStep s w e = some w') : w.sched.halted = none ∧ w.intr.halted = false := by
  unfold nodeStep at h
  split at h
  · rename_i hok
    exact ⟨Option.isNone_iff_eq_none.mp hok.1, hok.2.1⟩
  · cases h

theorem nodeStep_of_enabled (halive : w.sched.halted = none ∧ w.intr.halted = false)
    (henabled : nodeEnabled w e = true) :
    nodeStep s w e = some (nodeEffect s w e) :=
  if_pos ⟨by rw [halive.1]; rfl, halive.2, henabled⟩

omit [DecidableEq Wh] in
/-- The running thread is outside `bmk_sched`, and inside a call it can do nothing but go on in it. -/
theorem ofRunning_inv (henabled : nodeEnabled w e = true) (he : e.ofRunning = true) :
    w.sched.frame w.sched.currentThread = .user ∧ (e = .advance ∨ w.call w.sched.currentThread = none) := by
  cases e with
  | isr rv =>
      simp only [nodeEnabled, Bool.and_eq_true, beq_iff_eq, Option.isNone_iff_eq_none] at henabled
      exact ⟨of_decide_eq_true henabled.1.2, .inr (henabled.1.1 ▸ henabled.2)⟩
  | advance =>
      simp only [nodeEnabled, Bool.and_eq_true] at henabled
      exact ⟨of_decide_eq_true henabled.1, .inl rfl⟩
  | thread e =>
      simp only [nodeEnabled, Bool.and_eq_true] at henabled
      exact (mayCall_inv henabled.1).imp id .inr
  | wait wh nsec => exact (mayCall_inv henabled).imp id .inr
  | nanosleep nsec => exact (mayCall_inv henabled).imp id .inr
  | netinit func arg intr found => exact (mayCall_inv henabled).imp id .inr
  | _ => exact absurd he (by simp [NodeEvent.ofRunning])

/-- What a step does to a thread. -/
inductive NodeMove (w w' : Node Wh Fun Arg) (t : Tid) : NodeEvent Wh Fun Arg → Prop where
  | aside {e : NodeEvent Wh Fun Arg} (same : Aside w w' t) : NodeMove w w' t e
  /-- The thread is running and goes on. -/
  | goesOn {e : NodeEvent Wh Fun Arg} (running : t = w.sched.currentThread) (own : e.ofRunning = true) :
      NodeMove w w' t e
  /-- An interrupt wakes its thread. -/
  | interrupted {which : Nat} (isr : t = isrThread) (after : w' = bmkIsr w which) :
      NodeMove w w' t (.irq which)
  /-- The running thread takes it off a queue and wakes it. -/
  | dequeued {e : NodeEvent Wh Fun Arg} {wh : Wh} {taken rest : List Tid} (calls : w.mayCall = true)
      (queued : t ∈ w.waithead wh) (first : t ∈ taken) (after : w' = w.takeOff wh taken rest) :
        NodeMove w w' t e
  /-- It gets the processor. -/
  | dispatched (chosen : selected w.sched (.pass (bmkClockNow w.clock)) = some t)
      (after : w' = w.does (.pass (bmkClockNow w.clock))) : NodeMove w w' t .pass

theorem takeOff_move {wh : Wh} {taken rest : List Tid} (calls : w.mayCall = true)
    (queue : w.waithead wh = taken ++ rest) (t : Tid) : NodeMove w (w.takeOff wh taken rest) t e := by
  by_cases ht : t ∈ taken
  · have hqueued : t ∈ w.waithead wh := by
      rw [queue]
      exact List.mem_append_left _ ht
    exact .dequeued calls hqueued ht rfl
  · have honlist : (w.takeOff wh taken rest).onlist t = w.onlist t := if_neg ht
    exact .aside ⟨⟨foldl_wake_of_not_mem taken w.sched.tcb ht, rfl⟩, rfl, honlist, rfl⟩

theorem node_move (hw : Joinless w.sched) {t : Tid} (hcreated : t < w.sched.created)
    (hstep : nodeStep s w e = some w') :
    NodeMove w w' t e := by
  obtain ⟨-, henabled, rfl⟩ := nodeStep_inv hstep
  have hrunning : e.ofRunning = true → NodeMove w (nodeEffect s w e) t e := by
    intro he
    by_cases ht : t = w.sched.currentThread
    · exact .goesOn ht he
    · exact .aside (running_aside hw henabled he hcreated ht)
  cases e with
  | irq which =>
      by_cases ht : t = isrThread
      · exact .interrupted ht rfl
      · exact .aside ⟨⟨bmkSchedWake_of_ne w.sched.tcb ht, rfl⟩, rfl, rfl, rfl⟩
  | tick cycles => exact .aside ⟨⟨rfl, rfl⟩, rfl, rfl, rfl⟩
  | wakeupOne wh =>
      rw [wakeupOne_takeOff]
      exact takeOff_move henabled (head_append_tail _) t
  | wakeupAll wh =>
      rw [wakeupAll_takeOff]
      exact takeOff_move henabled (List.append_nil _).symm t
  | pass =>
      cases hselected : selected w.sched (.pass (bmkClockNow w.clock)) with
      | none =>
          have hsame : (nodeEffect s w .pass).sched = w.sched := pass_eq_self hselected
          exact .aside ⟨hsame ▸ ⟨rfl, rfl⟩, rfl, rfl, rfl⟩
      | some next =>
          by_cases ht : t = next
          · subst ht
            exact .dispatched hselected rfl
          · have hother := (hw.resumes hselected).others t ht
            exact .aside ⟨⟨hother.tcb, hother.frame⟩, rfl, rfl, rfl⟩
  | _ => exact hrunning rfl

end Node

end RumpBaremetal
