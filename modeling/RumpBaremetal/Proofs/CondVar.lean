/-
Module: RumpBaremetal.Proofs.CondVar
Layer: Proofs
Purpose: When a woken condition waiter can take its mutex back.  `rumpuser_mutex_enter_nowrap` panics
  unless the mutex is free or its own, and relies on there being no preemption.  A holder that gives up
  the processor by itself breaks that: `Orderly` is the condition on one step under which it does not,
  runs that meet it never panic, and a step that violates it can always be continued to the panic.
Trusted boundary: none (fully proved)
Main exports: Due, HeldAside, Orderly, Safe, safe_step, cv_reacquire_never_panics, cv_reacquire_panics
-/
import RumpBaremetal.Proofs.Mutex

namespace RumpBaremetal.Mutex

open StepSystem

variable {Tid Lwp Cv : Type*} [DecidableEq Tid] [DecidableEq Lwp] [DecidableEq Cv]

/-- The places from which a thread takes the mutex back with `rumpuser_mutex_enter_nowrap`. -/
def Pc.reacquires : Pc Cv → Bool
  | .cvWait _ _ | .cvSchedFirst _ => true
  | _ => false

/-- The thread will take the mutex back as soon as it runs. -/
def Due (w : World Tid Lwp Cv) (t : Tid) : Prop :=
  (w.pc t).reacquires = true ∧ isRunnable w.fib.tcb t = true

/-- A thread other than `t` holds the mutex and is not running. -/
def HeldAside (w : World Tid Lwp Cv) (t : Tid) : Prop :=
  ∃ h, h ≠ t ∧ 0 < w.depth h ∧ (h = w.fib.currentThread → w.fib.scheduling = true)

/-- The event takes the running thread into `bmk_sched` while it holds the mutex: it blocks or yields
    elsewhere, or it waits on a condition variable with the mutex entered more than once. -/
def GivesUp (w : World Tid Lwp Cv) : Event Tid Cv → Prop
  | .cpu (.sleep _) | .cpu .yield => 0 < w.depth w.fib.currentThread
  | .cvCall _ .cvWaitNowrap _ => 1 < w.depth w.fib.currentThread
  | .resume _ =>
      (∃ c call, w.pc w.fib.currentThread = .cvUnsched c call) ∧ 1 < w.depth w.fib.currentThread
  | _ => False

/-- The event makes the thread runnable. -/
def Wakes (w : World Tid Lwp Cv) : Event Tid Cv → Tid → Prop
  | .cvSignal c, t => (w.fib.waithead (.cv c)).head? = some t
  | .cvBroadcast c, t => t ∈ w.fib.waithead (.cv c)
  | .cpu (.wake u), t => t = u
  | .cpu (.expire tm u), t => t = u ∧ isRunnable (expire tm w.fib.tcb u) u = true
  | _, _ => False

/-- A thread goes into `bmk_sched` with the mutex in hand only when no other is due to take it back, and
    a thread is made due only when no suspended thread holds the mutex. -/
def Orderly (w : World Tid Lwp Cv) (e : Event Tid Cv) : Prop :=
  (GivesUp w e → ∀ t, t ≠ w.fib.currentThread → ¬ Due w t) ∧
    ∀ t, Wakes w e t → (w.pc t).reacquires = true → ¬ HeldAside w t

/-- The invariant of orderly runs. -/
structure Safe (w : World Tid Lwp Cv) : Prop where
  apart : ∀ t, Due w t → ¬ HeldAside w t
  noPanic : w.halted ≠ some .reacquire

variable {w : World Tid Lwp Cv}

omit [DecidableEq Cv] in
theorem site_of_reacquires_mtx {p : Pc Cv} (h : p.reacquires = true) : p.site ≠ some .mtx := by
  cases p <;> simp [Pc.reacquires, Pc.site] at h ⊢

namespace Safe

omit [DecidableEq Tid] [DecidableEq Lwp] [DecidableEq Cv] in
/-- Fewer threads are due, and the mutex is held aside in fewer ways. -/
theorem mono {w' : World Tid Lwp Cv} (h : Safe w) (hdue : ∀ t, Due w' t → Due w t)
    (hheld : ∀ t, HeldAside w' t → HeldAside w t) (hhalt : w'.halted = w.halted) : Safe w' :=
  ⟨fun t ht haside => h.apart t (hdue t ht) (hheld t haside), by rw [hhalt]; exact h.noPanic⟩

omit [DecidableEq Tid] [DecidableEq Lwp] [DecidableEq Cv] in
theorem setNwaiters (h : Safe w) (nwaiters : Cv → Int) : Safe { w with nwaiters := nwaiters } :=
  h.mono (fun _ ht => ht) (fun _ ht => ht) rfl

omit [DecidableEq Lwp] [DecidableEq Cv] in
theorem goto (h : Safe w) {p : Pc Cv} (hp : p.reacquires = false) : Safe (goto w p) := by
  refine h.mono ?_ (fun _ ht => ht) rfl
  rintro t ⟨hpc, hrun⟩
  have hcur : t ≠ w.fib.currentThread := by
    rintro rfl
    simp [Mutex.goto, hp] at hpc
  exact ⟨by simpa only [Mutex.goto, Function.update_of_ne hcur] using hpc, hrun⟩

omit [DecidableEq Lwp] [DecidableEq Cv] in
/-- The running thread has just entered, and it is running. -/
theorem entered (h : Safe w) (hrun : w.fib.scheduling = false)
    (others : ∀ t, t ≠ w.fib.currentThread → w.depth t = 0) : Safe (entered w) := by
  refine ⟨?_, h.noPanic⟩
  rintro t - ⟨u, -, hpos, haside⟩
  by_cases hcur : u = w.fib.currentThread
  · have hsched : w.fib.scheduling = true := haside hcur
    rw [hrun] at hsched
    cases hsched
  · simp only [Mutex.entered, Function.update_of_ne hcur, others u hcur] at hpos
    exact absurd hpos (Nat.lt_irrefl 0)

omit [DecidableEq Lwp] [DecidableEq Cv] in
theorem depth_exit_le {t : Tid}
    (hpos : 0 < Function.update w.depth w.fib.currentThread (w.depth w.fib.currentThread - 1) t) :
    0 < w.depth t := by
  by_cases hcur : t = w.fib.currentThread
  · subst hcur
    rw [Function.update_self] at hpos
    omega
  · rwa [Function.update_of_ne hcur] at hpos

omit [DecidableEq Lwp] in
theorem exit (h : Safe w) (hinv : Inv w) (hholds : 0 < w.depth w.fib.currentThread) :
    Safe (rumpuserMutexExit w) := by
  rcases exit_cases hinv.owned hholds with ⟨-, heq⟩ | ⟨-, heq⟩
  · rw [heq]
    refine h.mono ?_ ?_ rfl
    · rintro t ⟨hpc, hrun⟩
      refine ⟨hpc, ?_⟩
      rcases (isRunnable_wakeupOne w.fib .mtx t).mp hrun with hhead | hold
      · -- the thread that was woken waits in `rumpuser_mutex_enter`
        have hmem := List.mem_of_mem_head? (Option.mem_def.mpr hhead)
        exact absurd ((hinv.queues.member .mtx t).mp hmem).1 (site_of_reacquires_mtx hpc)
      · exact hold
    · rintro t ⟨u, hne, hpos, haside⟩
      refine ⟨u, hne, depth_exit_le hpos, ?_⟩
      simpa [released] using haside
  · rw [heq]
    refine h.mono (fun t ht => ht) ?_ rfl
    rintro t ⟨u, hne, hpos, haside⟩
    exact ⟨u, hne, depth_exit_le hpos, haside⟩

omit [DecidableEq Lwp] in
/-- The running thread goes to sleep without the mutex, or nobody is due. -/
theorem asleep (h : Safe w) {p : Pc Cv} {wh : Wh Cv} (now nsec : Nat)
    (hfree : 0 < w.depth w.fib.currentThread → ∀ t, t ≠ w.fib.currentThread → ¬ Due w t) :
    Safe (asleep w p wh now nsec) := by
  refine ⟨?_, h.noPanic⟩
  rintro t ⟨hpc, hrun⟩ ⟨u, hne, hpos, -⟩
  obtain ⟨hcur, hold⟩ := (isRunnable_waitBegin w.fib wh now nsec t).mp hrun
  have hdue : Due w t :=
    ⟨by simpa only [Mutex.asleep, Mutex.goto, Function.update_of_ne hcur] using hpc, hold⟩
  by_cases hu : u = w.fib.currentThread
  · subst hu
    exact hfree hpos t hcur hdue
  · exact h.apart t hdue ⟨u, hne, hpos, fun heq => absurd heq hu⟩

omit [DecidableEq Lwp] in
theorem awoken (h : Safe w) (wh : Wh Cv) : Safe (awoken w wh) := by
  refine h.mono ?_ ?_ rfl
  · rintro t ⟨hpc, hrun⟩
    have hcur : t ≠ w.fib.currentThread := by
      rintro rfl
      simp [Mutex.awoken, Mutex.goto, Pc.reacquires] at hpc
    refine ⟨by simpa only [Mutex.awoken, Mutex.goto, Function.update_of_ne hcur] using hpc, ?_⟩
    simpa [Mutex.awoken] using hrun
  · rintro t ⟨u, hne, hpos, haside⟩
    refine ⟨u, hne, hpos, ?_⟩
    simpa [Mutex.awoken] using haside

omit [DecidableEq Cv] in
theorem enter (h : Safe w) (hinv : Inv w) (hrun : w.fib.scheduling = false) :
    Safe (rumpuserMutexEnter w) := by
  unfold rumpuserMutexEnter
  rcases tryenter_cases hinv.bound hinv.owned with ⟨heq, -⟩ | ⟨heq, hothers⟩
  · rw [heq]
    exact h.goto rfl
  · rw [heq]
    exact h.entered hrun hothers

theorem enterLoop (h : Safe w) (hinv : Inv w) (hrun : w.fib.scheduling = false) (now : Nat) :
    Safe (enterLoop w now) := by
  rcases tryenter_cases hinv.bound hinv.owned with ⟨heq, u, hne, hpos⟩ | ⟨heq, hothers⟩
  · rw [enterLoop_of_none heq]
    apply h.asleep
    intro hholds
    exact absurd (hinv.owned.alone u _ hpos hholds) hne
  · rw [enterLoop_of_some heq]
    exact (h.entered hrun hothers).goto rfl

omit [DecidableEq Cv] in
/-- The heart of the matter: a thread that is due finds the mutex free or its own. -/
theorem reacquire (h : Safe w) (hinv : Inv w) (hrun : w.fib.scheduling = false)
    (hclear : ¬ HeldAside w w.fib.currentThread) {p : Pc Cv} (hp : p.reacquires = false) :
    Safe (Mutex.goto (rumpuserMutexEnterNowrap w .reacquire) p) := by
  unfold rumpuserMutexEnterNowrap
  rcases tryenter_cases hinv.bound hinv.owned with ⟨-, u, hne, hpos⟩ | ⟨heq, hothers⟩
  · exact absurd ⟨u, hne, hpos, fun heq => absurd heq hne⟩ hclear
  · rw [heq]
    exact (h.entered hrun hothers).goto hp

omit [DecidableEq Tid] [DecidableEq Lwp] [DecidableEq Cv] in
theorem due_current (hinv : Inv w) (hrun : w.fib.scheduling = false)
    (hpc : (w.pc w.fib.currentThread).reacquires = true) : Due w w.fib.currentThread :=
  ⟨hpc, hinv.queues.running hrun⟩

omit [DecidableEq Lwp] in
theorem cvSleep (h : Safe w) (hinv : Inv w) (hfrom : (w.pc w.fib.currentThread).site = none)
    (hholds : 0 < w.depth w.fib.currentThread)
    (hfree : 1 < w.depth w.fib.currentThread → ∀ t, t ≠ w.fib.currentThread → ¬ Due w t)
    (c : Cv) (call : CvCall) (now : Nat) : Safe (cvSleep w c call now) := by
  rw [cvSleep_eq]
  have hmoved : Safe (Mutex.goto w .outside) := h.goto rfl
  have hminv := hinv.moveOut hfrom
  have hout := hmoved.exit hminv hholds
  apply hout.asleep
  rcases exit_cases hminv.owned hholds with ⟨hone, heq⟩ | ⟨hmore, heq⟩
  · rw [heq]
    intro hpos
    simp [released, Mutex.goto] at hpos hone
    omega
  · rw [heq]
    rintro - t hne ⟨hpc, hrun⟩
    refine hfree hmore t hne ⟨?_, hrun⟩
    have hcur : t ≠ w.fib.currentThread := hne
    simpa only [unnested, Mutex.goto, Function.update_of_ne hcur] using hpc

theorem cvWoken (h : Safe w) (hinv : Inv w) (hrun : w.fib.scheduling = false) {c : Cv} {call : CvCall}
    (hfrom : w.pc w.fib.currentThread = .cvWait c call) : Safe (cvWoken w c call) := by
  have hclear := h.apart _ (due_current hinv hrun (by simp [hfrom, Pc.reacquires]))
  have hbase := h.awoken (.cv c)
  have hbinv : Inv (Mutex.awoken w (.cv c)) := hinv.awoken (by simp [hfrom, Pc.site])
  have hbrun : (Mutex.awoken w (.cv c)).fib.scheduling = false := by simp [Mutex.awoken, hrun]
  have hbclear : ¬ HeldAside (Mutex.awoken w (.cv c)) (Mutex.awoken w (.cv c)).fib.currentThread := by
    simpa [HeldAside, Mutex.awoken, Mutex.goto] using hclear
  have hresched : Safe (if w.mtx.flags.kmutex ∧ w.mtx.flags.spin then
      Mutex.goto (Mutex.awoken w (.cv c)) (.cvSchedFirst c)
      else Mutex.goto (rumpuserMutexEnterNowrap (Mutex.awoken w (.cv c)) .reacquire)
        (.cvSchedLast c)) := by
    split
    · refine ⟨?_, h.noPanic⟩
      rintro t ⟨hpc, hrunnable⟩ haside
      by_cases hcur : t = (Mutex.awoken w (.cv c)).fib.currentThread
      · subst hcur
        exact hbclear haside
      · refine hbase.apart t ⟨?_, hrunnable⟩ haside
        simpa only [Mutex.goto, Function.update_of_ne hcur] using hpc
    · exact hbase.reacquire hbinv hbrun hbclear rfl
  rw [cvWoken_eq]
  cases call with
  | cvWaitNowrap => exact (hbase.reacquire hbinv hbrun hbclear (p := .outside) rfl).setNwaiters _
  | cvWait => exact hresched
  | cvTimedwait sec nsec => exact hresched

theorem resume (h : Safe w) (hinv : Inv w) (hok : w.halted = none) (hrun : w.fib.scheduling = false)
    {now : Nat} (horderly : Orderly w (.resume now)) : Safe (resume w now) := by
  unfold Mutex.resume
  split
  · exact h
  · exact h.enterLoop hinv hrun now
  · rename_i hpc
    rw [enterLoop_awoken]
    refine (h.awoken .mtx).enterLoop (hinv.awoken (by simp [hpc, Pc.site])) ?_ now
    simp [Mutex.awoken, hrun]
  · exact h.goto rfl
  · rename_i c call hpc
    refine h.cvSleep hinv (by simp [hpc, Pc.site]) (hinv.within hok _ (by simp [hpc, Pc.mustHold])) ?_
      c call now
    intro hmore
    exact horderly.1 ⟨⟨c, call, hpc⟩, hmore⟩
  · rename_i c call hpc
    exact h.cvWoken hinv hrun hpc
  · rename_i c hpc
    have hclear := h.apart _ (due_current hinv hrun (by simp [hpc, Pc.reacquires]))
    exact (h.reacquire hinv hrun hclear (p := .outside) rfl).setNwaiters _
  · exact (h.goto (p := .outside) rfl).setNwaiters _

omit [DecidableEq Tid] [DecidableEq Lwp] [DecidableEq Cv] in
/-- Threads are made runnable in an orderly way. -/
theorem woken (h : Safe w) {fib : Fibers Tid (Wh Cv)}
    (hcur : fib.currentThread = w.fib.currentThread) (hsched : fib.scheduling = w.fib.scheduling)
    (hrun : ∀ t, isRunnable fib.tcb t = true → isRunnable w.fib.tcb t = true ∨
      ((w.pc t).reacquires = true → ¬ HeldAside w t)) : Safe { w with fib := fib } := by
  refine ⟨?_, h.noPanic⟩
  rintro t ⟨hpc, hrunnable⟩ ⟨u, hne, hpos, haside⟩
  have haside' : HeldAside w t := by
    refine ⟨u, hne, hpos, fun heq => ?_⟩
    rw [← hsched]
    exact haside (heq.trans hcur.symm)
  rcases hrun t hrunnable with hold | hnew
  · exact h.apart t ⟨hpc, hold⟩ haside'
  · exact hnew hpc haside'

omit [DecidableEq Lwp] [DecidableEq Cv] in
theorem cpu (h : Safe w) {e : CpuEvent Tid} (henabled : cpuEnabled w.fib e = true)
    (horderly : Orderly w (.cpu e)) : Safe { w with fib := cpuEffect w.fib e } := by
  cases e with
  | sleep wakeupTime =>
      refine ⟨?_, h.noPanic⟩
      rintro t ⟨hpc, hrun⟩ ⟨u, hne, hpos, -⟩
      simp only [cpuEffect, isRunnable_setwakeup, isRunnable_block] at hrun
      by_cases hu : u = w.fib.currentThread
      · subst hu
        exact horderly.1 hpos t hrun.1 ⟨hpc, hrun.2⟩
      · exact h.apart t ⟨hpc, hrun.2⟩ ⟨u, hne, hpos, fun heq => absurd heq hu⟩
  | yield =>
      refine ⟨?_, h.noPanic⟩
      rintro t hdue ⟨u, hne, hpos, -⟩
      by_cases hu : u = w.fib.currentThread
      · subst hu
        exact horderly.1 hpos t (Ne.symm hne) hdue
      · exact h.apart t hdue ⟨u, hne, hpos, fun heq => absurd heq hu⟩
  | dispatch next =>
      simp only [cpuEnabled, Bool.and_eq_true] at henabled
      refine h.mono (fun _ ht => ht) ?_ rfl
      rintro t ⟨u, hne, hpos, -⟩
      exact ⟨u, hne, hpos, fun _ => henabled.1⟩
  | wake u =>
      refine h.woken rfl rfl ?_
      intro t ht
      rcases (isRunnable_wake w.fib.tcb u t).mp ht with heq | hold
      · exact Or.inr (horderly.2 t heq)
      · exact Or.inl hold
  | expire tm u =>
      refine h.woken rfl rfl ?_
      intro t ht
      by_cases heq : t = u
      · subst heq
        exact Or.inr (horderly.2 t ⟨rfl, ht⟩)
      · refine Or.inl ?_
        simp only [cpuEffect, RumpBaremetal.expire] at ht
        split at ht
        · rw [isRunnable, bmkSchedWake_of_ne _ heq, setFlags_of_ne _ heq] at ht
          exact ht
        · exact ht

end Safe

theorem safe_step {w' : World Tid Lwp Cv} {e : Event Tid Cv} (hinv : Inv w) (h : Safe w)
    (horderly : Orderly w e) (hstep : step w e = some w') : Safe w' := by
  obtain ⟨hok, henabled, rfl⟩ := step_inv hstep
  cases e with
  | enter => exact h.enter hinv (runsAt_inv henabled).1
  | tryenter =>
      rcases tryenter_cases hinv.bound hinv.owned with ⟨heq, -⟩ | ⟨heq, hothers⟩
      · simp only [effect, heq, Option.getD_none]
        exact h
      · simp only [effect, heq, Option.getD_some]
        exact h.entered (runsAt_inv henabled).1 hothers
  | enterNowrap =>
      simp only [effect, rumpuserMutexEnterNowrap]
      rcases tryenter_cases hinv.bound hinv.owned with ⟨heq, -⟩ | ⟨heq, hothers⟩
      · simp only [heq]
        exact ⟨h.apart, by simp⟩
      · simp only [heq]
        exact h.entered (runsAt_inv henabled).1 hothers
  | exit => exact h.exit hinv (holds_inv henabled).2.2
  | cvCall c call now =>
      obtain ⟨-, hpc, hholds⟩ := holds_inv henabled
      have hcount := h.setNwaiters (Function.update w.nwaiters c (w.nwaiters c + 1))
      cases call with
      | cvWaitNowrap =>
          exact hcount.cvSleep (hinv.setNwaiters _) (by simp [hpc, Pc.site]) hholds horderly.1 c _ now
      | cvWait => exact hcount.goto rfl
      | cvTimedwait sec nsec => exact hcount.goto rfl
  | cvSignal c =>
      refine h.woken (by simp) (by simp) ?_
      intro t ht
      rcases (isRunnable_wakeupOne w.fib (.cv c) t).mp ht with hhead | hold
      · exact Or.inr (horderly.2 t hhead)
      · exact Or.inl hold
  | cvBroadcast c =>
      refine h.woken (by simp [wakeupAll_eq]) (by simp [wakeupAll_eq]) ?_
      intro t ht
      rw [wakeupAll_eq] at ht
      rcases (isRunnable_foldl_wake _ w.fib.tcb t).mp ht with hmem | hold
      · exact Or.inr (horderly.2 t hmem)
      · exact Or.inl hold
  | resume now =>
      simp only [enabled, Bool.and_eq_true, Bool.not_eq_eq_eq_not, Bool.not_true] at henabled
      exact h.resume hinv hok henabled.1 horderly
  | cpu e => exact h.cpu (cpuAllowed_inv henabled).1 horderly

/-! ### The condition is exact -/

/-- The run can be continued to the panic of a woken waiter. -/
def Panics (w : World Tid Lwp Cv) : Prop :=
  ∃ events w', run step w events = some w' ∧ w'.halted = some .reacquire

theorem Panics.cons {w' : World Tid Lwp Cv} {e : Event Tid Cv} (hstep : step w e = some w')
    (h : Panics w') : Panics w := by
  obtain ⟨events, w'', hrun, hhalt⟩ := h
  exact ⟨e :: events, w'', by simp only [run, hstep]; exact hrun, hhalt⟩

theorem Panics.last {w' : World Tid Lwp Cv} {e : Event Tid Cv} (hstep : step w e = some w')
    (h : w'.halted = some .reacquire) : Panics w :=
  .cons hstep ⟨[], w', rfl, h⟩

omit [DecidableEq Cv] in
theorem tryenter_eq_none (hinv : Inv w) {h : Tid} (hne : h ≠ w.fib.currentThread)
    (hpos : 0 < w.depth h) : tryenter w = none := by
  rcases tryenter_cases hinv.bound hinv.owned with ⟨heq, -⟩ | ⟨-, hothers⟩
  · exact heq
  · rw [hothers h hne] at hpos
    exact absurd hpos (Nat.lt_irrefl 0)

theorem step_resume (hok : w.halted = none) (hrun : w.fib.scheduling = false)
    (hpc : w.pc w.fib.currentThread ≠ .outside) (now : Nat) :
    step w (.resume now) = some (resume w now) := by
  simp [step, enabled, hok, hrun, hpc, effect]

/-- The thread is running behind `rumpkern_sched` or `wait`, and another one holds the mutex. -/
theorem running_panics (hinv : Inv w) (hok : w.halted = none) (hrun : w.fib.scheduling = false)
    (hpc : (w.pc w.fib.currentThread).reacquires = true) {h : Tid} (hne : h ≠ w.fib.currentThread)
    (hpos : 0 < w.depth h) : Panics w := by
  have hfirst : ∀ {w : World Tid Lwp Cv} {c}, Inv w → w.halted = none → w.fib.scheduling = false →
      w.pc w.fib.currentThread = .cvSchedFirst c → h ≠ w.fib.currentThread → 0 < w.depth h →
      Panics w := by
    intro w c hinv hok hrun hpc hne hpos
    refine .last (step_resume hok hrun (by simp [hpc]) 0) ?_
    simp only [resume, hpc, rumpuserMutexEnterNowrap, tryenter_eq_none hinv hne hpos]
    rfl
  cases hplace : w.pc w.fib.currentThread with
  | cvSchedFirst c => exact hfirst hinv hok hrun hplace hne hpos
  | cvWait c call =>
      have hstep := step_resume hok hrun (by simp [hplace]) 0
      have hnone : tryenter (awoken w (.cv c)) = none := by
        refine tryenter_eq_none (hinv.awoken (by simp [hplace, Pc.site])) (h := h) ?_ hpos
        simpa [awoken] using hne
      have hinv' := inv_step hinv (.of_not rfl) hstep
      simp only [resume, hplace, cvWoken_eq, rumpuserMutexEnterNowrap, hnone] at hstep hinv'
      cases call with
      | cvWaitNowrap => exact .last hstep rfl
      | cvWait | cvTimedwait sec nsec =>
          dsimp only at hstep hinv'
          split at hstep
          · rename_i hspin
            rw [if_pos hspin] at hinv'
            refine .cons hstep (hfirst (c := c) hinv' hok ?_ ?_ ?_ hpos)
            · simp [goto, awoken, hrun]
            · simp [goto, awoken]
            · simpa [goto, awoken] using hne
          · exact .last hstep rfl
  | outside | enterUnsched | enterWait | enterSched | cvUnsched c call | cvSchedLast c =>
      simp [hplace, Pc.reacquires] at hpc

/-- The processor is free to choose a thread that is due. -/
theorem dispatched_panics (hinv : Inv w) (hok : w.halted = none) (hsched : w.fib.scheduling = true)
    {t h : Tid} (hdue : Due w t) (hne : h ≠ t) (hpos : 0 < w.depth h) : Panics w := by
  have hstep : step w (.cpu (.dispatch t)) =
      some { w with fib := cpuEffect w.fib (.dispatch t) } := by
    simp [step, enabled, cpuAllowed, cpuEnabled, hok, hsched, hdue.2, effect]
  exact .cons hstep (running_panics (inv_step hinv (.of_not rfl) hstep) hok rfl hdue.1 hne hpos)

/-- Once a thread is due while a suspended one holds the mutex, the panic can be reached. -/
theorem due_panics (hinv : Inv w) (hok : w.halted = none) {t : Tid} (hdue : Due w t)
    (haside : HeldAside w t) : Panics w := by
  obtain ⟨h, hne, hpos, hsusp⟩ := haside
  cases hsched : w.fib.scheduling with
  | true => exact dispatched_panics hinv hok hsched hdue hne hpos
  | false =>
      have hcur : h ≠ w.fib.currentThread := by
        intro heq
        rw [hsusp heq] at hsched
        cases hsched
      by_cases htcur : t = w.fib.currentThread
      · subst htcur
        exact running_panics hinv hok hsched hdue.1 hcur hpos
      · cases hsite : (w.pc w.fib.currentThread).site with
        | none =>
            have hstep : step w (.cpu .yield) = some { w with fib := cpuEffect w.fib .yield } := by
              simp [step, enabled, cpuAllowed, cpuEnabled, hok, hsched, hsite, effect]
            exact .cons hstep (dispatched_panics (inv_step hinv (.of_not rfl) hstep) hok rfl hdue hne hpos)
        | some wh =>
            cases wh with
            | mtx =>
                -- the running thread finds the mutex held and goes back to sleep
                have hplace := eq_enterWait_of_site hsite
                have hstep := step_resume hok hsched (by simp [hplace]) 0
                have hinv' := inv_step hinv (.of_not rfl) hstep
                have hnone : tryenter (awoken w .mtx) = none := by
                  refine tryenter_eq_none (hinv.awoken hsite) (h := h) ?_ hpos
                  simpa [awoken] using hcur
                have hnext : resume w 0 = asleep (awoken w .mtx) .enterWait .mtx 0 0 := by
                  simp only [resume, hplace]
                  rw [enterLoop_awoken, enterLoop_of_none hnone]
                rw [hnext] at hstep hinv'
                refine .cons hstep (dispatched_panics hinv' hok rfl (t := t) ⟨?_, ?_⟩ hne hpos)
                · have hpc := hdue.1
                  simpa [asleep, goto, awoken, Function.update_of_ne htcur] using hpc
                · refine (isRunnable_waitBegin _ _ _ _ t).mpr ⟨?_, ?_⟩
                  · simpa [awoken] using htcur
                  · simpa [awoken] using hdue.2
            | cv c =>
                refine running_panics hinv hok hsched ?_ hcur hpos
                cases hplace : w.pc w.fib.currentThread <;>
                  simp [hplace, Pc.site, Pc.reacquires] at hsite ⊢

omit [DecidableEq Lwp] in
theorem cvSleep_nested (hinv : Inv w) (hmore : 1 < w.depth w.fib.currentThread) (c : Cv)
    (call : CvCall) (now : Nat) :
    cvSleep w c call now = asleep (unnested w) (.cvWait c call) (.cv c) now call.waitNsec := by
  rcases exit_cases hinv.owned (by omega) with ⟨hone, -⟩ | ⟨-, heq⟩
  · omega
  · simp only [cvSleep, heq]

/-- A nested holder goes to sleep on a condition variable while another thread is due. -/
theorem cvSleep_panics {w' : World Tid Lwp Cv} (hinv : Inv w) (hok : w.halted = none)
    (hmore : 1 < w.depth w.fib.currentThread) (c : Cv) (call : CvCall) (now : Nat) (hinv' : Inv w')
    (heq : w' = cvSleep w c call now) {t : Tid} (hne : t ≠ w.fib.currentThread) (hdue : Due w t) :
    Panics w' := by
  rw [cvSleep_nested hinv hmore] at heq
  subst heq
  refine due_panics hinv' hok (t := t) ⟨?_, ?_⟩ ⟨w.fib.currentThread, Ne.symm hne, ?_, fun _ => rfl⟩
  · have hpc := hdue.1
    simpa only [asleep, goto, unnested, Function.update_of_ne hne] using hpc
  · exact (isRunnable_waitBegin _ _ _ _ t).mpr ⟨hne, hdue.2⟩
  · simp only [asleep, goto, unnested, Function.update_self]
    omega

/-- A step that is not orderly can be continued to the panic. -/
theorem not_orderly_panics {w' : World Tid Lwp Cv} {e : Event Tid Cv} (hinv : Inv w)
    (hstep : step w e = some w') (hnot : ¬ Orderly w e) : Panics w' := by
  have hnests : Nests w e := by
    refine .of_not ?_
    cases e with
    | enter | tryenter | enterNowrap => exact absurd ⟨fun h => h.elim, fun _ h => h.elim⟩ hnot
    | _ => rfl
  have hinv' := inv_step hinv hnests hstep
  obtain ⟨hok, henabled, heff⟩ := step_inv hstep
  have hwhy : (GivesUp w e ∧ ∃ t, t ≠ w.fib.currentThread ∧ Due w t) ∨
      ∃ t, Wakes w e t ∧ (w.pc t).reacquires = true ∧ HeldAside w t := by
    by_contra hno
    push Not at hno
    exact hnot ⟨fun hgives t hne hdue => hno.1 hgives t hne hdue, fun t => hno.2 t⟩
  rcases hwhy with ⟨hgives, t, hne, hdue⟩ | ⟨t, hwakes, hpc, haside⟩
  · cases e with
    | cpu e =>
        subst heff
        cases e with
        | sleep wakeupTime =>
            refine due_panics hinv' hok (t := t) ⟨hdue.1, ?_⟩
              ⟨w.fib.currentThread, Ne.symm hne, hgives, fun _ => rfl⟩
            simp only [effect, cpuEffect, isRunnable_setwakeup, isRunnable_block]
            exact ⟨hne, hdue.2⟩
        | yield =>
            exact due_panics hinv' hok hdue ⟨w.fib.currentThread, Ne.symm hne, hgives, fun _ => rfl⟩
        | dispatch _ | wake _ | expire _ _ => exact hgives.elim
    | cvCall c call now =>
        cases call with
        | cvWaitNowrap =>
            have hcount := hinv.setNwaiters (Function.update w.nwaiters c (w.nwaiters c + 1))
            exact cvSleep_panics hcount hok hgives c _ now hinv' heff hne hdue
        | cvWait | cvTimedwait _ _ => exact hgives.elim
    | resume now =>
        obtain ⟨⟨c, call, hplace⟩, hmore⟩ := hgives
        refine cvSleep_panics hinv hok hmore c call now hinv' ?_ hne hdue
        rw [heff]
        simp only [effect, resume, hplace]
    | enter | tryenter | enterNowrap | exit | cvSignal _ | cvBroadcast _ => exact hgives.elim
  · subst heff
    cases e with
    | cvSignal c =>
        refine due_panics hinv' hok (t := t) ⟨hpc, ?_⟩ ?_
        · exact (isRunnable_wakeupOne w.fib (.cv c) t).mpr (Or.inl hwakes)
        · simpa [HeldAside, effect] using haside
    | cvBroadcast c =>
        refine due_panics hinv' hok (t := t) ⟨hpc, ?_⟩ ?_
        · simp only [effect, wakeupAll_eq]
          exact (isRunnable_foldl_wake _ w.fib.tcb t).mpr (Or.inl hwakes)
        · simpa [HeldAside, effect, wakeupAll_eq] using haside
    | cpu e =>
        cases e with
        | wake u =>
            refine due_panics hinv' hok (t := t) ⟨hpc, ?_⟩ haside
            exact (isRunnable_wake w.fib.tcb u t).mpr (Or.inl hwakes)
        | expire tm u =>
            obtain ⟨rfl, hrun⟩ := hwakes
            exact due_panics hinv' hok (t := t) ⟨hpc, hrun⟩ haside
        | sleep _ | yield | dispatch _ => exact hwakes.elim
    | enter | tryenter | enterNowrap | exit | cvCall _ _ _ | resume _ => exact hwakes.elim

/-! ### Runs -/

/-- In every run whose steps are all orderly, and keep the nesting count in range, a woken waiter finds the
    mutex free or its own; and the first step that is not orderly opens the way to the panic. -/
theorem cv_reacquire_never_panics {flags : MtxFlags} {tls : Tid → Option Lwp} (bound : Bound tls)
    {tcb : Tcbs Tid} {running : Tid} {events : List (Event Tid Cv)} {w : World Tid Lwp Cv}
    (hmeets : Meets step Orderly (rumpuserMutexInit flags tls tcb running) events)
    (hnests : Meets step Nests (rumpuserMutexInit flags tls tcb running) events)
    (hrun : run step (rumpuserMutexInit flags tls tcb running) events = some w) :
    w.halted ≠ some .reacquire ∧ ∀ e w', step w e = some w' → ¬ Orderly w e → Panics w' := by
  have hsafe : Inv w ∧ Safe w :=
    run_invariant_of_meets (I := fun w => Inv w ∧ Safe w)
      (fun _ _ _ h hcond hstep => ⟨inv_step h.1 hcond.2 hstep, safe_step h.1 h.2 hcond.1 hstep⟩)
      ⟨Inv.init flags bound tcb running, ⟨by simp [Due, rumpuserMutexInit, Pc.reacquires],
        by simp [rumpuserMutexInit]⟩⟩ (hmeets.and hnests) hrun
  exact ⟨hsafe.2.noPanic, fun e w' hstep hnot => not_orderly_panics hsafe.1 hstep hnot⟩

/-- Thread 0 waits; thread 1 signals with the mutex in hand, leaves it and gives up the processor only
    then; thread 0 takes the mutex back. -/
theorem cv_reacquire_never_panics_signal :
    ∃ w : World Nat Nat Unit, run step (rumpuserMutexInit ⟨false, false⟩ some awake 0)
        [.enter, .cvCall () .cvWait 0, .resume 0, .cpu (.dispatch 1), .enter, .cvSignal (), .exit,
          .cpu .yield, .cpu (.dispatch 0), .resume 0] = some w ∧
      w.mtx.o = some 0 ∧ w.halted ≠ some .reacquire ∧
      ∀ e w', step w e = some w' → ¬ Orderly w e → Panics w' := by
  have hquiet : ∀ {w : World Nat Nat Unit} {e}, (∀ h : GivesUp w e, False) → (∀ t, ¬ Wakes w e t) →
      Orderly w e := fun hgives hwakes => ⟨fun h => (hgives h).elim, fun t h => (hwakes t h).elim⟩
  refine ⟨_, rfl, rfl, @cv_reacquire_never_panics _ _ _ _ _ _ ⟨false, false⟩ some bound_some awake 0
    [.enter, .cvCall () .cvWait 0, .resume 0, .cpu (.dispatch 1), .enter, .cvSignal (), .exit,
      .cpu .yield, .cpu (.dispatch 0), .resume 0] _ ?_ (by decide) rfl⟩
  refine .cons (hquiet id fun _ => id) rfl ?_
  refine .cons (hquiet id fun _ => id) rfl ?_
  refine .cons (hquiet (fun h => absurd h.2 (by decide)) fun _ => id) rfl ?_
  refine .cons (hquiet id fun _ => id) rfl ?_
  refine .cons (hquiet id fun _ => id) rfl ?_
  refine .cons ⟨fun h => h.elim, ?_⟩ rfl ?_
  · -- the signaller holds the mutex, and it is running
    rintro t - - ⟨h, -, hpos, hsusp⟩
    by_cases hone : h = 1
    · exact absurd (hsusp hone) (by decide)
    · by_cases hzero : h = 0
      · subst hzero
        exact absurd hpos (by decide)
      · simp [rumpuserMutexEnter, tryenter, rumpuserMutexTryenter, rumpuserMutexInit, cvCall, resume,
          cvSleep, asleep, rumpuserMutexExit, goto, cpuEffect, effect, waitBegin, wakeupOne, hone] at hpos
  refine .cons (hquiet id fun _ => id) rfl ?_
  refine .cons (hquiet (fun h => Nat.lt_irrefl 0 h) fun _ => id) rfl ?_
  refine .cons (hquiet id fun _ => id) rfl ?_
  refine .cons (hquiet (fun h => ?_) fun _ => id) rfl trivial
  obtain ⟨⟨c, call, hpc⟩, -⟩ := h
  cases hpc

/-- A holder that blocks elsewhere after it has signalled: the woken waiter runs into the panic. -/
theorem cv_reacquire_panics :
    ¬ ∀ (events : List (Event Nat Unit)) (w : World Nat Nat Unit),
      run step (rumpuserMutexInit ⟨false, false⟩ some awake 0) events = some w →
        w.halted ≠ some .reacquire := by
  intro always
  exact always [.enter, .cvCall () .cvWait 0, .resume 0, .cpu (.dispatch 1), .enter, .cvSignal (),
    .cpu (.sleep 1000), .cpu (.dispatch 0), .resume 0] _ rfl rfl

end RumpBaremetal.Mutex
