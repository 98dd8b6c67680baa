/-
Module: RumpBaremetal.Proofs.MutexSleep
Layer: Proofs
Purpose: The machine of one mutex is a part of the machine of all wait heads.  A run of the former that has
  neither failed an assertion nor panicked is a run of the latter, in which the threads make the same calls
  on one mutex and its condition variables; `rumpuser_mutex_enter` is there what it is in the source,
  attempts to enter and calls of `wait` in between.  So what is known of the sleep queues in general holds
  for the waiters of the mutex.
Trusted boundary: none (fully proved)
Main exports: Fibers.select, Mutex.Wh.among, Mutex.Pc.frames, Mutex.Among, Mutex.among_step,
  Mutex.mutex_run_sleeps, Mutex.mutex_nwaiters
-/
import RumpBaremetal.Proofs.CvOrder
import RumpBaremetal.Proofs.Sleep

namespace RumpBaremetal

open StepSystem

/-! ### Some of the wait heads -/

section Select

variable {Tid Wh Wh' : Type*}

/-- The threads and the wait heads that `f` names. -/
def Fibers.select (f : Wh' → Wh) (s : Fibers Tid Wh) : Fibers Tid Wh' where
  currentThread := s.currentThread
  scheduling := s.scheduling
  tcb := s.tcb
  waithead := fun wh => s.waithead (f wh)
  onlist := s.onlist

variable [DecidableEq Tid] [DecidableEq Wh] [DecidableEq Wh'] {f : Wh' → Wh}

omit [DecidableEq Tid] in
theorem select_update (hf : Function.Injective f) (waithead : Wh → List Tid) (wh : Wh') (queue : List Tid) :
    (fun wh' => Function.update waithead (f wh) queue (f wh')) =
      Function.update (fun wh' => waithead (f wh')) wh queue := by
  funext wh'
  by_cases h : wh' = wh
  · rw [h, Function.update_self, Function.update_self]
  · rw [Function.update_of_ne (hf.ne h), Function.update_of_ne h]

theorem select_waitBegin (hf : Function.Injective f) (s : Fibers Tid Wh) (wh : Wh') (now nsec : Nat) :
    (waitBegin s (f wh) now nsec).select f = waitBegin (s.select f) wh now nsec := by
  simp only [waitBegin, Fibers.select, select_update hf]

theorem select_waitEnd (hf : Function.Injective f) (s : Fibers Tid Wh) (wh : Wh') :
    (waitEnd s (f wh)).select f = waitEnd (s.select f) wh := by
  unfold waitEnd
  by_cases hon : s.onlist s.currentThread = true
  · rw [if_pos hon, if_pos (show (s.select f).onlist (s.select f).currentThread = true from hon)]
    simp only [Fibers.select, select_update hf]
  · rw [if_neg hon, if_neg (show ¬(s.select f).onlist (s.select f).currentThread = true from hon)]

theorem select_wakeupOne (hf : Function.Injective f) (s : Fibers Tid Wh) (wh : Wh') :
    (wakeupOne s (f wh)).select f = wakeupOne (s.select f) wh := by
  unfold wakeupOne
  have hqueue : (s.select f).waithead wh = s.waithead (f wh) := rfl
  rw [hqueue]
  cases s.waithead (f wh) with
  | nil => rfl
  | cons who rest => simp only [Fibers.select, select_update hf]

theorem select_wakeupAll (hf : Function.Injective f) (s : Fibers Tid Wh) (wh : Wh') :
    (wakeupAll s (f wh)).select f = wakeupAll (s.select f) wh := by
  rw [wakeupAll_eq, wakeupAll_eq]
  simp only [Fibers.select, select_update hf]
  rfl

omit [DecidableEq Wh] [DecidableEq Wh'] in
theorem select_cpuEffect (s : Fibers Tid Wh) (e : CpuEvent Tid) :
    (cpuEffect s e).select f = cpuEffect (s.select f) e := by
  cases e <;> rfl

omit [DecidableEq Tid] [DecidableEq Wh] [DecidableEq Wh'] in
theorem cpuAllowed_select (s : Fibers Tid Wh) (site : Option Wh') (e : CpuEvent Tid) :
    cpuAllowed s (site.map f) e = cpuAllowed (s.select f) site e := by
  cases e <;> simp [cpuAllowed, cpuEnabled, Fibers.select]

end Select

namespace Mutex

variable {Tid Lwp Cv Head : Type*}

/-! ### The mutex among the wait heads -/

/-- The wait heads of the mutex and its condition variables. -/
def Wh.among : Wh Cv → Sleep.Wh Unit Cv Head
  | .mtx => .lock (.mtx ())
  | .cv c => .cv c

theorem among_injective : Function.Injective (Wh.among : Wh Cv → Sleep.Wh Unit Cv Head) := by
  intro wh wh' h
  cases wh <;> cases wh' <;> simp_all [Wh.among]

/-- The calls that a thread is inside of.  Those of `rumpuser_mutex_enter` outside `wait` are no calls
    there. -/
def Pc.frames : Pc Cv → List (Sleep.Frame Unit Cv Head)
  | .outside | .enterUnsched | .enterSched => []
  | .enterWait => [.wait (.mtx ())]
  | .cvUnsched c call => [.cvRelease c () call]
  | .cvWait c call => [.cvWait c () call]
  | .cvSchedFirst c => [.cvSchedFirst c ()]
  | .cvSchedLast c => [.cvSchedLast c]

theorem frames_site (pc : Pc Cv) :
    (pc.frames : List (Sleep.Frame Unit Cv Head)).head?.bind Sleep.Frame.site = pc.site.map Wh.among := by
  cases pc <;> rfl

theorem goto_pc [DecidableEq Tid] (w : World Tid Lwp Cv) (pc : Pc Cv) :
    (goto w pc).pc (goto w pc).fib.currentThread = pc := Function.update_self _ _ _

/-- The machine of the mutex shows a part of the machine of all wait heads. -/
structure Among (w : World Tid Lwp Cv) (s : Sleep.World Tid Lwp Unit Cv Head) : Prop where
  fib : s.fib.select Wh.among = w.fib
  mtx : s.mtx () = w.mtx
  nwaiters : s.nwaiters = w.nwaiters
  tls : s.tls = w.tls
  stack : ∀ t, s.stack t = (w.pc t).frames

namespace Among

variable {w : World Tid Lwp Cv} {s : Sleep.World Tid Lwp Unit Cv Head}

theorem current (h : Among w s) : s.fib.currentThread = w.fib.currentThread :=
  congrArg Fibers.currentThread h.fib

theorem scheduling (h : Among w s) : s.fib.scheduling = w.fib.scheduling := congrArg Fibers.scheduling h.fib

theorem frames (h : Among w s) : s.stack s.fib.currentThread = (w.pc w.fib.currentThread).frames := by
  rw [h.stack, h.current]

theorem site (h : Among w s) (t : Tid) : s.site t = (w.pc t).site.map Wh.among := by
  rw [Sleep.World.site, h.stack, frames_site]

/-- A thread that is in none of the calls may make one. -/
theorem mayCall (h : Among w s) (hrun : w.fib.scheduling = false)
    (hout : (w.pc w.fib.currentThread).site = none) :
    s.mayCall = true := by
  rw [Sleep.World.mayCall, h.scheduling, h.current, h.site, hrun, hout]
  rfl

theorem mayCall_of_calls [DecidableEq Cv] (h : Among w s) (hcalls : w.calls = true) : s.mayCall = true := by
  obtain ⟨hrun, hout⟩ := runsAt_inv hcalls
  exact h.mayCall hrun (by rw [hout]; rfl)

variable [DecidableEq Tid]

/-- The running thread is at another place of its program. -/
theorem goto (h : Among w s) (pc : Pc Cv) : Among (goto w pc) (s.setFrames pc.frames) := by
  refine ⟨h.fib, h.mtx, h.nwaiters, h.tls, fun t => ?_⟩
  simp only [Mutex.goto, Sleep.World.setFrames, h.current]
  by_cases ht : t = w.fib.currentThread
  · rw [ht, Function.update_self, Function.update_self]
  · rw [Function.update_of_ne ht, Function.update_of_ne ht, h.stack]

/-- The place plays no part where the calls are the same. -/
theorem goto_same (h : Among w s) (pc : Pc Cv) (hsame : s.stack s.fib.currentThread = pc.frames) :
    Among (Mutex.goto w pc) s := by
  have hgoto := h.goto pc
  rwa [Sleep.World.setFrames, ← hsame, Function.update_eq_self] at hgoto

omit [DecidableEq Tid] in
theorem setNwaiters [DecidableEq Cv] (h : Among w s) (c : Cv) (n : Int) :
    Among { w with nwaiters := Function.update w.nwaiters c n }
      { s with nwaiters := Function.update s.nwaiters c n } :=
  ⟨h.fib, h.mtx, by rw [h.nwaiters], h.tls, h.stack⟩

omit [DecidableEq Tid] in
theorem setFib (h : Among w s) {fib : Fibers Tid (Wh Cv)} {fib' : Fibers Tid (Sleep.Wh Unit Cv Head)}
    {log : List Sleep.Mark} (hfib : fib'.select Wh.among = fib) :
    Among { w with fib := fib } { s with fib := fib', log := log } :=
  ⟨hfib, h.mtx, h.nwaiters, h.tls, h.stack⟩

variable [DecidableEq Lwp]

/-- Both enter, or neither does. -/
theorem tryenter (h : Among w s) : Option.Rel Among (tryenter w) (Sleep.tryenter s ()) := by
  have hsame : rumpuserMutexTryenter (s.mtx ()) (s.tls s.fib.currentThread) =
      rumpuserMutexTryenter w.mtx (w.tls w.fib.currentThread) := by rw [h.mtx, h.tls, h.current]
  unfold Mutex.tryenter Sleep.tryenter
  rw [hsame]
  cases rumpuserMutexTryenter w.mtx (w.tls w.fib.currentThread) with
  | none => exact .none
  | some mtx => exact .some ⟨h.fib, Function.update_self () mtx s.mtx, h.nwaiters, h.tls, h.stack⟩

variable [DecidableEq Cv]

omit [DecidableEq Cv] in
/-- The mutex is entered without a panic, from whatever place. -/
theorem enterNowrap (h : Among w s) (failed : Halt)
    (hgoing : (rumpuserMutexEnterNowrap w failed).halted = none) :
    ∃ s', Sleep.tryenter s () = some s' ∧ Among (rumpuserMutexEnterNowrap w failed) s' ∧
      s'.stack s'.fib.currentThread = s.stack s.fib.currentThread := by
  have hrel := h.tryenter
  unfold rumpuserMutexEnterNowrap at hgoing ⊢
  cases hown : Mutex.tryenter w with
  | none =>
      rw [hown] at hgoing
      cases hgoing
  | some w' =>
      rw [hown] at hrel
      obtain ⟨s', hs', hamong⟩ := rel_of_some hrel
      obtain ⟨mtx, rfl⟩ := Sleep.tryenter_inv hs'
      exact ⟨_, hs', hamong, rfl⟩

variable [DecidableEq Head]

omit [DecidableEq Lwp] in
theorem exit (h : Among w s) (hgoing : (rumpuserMutexExit w).halted = none) :
    ∃ s', Sleep.rumpuserMutexExit s () = some s' ∧ Among (rumpuserMutexExit w) s' := by
  unfold rumpuserMutexExit at hgoing ⊢
  unfold Sleep.rumpuserMutexExit
  simp only [h.mtx]
  by_cases hv : 0 < w.mtx.v
  · simp only [if_pos hv]
    by_cases hlast : w.mtx.v - 1 = 0
    · simp only [if_pos hlast]
      refine ⟨_, rfl, ?_, Function.update_self () _ s.mtx, h.nwaiters, h.tls, h.stack⟩
      rw [← h.fib]
      exact select_wakeupOne among_injective s.fib .mtx
    · simp only [if_neg hlast]
      exact ⟨_, rfl, h.fib, Function.update_self () _ s.mtx, h.nwaiters, h.tls, h.stack⟩
  · simp only [if_neg hv] at hgoing
    cases hgoing

omit [DecidableEq Lwp] in
/-- The running thread goes to sleep. -/
theorem asleep (h : Among w s) (pc : Pc Cv) (wh : Wh Cv) (now nsec : Nat) :
    Among (asleep w pc wh now nsec) (Sleep.sleepOn s wh.among pc.frames now nsec) := by
  obtain ⟨-, hmtx, hnwaiters, htls, hstack⟩ := h.goto pc
  refine ⟨?_, hmtx, hnwaiters, htls, hstack⟩
  simp only [Mutex.asleep, ← h.fib]
  exact select_waitBegin among_injective s.fib wh now nsec

omit [DecidableEq Lwp] in
theorem awoken (h : Among w s) (wh : Wh Cv) (pc : Pc Cv) :
    Among (Mutex.goto { w with fib := waitEnd w.fib wh } pc) (Sleep.endWait s wh.among pc.frames) := by
  obtain ⟨-, hmtx, hnwaiters, htls, hstack⟩ := h.goto pc
  have hcurrent : (waitEnd w.fib wh).currentThread = w.fib.currentThread := by
    unfold waitEnd
    split <;> rfl
  refine ⟨?_, hmtx, hnwaiters, htls, ?_⟩
  · simp only [Mutex.goto, ← h.fib]
    exact select_waitEnd among_injective s.fib wh
  · simp only [Mutex.goto, hcurrent]
    exact hstack

/-! ### The calls -/

/-- The loop of `rumpuser_mutex_enter`: an attempt to enter, or a call of `wait`. -/
theorem enterLoop (h : Among w s) (hrun : w.fib.scheduling = false)
    (hout : (w.pc w.fib.currentThread).site = none) (hempty : s.stack s.fib.currentThread = [])
    (now : Nat) :
    ∃ es s', run Sleep.step s es = some s' ∧ Among (enterLoop w now) s' := by
  have hmay := h.mayCall hrun hout
  have hrel := h.tryenter
  cases hown : Mutex.tryenter w with
  | none =>
      rw [enterLoop_of_none hown]
      refine ⟨[.wait (.mtx ()) 0 now], _, Sleep.run_one hmay rfl, ?_⟩
      have hframes : Pc.enterWait.frames = .wait (.mtx ()) :: s.frames := by
        rw [Sleep.World.frames, hempty]; rfl
      rw [← hframes]
      exact h.asleep .enterWait .mtx now 0
  | some w' =>
      rw [enterLoop_of_some hown]
      rw [hown] at hrel
      obtain ⟨s', hs', hamong⟩ := rel_of_some hrel
      refine ⟨[.tryenter ()], s', Sleep.run_one hmay (by rw [Sleep.effect, hs']; rfl),
        hamong.goto_same .enterSched ?_⟩
      have hstack : s'.stack = s.stack ∧ s'.fib = s.fib := by
        obtain ⟨mtx, rfl⟩ := Sleep.tryenter_inv hs'
        exact ⟨rfl, rfl⟩
      rw [hstack.1, hstack.2, hempty]
      rfl

omit [DecidableEq Lwp] in
/-- The release of the mutex and the sleep, from the frame of the condition wait. -/
theorem cvSleep (h : Among w s) {c : Cv} {call : CvCall} {f : Sleep.Frame Unit Cv Head} {now : Nat}
    (hframes : s.stack s.fib.currentThread = [f]) (hgoing : (cvSleep w c call now).halted = none) :
    ∃ s', Sleep.cvSleep s c () call now = some s' ∧ Among (cvSleep w c call now) s' := by
  obtain ⟨s', hs', hamong⟩ := h.exit hgoing
  have hframes' : s'.frames = [f] := by
    rw [Sleep.World.frames]
    obtain ⟨mtx, rfl | rfl⟩ := Sleep.exit_inv hs'
    · rw [← hframes]
      exact congrArg s.stack (wakeupOne_currentThread s.fib _)
    · exact hframes
  refine ⟨_, by rw [Sleep.cvSleep, hs']; rfl, ?_⟩
  dsimp only
  rw [hframes']
  exact hamong.asleep (.cvWait c call) (.cv c) now call.waitNsec

omit [DecidableEq Lwp] [DecidableEq Head] in
theorem cvReturn (h : Among w s) {f : Sleep.Frame Unit Cv Head}
    (hframes : s.stack s.fib.currentThread = [f]) (c : Cv) :
    Among (cvReturn w c) (Sleep.cvReturn s c) := by
  have hreturned := (h.setNwaiters c (w.nwaiters c - 1)).goto .outside
  rw [Sleep.cvReturn, Sleep.World.frames, hframes, h.nwaiters]
  rwa [h.nwaiters] at hreturned

omit [DecidableEq Head] in
/-- A condition wait behind `wait`, which takes the mutex back from the place where it would do so for a
    spin mutex. -/
theorem reacquire {c : Cv} (h : Among (Mutex.goto w (.cvSchedFirst c)) s)
    (hgoing : (rumpuserMutexEnterNowrap w .reacquire).halted = none) :
    ∃ s', Sleep.tryenter s () = some s' ∧ Among (Mutex.cvReturn (rumpuserMutexEnterNowrap w .reacquire) c)
      (Sleep.cvReturn s' c) ∧
      Among (Mutex.goto (rumpuserMutexEnterNowrap w .reacquire) (.cvSchedLast c))
        (s'.setFrames (.cvSchedLast c :: s'.frames.tail)) := by
  have hstack : s.stack s.fib.currentThread = [.cvSchedFirst c ()] := by
    rw [h.frames, goto_pc]
    rfl
  obtain ⟨s', hs', hamong, hsame⟩ := h.enterNowrap .reacquire
    ((congrArg World.halted (enterNowrap_goto (.cvSchedFirst c) .outside .reacquire)).trans hgoing)
  rw [hstack] at hsame
  refine ⟨s', hs', ?_, ?_⟩
  · rw [← cvReturn_goto (.cvSchedFirst c)]
    exact hamong.cvReturn hsame c
  · rw [← enterNowrap_goto (.cvSchedFirst c), Sleep.World.frames, hsame]
    exact hamong.goto (.cvSchedLast c)

/-- What is behind `wait` in the condition waits. -/
theorem cvWoken (h : Among w s) {c : Cv} {call : CvCall} {f : Sleep.Frame Unit Cv Head}
    (hframes : s.stack s.fib.currentThread = [f]) (hgoing : (cvWoken w c call).halted = none) :
    ∃ s', Sleep.cvWoken s c () call = some s' ∧ Among (cvWoken w c call) s' := by
  have hwoken : Among (Mutex.goto { w with fib := waitEnd w.fib (.cv c) } (.cvSchedFirst c))
      (Sleep.endWait s (.cv c) [.cvSchedFirst c ()]) := h.awoken (.cv c) (.cvSchedFirst c)
  have hflags : ((Sleep.endWait s (.cv c) [.cvSchedFirst c ()]).mtx ()).flags = w.mtx.flags :=
    congrArg RumpuserMtx.flags hwoken.mtx
  unfold Sleep.cvWoken
  rw [Sleep.World.frames, hframes, List.tail_cons]
  dsimp only
  rw [hflags]
  by_cases hnowrap : call = .cvWaitNowrap
  · subst hnowrap
    obtain ⟨s', hs', hreturn, -⟩ := hwoken.reacquire hgoing
    exact ⟨_, by rw [hs']; rfl, hreturn⟩
  · have heq : Mutex.cvWoken w c call =
        if w.mtx.flags.kmutex ∧ w.mtx.flags.spin then
          Mutex.goto { w with fib := waitEnd w.fib (.cv c) } (.cvSchedFirst c)
        else
          Mutex.goto (rumpuserMutexEnterNowrap { w with fib := waitEnd w.fib (.cv c) } .reacquire)
            (.cvSchedLast c) := by
      cases call with
      | cvWaitNowrap => exact absurd rfl hnowrap
      | cvWait | cvTimedwait => rfl
    by_cases hspin : w.mtx.flags.kmutex = true ∧ w.mtx.flags.spin = true
    · rw [if_pos hspin] at heq
      rw [heq]
      refine ⟨_, ?_, hwoken⟩
      cases call with
      | cvWaitNowrap => exact absurd rfl hnowrap
      | cvWait | cvTimedwait => exact if_pos hspin
    · rw [if_neg hspin] at heq
      rw [heq] at hgoing ⊢
      obtain ⟨s', hs', -, hlast⟩ := hwoken.reacquire hgoing
      refine ⟨_, ?_, hlast⟩
      cases call with
      | cvWaitNowrap => exact absurd rfl hnowrap
      | cvWait | cvTimedwait =>
          simp only [if_neg hspin, hs']
          rfl

omit [DecidableEq Lwp] in
theorem cvCall (h : Among w s) (hcalls : w.calls = true) {c : Cv} {call : CvCall} {now : Nat}
    (hgoing : (cvCall w c call now).halted = none) :
    ∃ s', Sleep.cvCall s c () call now = some s' ∧ Among (cvCall w c call now) s' := by
  have hempty : s.stack s.fib.currentThread = [] := by
    rw [h.frames, (runsAt_inv hcalls).2]
    rfl
  have hcounted :
      Among
        (Mutex.goto { w with nwaiters := Function.update w.nwaiters c (w.nwaiters c + 1) }
          (.cvUnsched c call))
        { s.setFrames [.cvRelease c () call] with
          nwaiters := Function.update s.nwaiters c (s.nwaiters c + 1) } := by
    rw [show s.nwaiters c + 1 = w.nwaiters c + 1 by rw [h.nwaiters]]
    exact (h.setNwaiters c (w.nwaiters c + 1)).goto (.cvUnsched c call)
  unfold Sleep.cvCall
  rw [Sleep.World.frames, hempty]
  cases call with
  | cvWaitNowrap =>
      have hstack := hcounted.frames
      rw [goto_pc] at hstack
      have hsame :=
        cvSleep_goto (w := { w with nwaiters := Function.update w.nwaiters c (w.nwaiters c + 1) })
          (.cvUnsched c .cvWaitNowrap) c .cvWaitNowrap now
      obtain ⟨s', hs', hamong⟩ := hcounted.cvSleep hstack ((congrArg World.halted hsame).trans hgoing)
      rw [hsame] at hamong
      exact ⟨s', hs', hamong⟩
  | cvWait | cvTimedwait => exact ⟨_, rfl, hcounted⟩

/-- The running thread goes on inside its call. -/
theorem resume (h : Among w s) (hrun : w.fib.scheduling = false) {now : Nat}
    (hgoing : (resume w now).halted = none) :
    ∃ es s', run Sleep.step s es = some s' ∧ Among (resume w now) s' := by
  have hframes := h.frames
  have hmay : Sleep.enabled s (.resume now) = true := by
    rw [Sleep.enabled, h.scheduling, hrun]
    rfl
  have hone : ∀ {s'}, Sleep.resume s now = some s' → run Sleep.step s [.resume now] = some s' :=
    fun heffect =>
    Sleep.run_one hmay heffect
  unfold Mutex.resume at hgoing ⊢
  cases hpc : w.pc w.fib.currentThread with
  | outside => exact ⟨[], s, rfl, h⟩
  | enterUnsched =>
      rw [hpc] at hframes
      exact h.enterLoop hrun (by rw [hpc]; rfl) hframes now
  | enterWait =>
      rw [hpc] at hframes
      have hwoken :
          Among (Mutex.goto { w with fib := waitEnd w.fib .mtx } .outside)
            (Sleep.endWait s (.lock (.mtx ())) []) :=
        h.awoken .mtx .outside
      have hfirst : run Sleep.step s [.resume now] = some (Sleep.endWait s (.lock (.mtx ())) []) := by
        refine hone ?_
        rw [Sleep.resume, Sleep.World.frames, hframes]
        rfl
      obtain ⟨es, s', hrest, hamong⟩ := hwoken.enterLoop ((waitEnd_scheduling w.fib .mtx).trans hrun)
        (by rw [goto_pc]; rfl) (by rw [hwoken.frames, goto_pc]; rfl) now
      rw [enterLoop_goto] at hamong
      refine ⟨[.resume now] ++ es, s', ?_, hamong⟩
      rw [run_append, hfirst]
      exact hrest
  | enterSched =>
      rw [hpc] at hframes
      exact ⟨[], s, rfl, h.goto_same .outside hframes⟩
  | cvUnsched c call =>
      rw [hpc] at hframes
      simp only [hpc] at hgoing
      obtain ⟨s', hs', hamong⟩ := h.cvSleep hframes hgoing
      refine ⟨_, s', hone ?_, hamong⟩
      rw [Sleep.resume, Sleep.World.frames, hframes]
      exact hs'
  | cvWait c call =>
      rw [hpc] at hframes
      simp only [hpc] at hgoing
      obtain ⟨s', hs', hamong⟩ := h.cvWoken hframes hgoing
      refine ⟨_, s', hone ?_, hamong⟩
      rw [Sleep.resume, Sleep.World.frames, hframes]
      exact hs'
  | cvSchedFirst c =>
      rw [hpc] at hframes
      simp only [hpc] at hgoing
      obtain ⟨s', hs', hreturn, -⟩ := (h.goto_same (.cvSchedFirst c) hframes).reacquire hgoing
      refine ⟨_, _, hone ?_, hreturn⟩
      rw [Sleep.resume, Sleep.World.frames, hframes]
      dsimp only [Pc.frames]
      rw [hs']
      rfl
  | cvSchedLast c =>
      rw [hpc] at hframes
      refine ⟨_, _, hone ?_, h.cvReturn hframes c⟩
      rw [Sleep.resume, Sleep.World.frames, hframes]
      rfl

end Among

/-! ### Steps and runs -/

variable [DecidableEq Tid] [DecidableEq Lwp] [DecidableEq Cv] [DecidableEq Head] {w w' : World Tid Lwp Cv}

/-- Every step of the mutex is a run over all wait heads. -/
theorem among_step {s : Sleep.World Tid Lwp Unit Cv Head} {e : Event Tid Cv} (h : Among w s)
    (hstep : step w e = some w') (hgoing : w'.halted = none) :
    ∃ es s', run Sleep.step s es = some s' ∧ Among w' s' := by
  obtain ⟨-, henabled, rfl⟩ := step_inv hstep
  cases e with
  | enter =>
      have hmay := h.mayCall_of_calls henabled
      have hrel := h.tryenter
      simp only [effect, rumpuserMutexEnter]
      cases hown : tryenter w with
      | none =>
          have hstack : s.stack s.fib.currentThread = Pc.enterUnsched.frames := by
            rw [h.frames, (runsAt_inv henabled).2]
            rfl
          exact ⟨[], s, rfl, h.goto_same .enterUnsched hstack⟩
      | some w' =>
          rw [hown] at hrel
          obtain ⟨s', hs', hamong⟩ := rel_of_some hrel
          exact ⟨[.tryenter ()], s', Sleep.run_one hmay (by rw [Sleep.effect, hs']; rfl), hamong⟩
  | tryenter =>
      have hmay := h.mayCall_of_calls henabled
      have hrel := h.tryenter
      refine ⟨[.tryenter ()], _, Sleep.run_one hmay rfl, ?_⟩
      simp only [effect]
      generalize tryenter w = o, Sleep.tryenter s () = o' at hrel
      cases hrel with
      | none => exact h
      | some hamong => exact hamong
  | enterNowrap =>
      obtain ⟨s', hs', hamong, -⟩ := h.enterNowrap .spinMutexError hgoing
      exact ⟨[.enterNowrap ()], s', Sleep.run_one (h.mayCall_of_calls henabled) hs', hamong⟩
  | exit =>
      simp only [enabled, Bool.and_eq_true] at henabled
      obtain ⟨s', hs', hamong⟩ := h.exit hgoing
      exact ⟨[.exit ()], s', Sleep.run_one (h.mayCall_of_calls henabled.1) hs', hamong⟩
  | cvCall c call now =>
      simp only [enabled, Bool.and_eq_true] at henabled
      obtain ⟨s', hs', hamong⟩ := h.cvCall henabled.1 hgoing
      exact ⟨[.cvCall c () call now], s', Sleep.run_one (h.mayCall_of_calls henabled.1) hs', hamong⟩
  | cvSignal c =>
      refine ⟨[.wakeupOne (.cv c)], _, Sleep.run_one (h.mayCall_of_calls henabled) rfl, h.setFib ?_⟩
      rw [← h.fib]
      exact select_wakeupOne among_injective s.fib (.cv c)
  | cvBroadcast c =>
      refine ⟨[.wakeupAll (.cv c)], _, Sleep.run_one (h.mayCall_of_calls henabled)
        (congrArg some (Sleep.wakeAll_eq s (.cv c))), h.setFib ?_⟩
      rw [← h.fib]
      exact select_wakeupAll among_injective s.fib (.cv c)
  | resume now =>
      simp only [enabled, Bool.and_eq_true, Bool.not_eq_eq_eq_not, Bool.not_true] at henabled
      exact h.resume henabled.1 hgoing
  | cpu e =>
      have hallowed : Sleep.enabled s (.cpu e) = true := by
        rw [Sleep.enabled, h.site, h.current, cpuAllowed_select, h.fib]
        exact henabled
      refine ⟨[.cpu e], _, Sleep.run_one hallowed rfl, h.setFib ?_⟩
      rw [← h.fib]
      exact select_cpuEffect s.fib e

/-- Every run of the mutex that has not been stopped is a run over all wait heads. -/
theorem mutex_run_sleeps (Head : Type*) [DecidableEq Head] {flags : MtxFlags} {tls : Tid → Option Lwp}
    {tcb : Tcbs Tid} {running : Tid} {events : List (Event Tid Cv)}
    (hrun : run step (rumpuserMutexInit flags tls tcb running) events = some w) (hgoing : w.halted = none) :
    ∃ (es : List (Sleep.Event Tid Lwp Unit Cv Head)) (s : Sleep.World Tid Lwp Unit Cv Head),
      run Sleep.step (.start (fun _ => flags) tls tcb running) es = some s ∧ Among w s := by
  have hstart : Among (rumpuserMutexInit flags tls tcb running : World Tid Lwp Cv)
      (.start (fun _ => flags) tls tcb running : Sleep.World Tid Lwp Unit Cv Head) :=
    ⟨rfl, rfl, rfl, rfl, fun _ => rfl⟩
  exact run_follows (fun _ _ _ hstep _ => (step_inv hstep).1)
    (fun _ _ _ _ h hstep hgoing => among_step h hstep hgoing)
    hstart hrun hgoing

omit [DecidableEq Tid] [DecidableEq Lwp] [DecidableEq Head] in
/-- A thread is inside at most one condition wait. -/
theorem Among.cvCalls {s : Sleep.World Tid Lwp Unit Cv Head} (h : Among w s) (c : Cv) (t : Tid) :
    s.cvCalls c t = if (w.pc t).cvOf = some c then 1 else 0 := by
  rw [Sleep.World.cvCalls, h.stack]
  cases w.pc t with
  | outside | enterUnsched | enterWait | enterSched => rfl
  | cvUnsched d _ | cvWait d _ | cvSchedFirst d | cvSchedLast d =>
      simp [Pc.frames, Pc.cvOf, Sleep.Frame.cv, List.countP_cons]

/-- `nwaiters` of a condition variable is the number of threads inside `rumpuser_cv_wait`,
    `rumpuser_cv_wait_nowrap` and `rumpuser_cv_timedwait` on it, and no fewer than wait on its queue. -/
theorem mutex_nwaiters {flags : MtxFlags} {tls : Tid → Option Lwp} {tcb : Tcbs Tid} {running : Tid}
    {events : List (Event Tid Cv)}
    (hrun : run step (rumpuserMutexInit flags tls tcb running) events = some w) (hgoing : w.halted = none)
    (c : Cv) :
    (w.fib.waithead (.cv c)).length ≤ w.nwaiters c ∧ ∃ inside : List Tid,
      w.nwaiters c = inside.length ∧ inside.Nodup ∧ ∀ t, t ∈ inside ↔ (w.pc t).cvOf = some c := by
  obtain ⟨es, s, hsleep, hamong⟩ := mutex_run_sleeps Unit hrun hgoing
  have hinv : Sleep.Inv s :=
    run_invariant (fun _ _ _ h hstep => Sleep.inv_step h hstep) (Sleep.Inv.init _ _ _ _) hsleep
  obtain ⟨hqueue, inside, hlen, hcount, honce⟩ := hinv.accounts.nwaiters c
  rw [hamong.nwaiters] at hqueue hlen
  refine ⟨?_, inside, hlen, honce fun t => ?_, fun t => ?_⟩
  · rw [← hamong.fib]
    exact hqueue
  · rw [hamong.cvCalls]
    split <;> decide
  · rw [← List.count_pos_iff, hcount, hamong.cvCalls]
    split <;> simp_all

end Mutex

end RumpBaremetal
