/-
Module: RumpBaremetal.Proofs.Mutex
Layer: Proofs
Purpose: Exclusion, the nesting count and the wakeups of the mutex.  Entering and leaving are reduced to
  two moves of the state (`entered`, `released`), each function of the machine is shown to keep one
  invariant by means of them, and the results about runs follow.  The nesting count is an `int`: `Nests` is
  the condition on one step under which it does not run over, and the step that violates it does harm.
Trusted boundary: none (fully proved)
Main exports: Ownership, Nests, Inv, inv_step, MutexSound, mutex_exclusion, mutex_count_runs_over,
  NoLostWakeup, mutex_no_lost_wakeup, mutex_free_while_waited_for
-/
import RumpBaremetal.Fiber.Mutex
import RumpBaremetal.Proofs.Wait

namespace RumpBaremetal.Mutex

open StepSystem Counter

variable {Tid Lwp Cv : Type*}

/-- The fields of the mutex against the record of unmatched enters. -/
structure Ownership (tls : Tid → Option Lwp) (mtx : RumpuserMtx Lwp) (depth : Tid → Nat) : Prop where
  alone : ∀ t u, 0 < depth t → 0 < depth u → t = u
  count : ∀ t, 0 < depth t → mtx.v.toInt = depth t ∧ mtx.o = tls t
  free : (∀ t, depth t = 0) → mtx.v = 0 ∧ mtx.o = none

namespace Ownership

variable {tls : Tid → Option Lwp} {mtx : RumpuserMtx Lwp} {depth : Tid → Nat}

theorem held_of_pos (h : Ownership tls mtx depth) {t : Tid} (ht : 0 < depth t) : 0 < mtx.v := by
  rw [pos_iff, (h.count t ht).1]
  exact_mod_cast ht

theorem count_of_others (h : Ownership tls mtx depth) {t : Tid} (others : ∀ u, u ≠ t → depth u = 0) :
    mtx.v.toInt = depth t := by
  rcases Nat.eq_zero_or_pos (depth t) with hzero | hpos
  · have hall : ∀ u, depth u = 0 := by
      intro u
      by_cases hu : u = t
      · exact hu ▸ hzero
      · exact others u hu
    rw [(h.free hall).1, hzero]
    rfl
  · exact (h.count t hpos).1

/-- The count shows every nesting that there can be. -/
theorem depth_le (h : Ownership tls mtx depth) (t : Tid) : depth t ≤ intMax := by
  rcases Nat.eq_zero_or_pos (depth t) with hzero | hpos
  · omega
  · have hle := toInt_le_intMax mtx.v
    rw [(h.count t hpos).1] at hle
    exact_mod_cast hle

variable [DecidableEq Tid]

/-- One more enter by the only thread that may hold the mutex. -/
theorem enter (h : Ownership tls mtx depth) {t : Tid} (others : ∀ u, u ≠ t → depth u = 0)
    (hroom : depth t < intMax) :
    Ownership tls { mtx with v := mtx.v + 1, o := tls t }
      (Function.update depth t (depth t + 1)) := by
  have hothers : ∀ u, 0 < Function.update depth t (depth t + 1) u → u = t := by
    intro u hu
    by_contra hne
    rw [Function.update_of_ne hne, others u hne] at hu
    exact absurd hu (Nat.lt_irrefl 0)
  refine ⟨fun a b ha hb => (hothers a ha).trans (hothers b hb).symm, ?_, ?_⟩
  · intro u hu
    obtain rfl := hothers u hu
    refine ⟨?_, rfl⟩
    have hcount := h.count_of_others others
    rw [Function.update_self, toInt_add_one (by omega), hcount]
    push_cast
    rfl
  · intro hall
    have hzero := hall t
    rw [Function.update_self] at hzero
    omega

/-- The last exit. -/
theorem leave (h : Ownership tls mtx depth) {t : Tid} (hone : depth t = 1) :
    Ownership tls { mtx with v := mtx.v - 1, o := none } (Function.update depth t (depth t - 1)) := by
  have hnone : ∀ u, Function.update depth t (depth t - 1) u = 0 := by
    intro u
    by_cases hu : u = t
    · subst hu
      rw [Function.update_self, hone]
    · rw [Function.update_of_ne hu]
      by_contra hpos
      exact hu (h.alone u t (Nat.pos_of_ne_zero hpos) (by omega))
  refine ⟨fun a b ha _ => ?_, fun a ha => ?_, fun _ => ⟨?_, rfl⟩⟩
  · rw [hnone a] at ha
    exact absurd ha (Nat.lt_irrefl 0)
  · rw [hnone a] at ha
    exact absurd ha (Nat.lt_irrefl 0)
  · have hv := (h.count t (by omega)).1
    rw [eq_zero_iff, toInt_sub_one (by omega), hv, hone]
    rfl

/-- An exit that leaves the thread inside. -/
theorem leaveNested (h : Ownership tls mtx depth) {t : Tid} (hmore : 1 < depth t) :
    Ownership tls { mtx with v := mtx.v - 1 } (Function.update depth t (depth t - 1)) := by
  have hpos : 0 < depth t := by omega
  have hothers : ∀ u, 0 < Function.update depth t (depth t - 1) u → u = t := by
    intro u hu
    by_contra hne
    rw [Function.update_of_ne hne] at hu
    exact hne (h.alone u t hu hpos)
  refine ⟨fun a b ha hb => (hothers a ha).trans (hothers b hb).symm, ?_, ?_⟩
  · intro u hu
    obtain rfl := hothers u hu
    refine ⟨?_, (h.count u hpos).2⟩
    have hv := (h.count u hpos).1
    show (mtx.v - 1).toInt = _
    rw [Function.update_self, toInt_sub_one (by omega), hv]
    omega
  · intro hall
    have hzero := hall t
    rw [Function.update_self] at hzero
    omega

end Ownership

/-! ### The moves of the state -/

variable [DecidableEq Tid] [DecidableEq Lwp] [DecidableEq Cv]

/-- The state behind a successful `rumpuser_mutex_tryenter`. -/
def entered (w : World Tid Lwp Cv) : World Tid Lwp Cv :=
  { w with
    mtx := { w.mtx with v := w.mtx.v + 1, o := w.tls w.fib.currentThread }
    depth := Function.update w.depth w.fib.currentThread (w.depth w.fib.currentThread + 1) }

/-- The state behind the last exit of a thread. -/
def released (w : World Tid Lwp Cv) : World Tid Lwp Cv :=
  { w with
    mtx := { w.mtx with v := w.mtx.v - 1, o := none }
    fib := wakeupOne w.fib .mtx
    depth := Function.update w.depth w.fib.currentThread (w.depth w.fib.currentThread - 1) }

/-- The state behind an exit that leaves the thread inside. -/
def unnested (w : World Tid Lwp Cv) : World Tid Lwp Cv :=
  { w with
    mtx := { w.mtx with v := w.mtx.v - 1 }
    depth := Function.update w.depth w.fib.currentThread (w.depth w.fib.currentThread - 1) }

/-- The running thread has come back from `bmk_sched` and left its wait head. -/
def awoken (w : World Tid Lwp Cv) (wh : Wh Cv) : World Tid Lwp Cv :=
  { goto w .outside with fib := waitEnd w.fib wh }

variable {w : World Tid Lwp Cv}

omit [DecidableEq Cv] in
/-- An attempt to enter fails exactly when another thread holds the mutex. -/
theorem tryenter_cases (bound : Bound w.tls) (h : Ownership w.tls w.mtx w.depth) :
    (tryenter w = none ∧ ∃ t, t ≠ w.fib.currentThread ∧ 0 < w.depth t) ∨
      (tryenter w = some (entered w) ∧ ∀ t, t ≠ w.fib.currentThread → w.depth t = 0) := by
  by_cases hother : ∃ t, t ≠ w.fib.currentThread ∧ 0 < w.depth t
  · obtain ⟨t, hne, hpos⟩ := hother
    refine Or.inl ⟨?_, t, hne, hpos⟩
    have hv : w.mtx.v ≠ 0 := by
      intro hzero
      have hcount := (h.count t hpos).1
      rw [hzero, Int32.toInt_zero] at hcount
      omega
    have ho : w.mtx.o ≠ w.tls w.fib.currentThread := by
      rw [(h.count t hpos).2]
      exact fun heq => hne (bound.distinct _ _ heq)
    simp [tryenter, rumpuserMutexTryenter, hv, ho]
  · have hothers : ∀ t, t ≠ w.fib.currentThread → w.depth t = 0 := by
      intro t hne
      by_contra hpos
      exact hother ⟨t, hne, Nat.pos_of_ne_zero hpos⟩
    refine Or.inr ⟨?_, hothers⟩
    have hfree : ¬ (w.mtx.v ≠ 0 ∧ w.mtx.o ≠ w.tls w.fib.currentThread) := by
      rintro ⟨hv, ho⟩
      have hcount := h.count_of_others hothers
      rw [Ne, eq_zero_iff] at hv
      have hpos : 0 < w.depth w.fib.currentThread := by omega
      exact ho (h.count _ hpos).2
    simp only [tryenter, rumpuserMutexTryenter, if_neg hfree]
    rfl

omit [DecidableEq Lwp] in
theorem exit_cases (h : Ownership w.tls w.mtx w.depth) (hholds : 0 < w.depth w.fib.currentThread) :
    (w.depth w.fib.currentThread = 1 ∧ rumpuserMutexExit w = released w) ∨
      (1 < w.depth w.fib.currentThread ∧ rumpuserMutexExit w = unnested w) := by
  have hv := (h.count _ hholds).1
  have hpos := h.held_of_pos hholds
  have hlast : w.mtx.v - 1 = 0 ↔ w.depth w.fib.currentThread = 1 := by
    rw [eq_zero_iff, toInt_sub_one (by omega), hv]
    omega
  rcases Nat.lt_or_ge 1 (w.depth w.fib.currentThread) with hmore | hone
  · refine Or.inr ⟨hmore, ?_⟩
    simp only [rumpuserMutexExit, if_pos hpos]
    rw [if_neg (mt hlast.mp (by omega))]
    rfl
  · refine Or.inl ⟨by omega, ?_⟩
    simp only [rumpuserMutexExit, if_pos hpos]
    rw [if_pos (hlast.mpr (by omega))]
    rfl

/-! ### The invariant -/

/-- The places inside the hypercalls where a thread holds the mutex. -/
def Pc.mustHold : Pc Cv → Bool
  | .enterSched | .cvUnsched _ _ | .cvSchedLast _ => true
  | _ => false

/-- The places inside the hypercalls from which a thread goes on to enter the mutex. -/
def Pc.willEnter : Pc Cv → Bool
  | .enterUnsched | .enterWait | .cvWait _ _ | .cvSchedFirst _ => true
  | _ => false

/-- The calls by which a thread asks for the mutex. -/
def Event.enters : Event Tid Cv → Bool
  | .enter | .tryenter | .enterNowrap => true
  | _ => false

/-- A thread with `2^31 - 1` unmatched enters does not ask for one more. -/
def Nests (w : World Tid Lwp Cv) (e : Event Tid Cv) : Prop :=
  e.enters = true → w.depth w.fib.currentThread < intMax

instance (w : World Tid Lwp Cv) (e : Event Tid Cv) : Decidable (Nests w e) :=
  inferInstanceAs (Decidable (e.enters = true → w.depth w.fib.currentThread < intMax))

omit [DecidableEq Tid] [DecidableEq Lwp] [DecidableEq Cv] in
theorem Nests.of_not {e : Event Tid Cv} (h : e.enters = false) : Nests w e := by
  intro henters
  rw [h] at henters
  cases henters

structure Inv (w : World Tid Lwp Cv) : Prop where
  bound : Bound w.tls
  owned : Ownership w.tls w.mtx w.depth
  within : w.halted = none → ∀ t, (w.pc t).mustHold = true → 0 < w.depth t
  room : ∀ t, (w.pc t).willEnter = true → w.depth t < intMax
  queues : Queues (fun t => (w.pc t).site) w.fib
  asserted : w.halted ≠ some .exitAssert

namespace Inv

omit [DecidableEq Lwp] [DecidableEq Cv] in
theorem init (flags : MtxFlags) {tls : Tid → Option Lwp} (bound : Bound tls) (tcb : Tcbs Tid)
    (running : Tid) : Inv (rumpuserMutexInit flags tls tcb running : World Tid Lwp Cv) where
  bound := bound
  owned := ⟨by simp [rumpuserMutexInit], by simp [rumpuserMutexInit], fun _ => ⟨rfl, rfl⟩⟩
  within := by simp [rumpuserMutexInit, Pc.mustHold]
  room := by simp [rumpuserMutexInit, Pc.willEnter]
  queues := by
    refine ⟨?_, ?_, ?_, ?_⟩
    · simp [rumpuserMutexInit, Pc.site]
    · simp [rumpuserMutexInit]
    · simp [rumpuserMutexInit, Pc.site]
    · simp [rumpuserMutexInit, isRunnable, setRunnable]
  asserted := by simp [rumpuserMutexInit]

omit [DecidableEq Tid] [DecidableEq Lwp] [DecidableEq Cv] in
theorem setFib (h : Inv w) {fib : Fibers Tid (Wh Cv)}
    (hqueues : Queues (fun t => (w.pc t).site) fib) : Inv { w with fib := fib } :=
  ⟨h.bound, h.owned, h.within, h.room, hqueues, h.asserted⟩

omit [DecidableEq Tid] [DecidableEq Lwp] [DecidableEq Cv] in
theorem setNwaiters (h : Inv w) (nwaiters : Cv → Int) : Inv { w with nwaiters := nwaiters } :=
  ⟨h.bound, h.owned, h.within, h.room, h.queues, h.asserted⟩

omit [DecidableEq Tid] [DecidableEq Lwp] [DecidableEq Cv] in
theorem halt (h : Inv w) {failed : Halt} (hfailed : failed ≠ .exitAssert) :
    Inv { w with halted := some failed } :=
  ⟨h.bound, h.owned, by simp, h.room, h.queues, by simpa using hfailed⟩

omit [DecidableEq Lwp] [DecidableEq Cv] in
/-- What is known of every place stays known when the running thread goes to a place of which it is
    known. -/
theorem places_goto {A : Pc Cv → Bool} {B : Tid → Prop} (h : ∀ t, A (w.pc t) = true → B t) {p : Pc Cv}
    (hp : A p = true → B w.fib.currentThread) :
    ∀ t, A (Function.update w.pc w.fib.currentThread p t) = true → B t := by
  intro t ht
  by_cases hcur : t = w.fib.currentThread
  · subst hcur
    rw [Function.update_self] at ht
    exact hp ht
  · rw [Function.update_of_ne hcur] at ht
    exact h t ht

omit [DecidableEq Lwp] [DecidableEq Cv] in
theorem goto (h : Inv w) {p : Pc Cv} (hfrom : (w.pc w.fib.currentThread).site = none)
    (hsite : p.site = none)
    (hhold : w.halted = none → p.mustHold = true → 0 < w.depth w.fib.currentThread)
    (hroom : p.willEnter = true → w.depth w.fib.currentThread < intMax) : Inv (goto w p) where
  bound := h.bound
  owned := h.owned
  within := fun hok => places_goto (h.within hok) (hhold hok)
  room := places_goto h.room hroom
  queues := h.queues.moved hfrom hsite
  asserted := h.asserted

omit [DecidableEq Lwp] [DecidableEq Cv] in
theorem entered (h : Inv w) (others : ∀ t, t ≠ w.fib.currentThread → w.depth t = 0)
    (hroom : w.depth w.fib.currentThread < intMax) (hout : (w.pc w.fib.currentThread).willEnter = false) :
    Inv (entered w) where
  bound := h.bound
  owned := h.owned.enter others hroom
  within := by
    intro hok t ht
    simp only [Mutex.entered]
    by_cases hcur : t = w.fib.currentThread
    · subst hcur
      simp
    · rw [Function.update_of_ne hcur]
      exact h.within hok t ht
  room := by
    intro t ht
    have hcur : t ≠ w.fib.currentThread := by
      rintro rfl
      rw [show (Mutex.entered w).pc = w.pc from rfl, hout] at ht
      cases ht
    simp only [Mutex.entered, Function.update_of_ne hcur]
    exact h.room t ht
  queues := h.queues
  asserted := h.asserted

omit [DecidableEq Lwp] [DecidableEq Cv] in
theorem within_leave (h : Inv w) (hout : (w.pc w.fib.currentThread).mustHold = false)
    (hok : w.halted = none) (t : Tid) (ht : (w.pc t).mustHold = true) :
    0 < Function.update w.depth w.fib.currentThread (w.depth w.fib.currentThread - 1) t := by
  have hcur : t ≠ w.fib.currentThread := by
    rintro rfl
    rw [hout] at ht
    cases ht
  rw [Function.update_of_ne hcur]
  exact h.within hok t ht

omit [DecidableEq Lwp] [DecidableEq Cv] in
theorem room_leave (h : Inv w) (t : Tid) (ht : (w.pc t).willEnter = true) :
    Function.update w.depth w.fib.currentThread (w.depth w.fib.currentThread - 1) t < intMax := by
  have hroom := h.room t ht
  by_cases hcur : t = w.fib.currentThread
  · subst hcur
    rw [Function.update_self]
    omega
  · rw [Function.update_of_ne hcur]
    exact hroom

omit [DecidableEq Lwp] in
theorem exit (h : Inv w) (hout : (w.pc w.fib.currentThread).mustHold = false)
    (hholds : 0 < w.depth w.fib.currentThread) : Inv (rumpuserMutexExit w) := by
  rcases exit_cases h.owned hholds with ⟨hone, heq⟩ | ⟨hmore, heq⟩
  · rw [heq]
    exact ⟨h.bound, h.owned.leave hone, h.within_leave hout, h.room_leave, h.queues.wakeupOne .mtx,
      h.asserted⟩
  · rw [heq]
    exact ⟨h.bound, h.owned.leaveNested hmore, h.within_leave hout, h.room_leave, h.queues, h.asserted⟩

omit [DecidableEq Lwp] in
/-- Whoever has left the mutex once can come back. -/
theorem exit_room (h : Inv w) (hholds : 0 < w.depth w.fib.currentThread) :
    (rumpuserMutexExit w).depth w.fib.currentThread < intMax := by
  have hle := h.owned.depth_le w.fib.currentThread
  rcases exit_cases h.owned hholds with ⟨-, heq⟩ | ⟨-, heq⟩
  · rw [heq]
    simp only [released, Function.update_self]
    omega
  · rw [heq]
    simp only [unnested, Function.update_self]
    omega

omit [DecidableEq Lwp] in
theorem asleep (h : Inv w) {p : Pc Cv} {wh : Wh Cv} (now nsec : Nat)
    (hfrom : (w.pc w.fib.currentThread).site = none) (hsite : p.site = some wh)
    (hroom : w.depth w.fib.currentThread < intMax) : Inv (asleep w p wh now nsec) where
  bound := h.bound
  owned := h.owned
  within := by
    refine fun hok => places_goto (h.within hok) fun hp => ?_
    cases p <;> simp [Pc.site, Pc.mustHold] at hsite hp
  room := places_goto h.room fun _ => hroom
  queues := h.queues.goesToSleep hfrom hsite now nsec
  asserted := h.asserted

omit [DecidableEq Lwp] in
theorem awoken (h : Inv w) {wh : Wh Cv} (hsite : (w.pc w.fib.currentThread).site = some wh) :
    Inv (awoken w wh) where
  bound := h.bound
  owned := h.owned
  within := fun hok => places_goto (h.within hok) (by simp [Pc.mustHold])
  room := places_goto h.room (by simp [Pc.willEnter])
  queues := h.queues.comesBack hsite rfl
  asserted := h.asserted

end Inv

/-! ### The functions as moves -/

omit [DecidableEq Cv] in
theorem tryenter_goto (p : Pc Cv) :
    tryenter (goto w p) = (tryenter w).map fun w => goto w p := by
  simp only [tryenter, goto, Option.map_map]
  rfl

omit [DecidableEq Lwp] in
theorem exit_goto (p : Pc Cv) : rumpuserMutexExit (goto w p) = goto (rumpuserMutexExit w) p := by
  unfold rumpuserMutexExit goto
  dsimp only
  split
  · split
    · simp
    · rfl
  · rfl

omit [DecidableEq Lwp] in
/-- The release of the mutex in a condition wait happens at a place of its own, so to speak: the place
    the thread comes from plays no part. -/
theorem cvSleep_eq (c : Cv) (call : CvCall) (now : Nat) :
    cvSleep w c call now =
      asleep (rumpuserMutexExit (goto w .outside)) (.cvWait c call) (.cv c) now call.waitNsec := by
  simp only [cvSleep, asleep, exit_goto]
  simp [goto]

omit [DecidableEq Lwp] in
theorem cvSleep_goto (p : Pc Cv) (c : Cv) (call : CvCall) (now : Nat) :
    cvSleep (goto w p) c call now = cvSleep w c call now := by
  simp only [cvSleep, asleep, exit_goto]
  simp [goto]

theorem enterLoop_of_none (h : tryenter w = none) (now : Nat) :
    enterLoop w now = asleep w .enterWait .mtx now 0 := by
  simp only [enterLoop, retry, h]

theorem enterLoop_of_some {w' : World Tid Lwp Cv} (h : tryenter w = some w') (now : Nat) :
    enterLoop w now = goto w' .enterSched := by
  simp only [enterLoop, retry, h]

/-- The place a thread comes from plays no part in the loop. -/
theorem enterLoop_goto (now : Nat) : enterLoop (goto w .outside) now = enterLoop w now := by
  refine retry_congr (fun w => goto w .outside) (tryenter_goto .outside) ?_ ?_
  · exact fun w => by simp [goto]
  · simp [asleep, goto]

theorem enterLoop_awoken (now : Nat) :
    enterLoop { w with fib := waitEnd w.fib .mtx } now = enterLoop (awoken w .mtx) now := by
  have heq : awoken w .mtx = goto { w with fib := waitEnd w.fib .mtx } .outside := by
    simp [awoken, goto]
  rw [heq, enterLoop_goto]

omit [DecidableEq Cv] in
theorem enterNowrap_goto (p q : Pc Cv) (failed : Halt) :
    goto (rumpuserMutexEnterNowrap (goto w p) failed) q =
      goto (rumpuserMutexEnterNowrap w failed) q := by
  unfold rumpuserMutexEnterNowrap
  rw [tryenter_goto]
  cases tryenter w with
  | none => simp [goto]
  | some w' => simp [goto]

theorem cvReturn_goto (p : Pc Cv) (c : Cv) :
    cvReturn (rumpuserMutexEnterNowrap (goto w p) .reacquire) c =
      cvReturn (rumpuserMutexEnterNowrap w .reacquire) c := by
  have hsame : (rumpuserMutexEnterNowrap (goto w p) .reacquire).nwaiters =
      (rumpuserMutexEnterNowrap w .reacquire).nwaiters := by
    unfold rumpuserMutexEnterNowrap
    rw [tryenter_goto]
    cases tryenter w <;> rfl
  have hreturn : ∀ w : World Tid Lwp Cv, cvReturn w c = { goto w .outside with
      nwaiters := Function.update w.nwaiters c (w.nwaiters c - 1) } := fun _ => rfl
  rw [hreturn, hreturn, enterNowrap_goto, hsame]

omit [DecidableEq Lwp] in
theorem exit_currentThread : (rumpuserMutexExit w).fib.currentThread = w.fib.currentThread := by
  unfold rumpuserMutexExit
  dsimp only
  split
  · split
    · exact wakeupOne_currentThread w.fib _
    · rfl
  · rfl

omit [DecidableEq Lwp] in
theorem awoken_outside (w : World Tid Lwp Cv) (wh : Wh Cv) :
    (awoken w wh).pc (awoken w wh).fib.currentThread = .outside := by
  simp [awoken, goto]

theorem cvWoken_eq (c : Cv) (call : CvCall) :
    cvWoken w c call = match call with
      | .cvWaitNowrap => cvReturn (rumpuserMutexEnterNowrap (awoken w (.cv c)) .reacquire) c
      | _ =>
          if w.mtx.flags.kmutex ∧ w.mtx.flags.spin then goto (awoken w (.cv c)) (.cvSchedFirst c)
          else goto (rumpuserMutexEnterNowrap (awoken w (.cv c)) .reacquire) (.cvSchedLast c) := by
  have heq : awoken w (.cv c) = goto { w with fib := waitEnd w.fib (.cv c) } .outside := by
    simp [awoken, goto]
  rw [heq]
  cases call with
  | cvWaitNowrap => simp only [cvWoken, cvReturn_goto]
  | cvWait | cvTimedwait sec nsec =>
      simp only [cvWoken, enterNowrap_goto]
      simp [goto]

/-! ### Every function keeps the invariant -/

namespace Inv

omit [DecidableEq Lwp] [DecidableEq Cv] in
theorem depth_entered_pos : 0 < (Mutex.entered w).depth w.fib.currentThread := by
  simp [Mutex.entered]

omit [DecidableEq Cv] in
theorem enter (h : Inv w) (hout : w.pc w.fib.currentThread = .outside)
    (hroom : w.depth w.fib.currentThread < intMax) : Inv (rumpuserMutexEnter w) := by
  unfold rumpuserMutexEnter
  rcases tryenter_cases h.bound h.owned with ⟨heq, -⟩ | ⟨heq, hothers⟩
  · rw [heq]
    exact h.goto (by simp [hout, Pc.site]) rfl (by simp [Pc.mustHold]) fun _ => hroom
  · rw [heq]
    exact h.entered hothers hroom (by simp [hout, Pc.willEnter])

theorem enterLoop (h : Inv w) (hout : w.pc w.fib.currentThread = .outside)
    (hroom : w.depth w.fib.currentThread < intMax) (now : Nat) : Inv (enterLoop w now) := by
  have hfrom : (w.pc w.fib.currentThread).site = none := by simp [hout, Pc.site]
  rcases tryenter_cases h.bound h.owned with ⟨heq, -⟩ | ⟨heq, hothers⟩
  · rw [enterLoop_of_none heq]
    exact h.asleep now 0 hfrom rfl hroom
  · rw [enterLoop_of_some heq]
    exact (h.entered hothers hroom (by simp [hout, Pc.willEnter])).goto hfrom rfl
      (fun _ _ => depth_entered_pos) (by simp [Pc.willEnter])

omit [DecidableEq Cv] in
theorem enterNowrap (h : Inv w) (hout : w.pc w.fib.currentThread = .outside)
    (hroom : w.depth w.fib.currentThread < intMax) (failed : Halt) (hfailed : failed ≠ .exitAssert) :
    Inv (rumpuserMutexEnterNowrap w failed) := by
  unfold rumpuserMutexEnterNowrap
  rcases tryenter_cases h.bound h.owned with ⟨heq, -⟩ | ⟨heq, hothers⟩
  · rw [heq]
    exact h.halt hfailed
  · rw [heq]
    exact h.entered hothers hroom (by simp [hout, Pc.willEnter])

omit [DecidableEq Lwp] in
theorem cvReturn (h : Inv w) (hfrom : (w.pc w.fib.currentThread).site = none) (c : Cv) :
    Inv (cvReturn w c) :=
  (h.setNwaiters _).goto hfrom rfl (by simp [Pc.mustHold]) (by simp [Pc.willEnter])

omit [DecidableEq Lwp] [DecidableEq Cv] in
/-- The running thread leaves the place it comes from. -/
theorem moveOut (h : Inv w) (hfrom : (w.pc w.fib.currentThread).site = none) :
    Inv (Mutex.goto w .outside) :=
  h.goto hfrom rfl (by simp [Pc.mustHold]) (by simp [Pc.willEnter])

omit [DecidableEq Cv] in
/-- Behind `rumpuser_mutex_enter_nowrap` in a condition wait. -/
theorem reacquire (h : Inv w) (hout : w.pc w.fib.currentThread = .outside)
    (hroom : w.depth w.fib.currentThread < intMax) {p : Pc Cv} (hsite : p.site = none)
    (hp : p.willEnter = false) : Inv (Mutex.goto (rumpuserMutexEnterNowrap w .reacquire) p) := by
  have hfrom : (w.pc w.fib.currentThread).site = none := by simp [hout, Pc.site]
  have hnext := h.enterNowrap hout hroom .reacquire (by simp)
  unfold rumpuserMutexEnterNowrap at hnext ⊢
  rcases tryenter_cases h.bound h.owned with ⟨heq, -⟩ | ⟨heq, -⟩
  · rw [heq] at hnext ⊢
    exact hnext.goto hfrom hsite (by simp) (by simp [hp])
  · rw [heq] at hnext ⊢
    exact hnext.goto hfrom hsite (fun _ _ => depth_entered_pos) (by simp [hp])

omit [DecidableEq Lwp] in
theorem cvSleep (h : Inv w) (hfrom : (w.pc w.fib.currentThread).site = none)
    (hholds : 0 < w.depth w.fib.currentThread) (c : Cv) (call : CvCall) (now : Nat) :
    Inv (cvSleep w c call now) := by
  rw [cvSleep_eq]
  have hmoved := h.moveOut hfrom
  have hexit := hmoved.exit (by simp [Mutex.goto, Pc.mustHold]) hholds
  refine hexit.asleep now call.waitNsec ?_ rfl ?_
  · rw [exit_goto]
    simp [Mutex.goto, Pc.site]
  · rw [exit_currentThread]
    exact hmoved.exit_room hholds

omit [DecidableEq Lwp] in
theorem cvCall (h : Inv w) (hfrom : (w.pc w.fib.currentThread).site = none)
    (hholds : 0 < w.depth w.fib.currentThread) (c : Cv) (call : CvCall) (now : Nat) :
    Inv (cvCall w c call now) := by
  have hcount := h.setNwaiters (Function.update w.nwaiters c (w.nwaiters c + 1))
  cases call with
  | cvWaitNowrap => exact hcount.cvSleep hfrom hholds c .cvWaitNowrap now
  | cvWait => exact hcount.goto hfrom rfl (fun _ _ => hholds) (by simp [Pc.willEnter])
  | cvTimedwait sec nsec => exact hcount.goto hfrom rfl (fun _ _ => hholds) (by simp [Pc.willEnter])

theorem reacquireReturn (h : Inv w) (hout : w.pc w.fib.currentThread = .outside)
    (hroom : w.depth w.fib.currentThread < intMax) (c : Cv) :
    Inv (Mutex.cvReturn (rumpuserMutexEnterNowrap w .reacquire) c) :=
  (h.reacquire (p := .outside) hout hroom rfl rfl).setNwaiters _

theorem cvWoken (h : Inv w) {c : Cv} {call : CvCall}
    (hfrom : w.pc w.fib.currentThread = .cvWait c call) : Inv (cvWoken w c call) := by
  have hbase : Inv (Mutex.awoken w (.cv c)) := h.awoken (by simp [hfrom, Pc.site])
  have hout := awoken_outside w (.cv c)
  have hroom : (Mutex.awoken w (.cv c)).depth (Mutex.awoken w (.cv c)).fib.currentThread < intMax := by
    simpa [Mutex.awoken, Mutex.goto] using h.room w.fib.currentThread (by simp [hfrom, Pc.willEnter])
  -- the two waits that go through `cv_resched`
  have hresched : Inv (if w.mtx.flags.kmutex ∧ w.mtx.flags.spin then
      Mutex.goto (Mutex.awoken w (.cv c)) (.cvSchedFirst c)
      else Mutex.goto (rumpuserMutexEnterNowrap (Mutex.awoken w (.cv c)) .reacquire)
        (.cvSchedLast c)) := by
    split
    · exact hbase.goto (by simp [hout, Pc.site]) rfl (by simp [Pc.mustHold]) fun _ => hroom
    · exact hbase.reacquire hout hroom rfl rfl
  rw [cvWoken_eq]
  cases call with
  | cvWaitNowrap => exact hbase.reacquireReturn hout hroom c
  | cvWait => exact hresched
  | cvTimedwait sec nsec => exact hresched

theorem resume (h : Inv w) (hok : w.halted = none) (now : Nat) : Inv (resume w now) := by
  unfold Mutex.resume
  split
  · exact h
  · rename_i hpc
    rw [← enterLoop_goto]
    exact (h.moveOut (by simp [hpc, Pc.site])).enterLoop (by simp [Mutex.goto])
      (h.room w.fib.currentThread (by simp [hpc, Pc.willEnter])) now
  · rename_i hpc
    rw [enterLoop_awoken]
    refine (h.awoken (by simp [hpc, Pc.site])).enterLoop (awoken_outside w .mtx) ?_ now
    simpa [Mutex.awoken, Mutex.goto] using h.room w.fib.currentThread (by simp [hpc, Pc.willEnter])
  · rename_i hpc
    exact h.moveOut (by simp [hpc, Pc.site])
  · rename_i c call hpc
    exact h.cvSleep (by simp [hpc, Pc.site]) (h.within hok _ (by simp [hpc, Pc.mustHold])) c call now
  · rename_i c call hpc
    exact h.cvWoken hpc
  · rename_i c hpc
    rw [← cvReturn_goto .outside]
    exact (h.moveOut (by simp [hpc, Pc.site])).reacquireReturn (by simp [Mutex.goto])
      (h.room w.fib.currentThread (by simp [hpc, Pc.willEnter])) c
  · rename_i c hpc
    exact h.cvReturn (by simp [hpc, Pc.site]) c

end Inv

omit [DecidableEq Tid] [DecidableEq Lwp] in
theorem holds_inv (hholds : (w.calls && w.holds) = true) :
    w.fib.scheduling = false ∧ w.pc w.fib.currentThread = .outside ∧
      0 < w.depth w.fib.currentThread := by
  simpa [World.calls, runsAt, World.holds, and_assoc] using hholds

theorem inv_step {w' : World Tid Lwp Cv} {e : Event Tid Cv} (h : Inv w) (hnests : Nests w e)
    (hstep : step w e = some w') : Inv w' := by
  obtain ⟨hok, henabled, rfl⟩ := step_inv hstep
  cases e with
  | enter => exact h.enter (runsAt_inv henabled).2 (hnests rfl)
  | tryenter =>
      rcases tryenter_cases h.bound h.owned with ⟨heq, -⟩ | ⟨heq, hothers⟩
      · simp only [effect, heq, Option.getD_none]
        exact h
      · simp only [effect, heq, Option.getD_some]
        exact h.entered hothers (hnests rfl) (by simp [(runsAt_inv henabled).2, Pc.willEnter])
  | enterNowrap => exact h.enterNowrap (runsAt_inv henabled).2 (hnests rfl) _ (by simp)
  | exit =>
      obtain ⟨-, hpc, hholds⟩ := holds_inv henabled
      exact h.exit (by simp [hpc, Pc.mustHold]) hholds
  | cvCall c call now =>
      obtain ⟨-, hpc, hholds⟩ := holds_inv henabled
      exact h.cvCall (by simp [hpc, Pc.site]) hholds c call now
  | cvSignal c => exact h.setFib (h.queues.wakeupOne (.cv c))
  | cvBroadcast c => exact h.setFib (h.queues.wakeupAll (.cv c))
  | resume now => exact h.resume hok now
  | cpu e =>
      obtain ⟨hcpu, hsite⟩ := cpuAllowed_inv henabled
      exact h.setFib (h.queues.cpu hcpu fun d hd => hsite (Or.inl ⟨d, hd⟩))

/-! ### Exclusion -/

/-- The step is the return of `rumpuser_mutex_enter` in the running thread, at once or at the end of the
    slow path. -/
def EnterReturns (w : World Tid Lwp Cv) (e : Event Tid Cv) (w' : World Tid Lwp Cv) : Prop :=
  (e = .enter ∧ w'.pc w.fib.currentThread = .outside) ∨
    ((∃ now, e = .resume now) ∧ w.pc w.fib.currentThread = .enterSched)

/-- The mutex as its clients see it. -/
structure MutexSound (w : World Tid Lwp Cv) : Prop where
  nonneg : 0 ≤ w.mtx.v
  held : 0 < w.mtx.v → ∃ t, w.mtx.v.toInt = w.depth t ∧ w.mtx.o = w.tls t ∧ ∀ u, u ≠ t → w.depth u = 0
  free : w.mtx.v = 0 → w.mtx.o = none ∧ ∀ t, w.depth t = 0
  asserted : w.halted ≠ some .exitAssert
  enterReturns : ∀ e w', step w e = some w' → EnterReturns w e w' →
    0 < w'.depth w.fib.currentThread ∧ w'.mtx.o = w.tls w.fib.currentThread

theorem Inv.enterReturns (h : Inv w) {w' : World Tid Lwp Cv} {e : Event Tid Cv}
    (hstep : step w e = some w') (hreturns : EnterReturns w e w') :
    0 < w'.depth w.fib.currentThread ∧ w'.mtx.o = w.tls w.fib.currentThread := by
  obtain ⟨hok, -, rfl⟩ := step_inv hstep
  rcases hreturns with ⟨rfl, hpc⟩ | ⟨⟨now, rfl⟩, hpc⟩
  · simp only [effect, rumpuserMutexEnter] at hpc ⊢
    rcases tryenter_cases h.bound h.owned with ⟨heq, -⟩ | ⟨heq, -⟩
    · simp [heq, Mutex.goto] at hpc
    · simp only [heq]
      exact ⟨depth_entered_pos, rfl⟩
  · have hholds : 0 < w.depth w.fib.currentThread := h.within hok _ (by simp [hpc, Pc.mustHold])
    simp only [effect, Mutex.resume, hpc]
    exact ⟨hholds, (h.owned.count _ hholds).2⟩

theorem Inv.sound (h : Inv w) : MutexSound w := by
  have hcases : (∀ t, w.depth t = 0) ∨ ∃ t, 0 < w.depth t := by
    by_cases hsome : ∃ t, 0 < w.depth t
    · exact Or.inr hsome
    · refine Or.inl fun t => ?_
      by_contra hpos
      exact hsome ⟨t, Nat.pos_of_ne_zero hpos⟩
  refine ⟨?_, ?_, ?_, h.asserted, fun e w' => h.enterReturns⟩
  · rcases hcases with hnone | ⟨t, ht⟩
    · rw [(h.owned.free hnone).1]
      exact Int32.le_refl 0
    · exact Int32.le_of_lt (h.owned.held_of_pos ht)
  · intro hv
    rcases hcases with hnone | ⟨t, ht⟩
    · rw [(h.owned.free hnone).1] at hv
      exact absurd hv Int32.lt_irrefl
    · refine ⟨t, (h.owned.count t ht).1, (h.owned.count t ht).2, fun u hu => ?_⟩
      by_contra hpos
      exact hu (h.owned.alone u t (Nat.pos_of_ne_zero hpos) ht)
  · intro hv
    rcases hcases with hnone | ⟨t, ht⟩
    · exact ⟨(h.owned.free hnone).2, hnone⟩
    · have hpos := h.owned.held_of_pos ht
      rw [hv] at hpos
      exact absurd hpos Int32.lt_irrefl

theorem inv_run {flags : MtxFlags} {tls : Tid → Option Lwp} (bound : Bound tls) {tcb : Tcbs Tid}
    {running : Tid} {events : List (Event Tid Cv)}
    (hmeets : Meets step Nests (rumpuserMutexInit flags tls tcb running) events)
    (hrun : run step (rumpuserMutexInit flags tls tcb running) events = some w) : Inv w :=
  run_invariant_of_meets (fun _ _ _ h hnests hstep => inv_step h hnests hstep)
    (Inv.init flags bound tcb running) hmeets hrun

/-- The enter that comes after `2^31 - 1` others makes the count negative. -/
theorem Inv.not_nests_unsound (h : Inv w) {w' : World Tid Lwp Cv} {e : Event Tid Cv}
    (hstep : step w e = some w') (hnot : ¬ Nests w e) : ¬ MutexSound w' := by
  obtain ⟨-, -, rfl⟩ := step_inv hstep
  obtain ⟨henters, hfull⟩ := Classical.not_imp.mp hnot
  have hdepth : w.depth w.fib.currentThread = intMax :=
    le_antisymm (h.owned.depth_le _) (not_lt.mp hfull)
  have hholds : 0 < w.depth w.fib.currentThread := by
    rw [hdepth]
    decide
  have hin : tryenter w = some (Mutex.entered w) := by
    rcases tryenter_cases h.bound h.owned with ⟨-, t, hne, hpos⟩ | ⟨heq, -⟩
    · exact absurd (h.owned.alone t _ hpos hholds) hne
    · exact heq
  have hsame : effect w e = Mutex.entered w := by
    cases e with
    | enter => simp only [effect, rumpuserMutexEnter, hin]
    | tryenter => simp only [effect, hin, Option.getD_some]
    | enterNowrap => simp only [effect, rumpuserMutexEnterNowrap, hin]
    | _ => cases henters
  rw [hsame]
  intro hsound
  have hcount : w.mtx.v.toInt = intMax := by
    rw [(h.owned.count _ hholds).1, hdepth]
  have hnonneg := nonneg_iff.mp hsound.nonneg
  rw [show (Mutex.entered w).mtx.v = w.mtx.v + 1 from rfl, toInt_add_one_of_eq hcount] at hnonneg
  exact absurd hnonneg (by decide)

/-- In every run in which no thread asks for the mutex with `2^31 - 1` unmatched enters of its own, the
    mutex has at most one holder, `v` counts its unmatched enters, `o` is its lwp, and
    `rumpuser_mutex_enter` returns to the owner only; and the first such call breaks the count. -/
theorem mutex_exclusion {flags : MtxFlags} {tls : Tid → Option Lwp} (bound : Bound tls)
    {tcb : Tcbs Tid} {running : Tid} {events : List (Event Tid Cv)} {w : World Tid Lwp Cv}
    (hmeets : Meets step Nests (rumpuserMutexInit flags tls tcb running) events)
    (hrun : run step (rumpuserMutexInit flags tls tcb running) events = some w) :
    MutexSound w ∧ ∀ e w', step w e = some w' → ¬ Nests w e → ¬ MutexSound w' :=
  ⟨(inv_run bound hmeets hrun).sound, fun _ _ hstep hnot =>
    (inv_run bound hmeets hrun).not_nests_unsound hstep hnot⟩

/-- Thread 0 enters twice and gives up the processor; thread 1 has to wait, and gets the mutex when
    thread 0 has left it twice. -/
theorem mutex_exclusion_two :
    ∃ w : World Nat Nat Unit, run step (rumpuserMutexInit ⟨false, false⟩ some awake 0)
        [.enter, .enter, .cpu .yield, .cpu (.dispatch 1), .enter, .resume 0, .cpu (.dispatch 0), .exit,
          .exit, .cpu .yield, .cpu (.dispatch 1), .resume 0, .resume 0] = some w ∧
      w.mtx.v = 1 ∧ w.mtx.o = some 1 ∧ MutexSound w :=
  ⟨_, rfl, rfl, rfl, (@mutex_exclusion _ _ _ _ _ _ ⟨false, false⟩ some bound_some awake 0
    [.enter, .enter, .cpu .yield, .cpu (.dispatch 1), .enter, .resume 0, .cpu (.dispatch 0), .exit,
      .exit, .cpu .yield, .cpu (.dispatch 1), .resume 0, .resume 0] _ (by decide) rfl).1⟩

/-! ### Nesting without end -/

/-- The state behind `n` more enters of a thread that finds itself the owner. -/
def nested (w : World Tid Lwp Cv) (n : Nat) : World Tid Lwp Cv :=
  { w with
    mtx := { w.mtx with v := w.mtx.v + Int32.ofNat n, o := w.tls w.fib.currentThread }
    depth := Function.update w.depth w.fib.currentThread (w.depth w.fib.currentThread + n) }

omit [DecidableEq Lwp] [DecidableEq Cv] in
theorem nested_zero (hown : w.mtx.o = w.tls w.fib.currentThread) : nested w 0 = w := by
  simp [nested, ← hown]

omit [DecidableEq Lwp] [DecidableEq Cv] in
theorem nested_succ (n : Nat) : nested (entered w) n = nested w (n + 1) := by
  have hv : w.mtx.v + 1 + Int32.ofNat n = w.mtx.v + Int32.ofNat (n + 1) := by
    rw [Int32.ofNat_add, Int32.add_assoc, Int32.add_comm 1]
    rfl
  simp only [nested, entered, Function.update_self, Function.update_idem, hv]
  congr 2
  omega

omit [DecidableEq Cv] in
/-- The owner is always let in. -/
theorem tryenter_owner (hown : w.mtx.o = w.tls w.fib.currentThread) : tryenter w = some (entered w) := by
  simp [tryenter, rumpuserMutexTryenter, hown, entered]

/-- Nothing stops an owner from entering any number of times. -/
theorem enters_run (n : Nat) : ∀ w : World Tid Lwp Cv, w.halted = none → w.calls = true →
    w.mtx.o = w.tls w.fib.currentThread → run step w (List.replicate n .enter) = some (nested w n) := by
  induction n with
  | zero =>
      intro w _ _ hown
      rw [nested_zero hown]
      rfl
  | succ n ih =>
      intro w hok hcalls hown
      have hstep : step w .enter = some (entered w) := by
        simp [step, enabled, effect, rumpuserMutexEnter, hok, hcalls, tryenter_owner hown]
      simp only [List.replicate_succ, run, hstep]
      rw [ih (entered w) hok hcalls rfl, nested_succ]

/-- An exit with the count out of range is caught by the assertion. -/
theorem exit_nested {n : Nat} (hok : w.halted = none) (hcalls : w.calls = true) (hpos : 0 < n)
    (hover : ¬ 0 < (nested w n).mtx.v) :
    step (nested w n) .exit = some { nested w n with halted := some .exitAssert } := by
  have hholds : (nested w n).holds = true := by
    simp only [World.holds, nested, Function.update_self, decide_eq_true_eq]
    omega
  have hcalls' : (nested w n).calls = true := hcalls
  have hok' : (nested w n).halted = none := hok
  simp [step, enabled, effect, rumpuserMutexExit, hok', hcalls', hholds, hover]

/-- After `2^31` enters the count is negative, and the assertion of the first exit fails. -/
theorem mutex_count_runs_over :
    ¬ ∀ (events : List (Event Nat Unit)) (w : World Nat Nat Unit),
      run step (rumpuserMutexInit ⟨false, false⟩ some awake 0) events = some w → MutexSound w := by
  intro always
  obtain ⟨w, hfirst, hw⟩ : ∃ w : World Nat Nat Unit,
      run step (rumpuserMutexInit ⟨false, false⟩ some awake 0) [.enter] = some w ∧
      w.halted = none ∧ w.calls = true ∧ w.mtx.o = w.tls w.fib.currentThread ∧ w.mtx.v = 1 :=
    ⟨_, rfl, rfl, rfl, rfl, rfl⟩
  obtain ⟨hok, hcalls, hown, hv⟩ := hw
  have hover : ¬ 0 < (nested w (2 ^ 31 - 1)).mtx.v := by
    simp only [nested, hv]
    decide
  have hexit := exit_nested hok hcalls (by decide) hover
  have hrun : run step (rumpuserMutexInit ⟨false, false⟩ some awake 0)
      ([.enter] ++ (List.replicate (2 ^ 31 - 1) .enter ++ [.exit])) =
      some { nested w (2 ^ 31 - 1) with halted := some .exitAssert } := by
    rw [run_append, hfirst, Option.bind_some, run_append, enters_run _ w hok hcalls hown, Option.bind_some]
    simp only [run, hexit]
  exact (always _ _ hrun).asserted rfl

/-! ### Wakeups -/

/-- The thread has been taken off the wait head of the mutex and still has to try again. -/
def Pending (w : World Tid Lwp Cv) (t : Tid) : Prop :=
  w.pc t = .enterWait ∧ w.fib.onlist t = false

/-- Nobody sleeps on a free mutex unless somebody is on the way. -/
def NoLost (w : World Tid Lwp Cv) : Prop :=
  w.fib.waithead .mtx ≠ [] → 0 < w.mtx.v ∨ ∃ t, Pending w t

omit [DecidableEq Cv] in
theorem eq_enterWait_of_site {p : Pc Cv} (h : p.site = some .mtx) : p = .enterWait := by
  cases p <;> simp [Pc.site] at h
  rfl

omit [DecidableEq Cv] in
theorem ne_enterWait_of_site {p : Pc Cv} (h : p.site ≠ some .mtx) : p ≠ .enterWait := by
  rintro rfl
  exact h rfl

namespace NoLost

omit [DecidableEq Tid] [DecidableEq Lwp] [DecidableEq Cv] in
/-- With the mutex held nobody is lost. -/
theorem of_holder (h : Inv w) {t : Tid} (hpos : 0 < w.depth t) : NoLost w :=
  fun _ => Or.inl (h.owned.held_of_pos hpos)

omit [DecidableEq Tid] [DecidableEq Lwp] [DecidableEq Cv] in
theorem frame {w' : World Tid Lwp Cv} (h : NoLost w)
    (hqueue : w'.fib.waithead .mtx = w.fib.waithead .mtx) (hv : w'.mtx.v = w.mtx.v)
    (hpending : ∀ t, Pending w t → Pending w' t) : NoLost w' := by
  intro hne
  rw [hqueue] at hne
  rcases h hne with hheld | ⟨t, ht⟩
  · exact Or.inl (hv ▸ hheld)
  · exact Or.inr ⟨t, hpending t ht⟩

omit [DecidableEq Lwp] [DecidableEq Cv] in
/-- A pending thread is not the one that moves. -/
theorem goto (h : NoLost w) (hfrom : (w.pc w.fib.currentThread).site ≠ some .mtx) (p : Pc Cv) :
    NoLost (goto w p) := by
  refine h.frame rfl rfl ?_
  rintro t ⟨hpc, hoff⟩
  have hcur : t ≠ w.fib.currentThread := by
    rintro rfl
    exact ne_enterWait_of_site hfrom hpc
  exact ⟨by simpa only [Mutex.goto, Function.update_of_ne hcur] using hpc, hoff⟩

omit [DecidableEq Lwp] in
theorem exit (hinv : Inv w) (hholds : 0 < w.depth w.fib.currentThread) :
    NoLost (rumpuserMutexExit w) := by
  rcases exit_cases hinv.owned hholds with ⟨-, heq⟩ | ⟨hmore, heq⟩
  · rw [heq]
    intro hne
    refine Or.inr ?_
    cases hqueue : w.fib.waithead .mtx with
    | nil => simp [released, wakeupOne, hqueue] at hne
    | cons who rest =>
        -- the first waiter is on its way now
        have hsite := ((hinv.queues.member .mtx who).mp (by simp [hqueue])).1
        refine ⟨who, eq_enterWait_of_site hsite, ?_⟩
        simp [released, wakeupOne, hqueue]
  · rw [heq]
    refine fun _ => Or.inl ((hinv.owned.leaveNested hmore).held_of_pos (t := w.fib.currentThread) ?_)
    rw [Function.update_self]
    omega

omit [DecidableEq Lwp] in
theorem asleepCv (h : NoLost w) (hfrom : (w.pc w.fib.currentThread).site = none) (p : Pc Cv) (c : Cv)
    (now nsec : Nat) : NoLost (asleep w p (.cv c) now nsec) := by
  refine h.frame ?_ rfl ?_
  · simp [asleep, waitBegin]
  · rintro t ⟨hpc, hoff⟩
    have hcur : t ≠ w.fib.currentThread := by
      rintro rfl
      exact ne_enterWait_of_site (by simp [hfrom]) hpc
    constructor
    · simpa only [asleep, Mutex.goto, Function.update_of_ne hcur] using hpc
    · simpa only [asleep, waitBegin, Function.update_of_ne hcur] using hoff

omit [DecidableEq Lwp] in
theorem awokenCv (h : NoLost w) {c : Cv}
    (hfrom : (w.pc w.fib.currentThread).site = some (.cv c)) : NoLost (awoken w (.cv c)) := by
  have hmoved := h.goto (by simp [hfrom]) .outside
  refine hmoved.frame ?_ rfl ?_
  · simp only [awoken, waitEnd, Mutex.goto]
    split <;> simp
  · rintro t ⟨hpc, hoff⟩
    refine ⟨hpc, ?_⟩
    simp only [awoken, waitEnd]
    split <;> exact hoff

omit [DecidableEq Cv] in
theorem enterNowrap (h : NoLost w) (hinv : Inv w) {failed : Halt}
    (hnext : Inv (rumpuserMutexEnterNowrap w failed)) : NoLost (rumpuserMutexEnterNowrap w failed) := by
  unfold rumpuserMutexEnterNowrap at hnext ⊢
  rcases tryenter_cases hinv.bound hinv.owned with ⟨heq, -⟩ | ⟨heq, -⟩
  · rw [heq]
    exact h
  · rw [heq] at hnext ⊢
    exact of_holder hnext Inv.depth_entered_pos

/-- The loop of `rumpuser_mutex_enter` ends with the mutex held, by the caller or by the one it waits
    for. -/
theorem enterLoop (hinv : Inv w) {now : Nat} (hnext : Inv (enterLoop w now)) :
    NoLost (enterLoop w now) := by
  rcases tryenter_cases hinv.bound hinv.owned with ⟨heq, t, -, ht⟩ | ⟨heq, -⟩
  · rw [enterLoop_of_none heq] at hnext ⊢
    exact of_holder hnext ht
  · rw [enterLoop_of_some heq] at hnext ⊢
    exact of_holder hnext Inv.depth_entered_pos

omit [DecidableEq Lwp] in
theorem cvSleep (hinv : Inv w) (hholds : 0 < w.depth w.fib.currentThread)
    (hfrom : (w.pc w.fib.currentThread).site = none) (c : Cv) (call : CvCall) (now : Nat) :
    NoLost (cvSleep w c call now) := by
  rw [cvSleep_eq]
  refine asleepCv (exit (hinv.moveOut hfrom) hholds) ?_ _ c now call.waitNsec
  rw [exit_goto]
  simp [Mutex.goto, Pc.site]

omit [DecidableEq Cv] in
theorem reacquire (h : NoLost w) (hinv : Inv w) (hfrom : (w.pc w.fib.currentThread).site = none)
    {p : Pc Cv} (hnext : Inv (Mutex.goto (rumpuserMutexEnterNowrap w .reacquire) p)) :
    NoLost (Mutex.goto (rumpuserMutexEnterNowrap w .reacquire) p) := by
  unfold rumpuserMutexEnterNowrap at hnext ⊢
  rcases tryenter_cases hinv.bound hinv.owned with ⟨heq, -⟩ | ⟨heq, -⟩
  · rw [heq]
    have hhalted : NoLost { w with halted := some Halt.reacquire } := h
    exact hhalted.goto (by simp [hfrom]) p
  · rw [heq] at hnext ⊢
    exact of_holder hnext Inv.depth_entered_pos

theorem cvWoken (h : NoLost w) (hinv : Inv w) {c : Cv} {call : CvCall}
    (hfrom : w.pc w.fib.currentThread = .cvWait c call) : NoLost (cvWoken w c call) := by
  have hnext := hinv.cvWoken hfrom
  have hsite : (w.pc w.fib.currentThread).site = some (.cv c) := by simp [hfrom, Pc.site]
  have hbase := h.awokenCv hsite
  have hbinv := hinv.awoken hsite
  have hout : ((awoken w (.cv c)).pc (awoken w (.cv c)).fib.currentThread).site = none := by
    simp [awoken_outside, Pc.site]
  rw [cvWoken_eq] at hnext ⊢
  cases call with
  | cvWaitNowrap => exact hbase.reacquire hbinv hout (p := .outside) (hnext.setNwaiters _)
  | cvWait | cvTimedwait sec nsec =>
      dsimp only at hnext ⊢
      split at hnext
      · rename_i hspin
        rw [if_pos hspin]
        exact hbase.goto (by simp [hout]) _
      · rename_i hspin
        rw [if_neg hspin]
        exact hbase.reacquire hbinv hout hnext

theorem resume (h : NoLost w) (hinv : Inv w) (hok : w.halted = none) (now : Nat) :
    NoLost (resume w now) := by
  have hnext := hinv.resume hok now
  unfold Mutex.resume at hnext ⊢
  split at hnext
  · exact h
  · exact enterLoop hinv hnext
  · rename_i hpc
    rw [enterLoop_awoken] at hnext ⊢
    exact enterLoop (hinv.awoken (by simp [hpc, Pc.site])) hnext
  · rename_i hpc
    exact h.goto (by simp [hpc, Pc.site]) _
  · rename_i c call hpc
    exact cvSleep hinv (hinv.within hok _ (by simp [hpc, Pc.mustHold])) (by simp [hpc, Pc.site])
      c call now
  · rename_i c call hpc
    exact h.cvWoken hinv hpc
  · rename_i c hpc
    exact h.reacquire hinv (by simp [hpc, Pc.site]) (p := .outside) (hnext.setNwaiters _)
  · rename_i c hpc
    exact h.goto (by simp [hpc, Pc.site]) .outside

end NoLost

theorem noLost_step {w' : World Tid Lwp Cv} {e : Event Tid Cv} (hinv : Inv w) (h : NoLost w)
    (hnests : Nests w e) (hstep : step w e = some w') : NoLost w' := by
  have hnext := inv_step hinv hnests hstep
  obtain ⟨hok, henabled, rfl⟩ := step_inv hstep
  cases e with
  | enter =>
      have hpc := (runsAt_inv henabled).2
      simp only [effect, rumpuserMutexEnter] at hnext ⊢
      rcases tryenter_cases hinv.bound hinv.owned with ⟨heq, -⟩ | ⟨heq, -⟩
      · rw [heq]
        exact h.goto (by simp [hpc, Pc.site]) _
      · rw [heq] at hnext ⊢
        exact .of_holder hnext Inv.depth_entered_pos
  | tryenter =>
      simp only [effect] at hnext ⊢
      rcases tryenter_cases hinv.bound hinv.owned with ⟨heq, -⟩ | ⟨heq, -⟩
      · rw [heq]
        exact h
      · rw [heq] at hnext ⊢
        exact .of_holder hnext Inv.depth_entered_pos
  | enterNowrap => exact h.enterNowrap hinv hnext
  | exit => exact .exit hinv (holds_inv henabled).2.2
  | cvCall c call now =>
      obtain ⟨-, hpc, hholds⟩ := holds_inv henabled
      have hsite : (w.pc w.fib.currentThread).site = none := by simp [hpc, Pc.site]
      have hcount := hinv.setNwaiters (Function.update w.nwaiters c (w.nwaiters c + 1))
      cases call with
      | cvWaitNowrap => exact .cvSleep hcount hholds hsite c _ now
      | cvWait => exact h.goto (by simp [hsite]) _
      | cvTimedwait sec nsec => exact h.goto (by simp [hsite]) _
  | cvSignal c =>
      refine h.frame ?_ rfl ?_
      · simp only [effect, wakeupOne]
        split <;> simp
      · rintro t ⟨hpc, hoff⟩
        refine ⟨hpc, ?_⟩
        simp only [effect, wakeupOne]
        split
        · exact hoff
        · rename_i who rest _
          by_cases ht : t = who
          · simp [ht]
          · simp [ht, hoff]
  | cvBroadcast c =>
      refine h.frame ?_ rfl ?_
      · simp [effect, wakeupAll_eq]
      · rintro t ⟨hpc, hoff⟩
        refine ⟨hpc, ?_⟩
        simp [effect, wakeupAll_eq, hoff]
  | resume now => exact h.resume hinv hok now
  | cpu e => cases e <;> exact h

/-- What the waiters of the mutex rely on. -/
def NoLostWakeup (w : World Tid Lwp Cv) : Prop :=
  w.fib.waithead .mtx ≠ [] → 0 < w.mtx.v ∨
    ∃ t, w.pc t = .enterWait ∧ t ∉ w.fib.waithead .mtx ∧ isRunnable w.fib.tcb t = true

/-- In every run in which no thread asks for the mutex with `2^31 - 1` unmatched enters of its own, and with
    wakeups from anywhere at any time, the mutex is never free with all its waiters asleep: it is held, or a
    runnable thread off the queue still has to retry. -/
theorem mutex_no_lost_wakeup {flags : MtxFlags} {tls : Tid → Option Lwp} (bound : Bound tls)
    {tcb : Tcbs Tid} {running : Tid} {events : List (Event Tid Cv)} {w : World Tid Lwp Cv}
    (hmeets : Meets step Nests (rumpuserMutexInit flags tls tcb running) events)
    (hrun : run step (rumpuserMutexInit flags tls tcb running) events = some w) : NoLostWakeup w := by
  have hboth : Inv w ∧ NoLost w :=
    run_invariant_of_meets (I := fun w => Inv w ∧ NoLost w)
      (fun _ _ _ h hnests hstep => ⟨inv_step h.1 hnests hstep, noLost_step h.1 h.2 hnests hstep⟩)
      ⟨Inv.init flags bound tcb running, fun hne => absurd rfl hne⟩ hmeets hrun
  obtain ⟨hinv, hlost⟩ := hboth
  intro hne
  rcases hlost hne with hheld | ⟨t, hpc, hoff⟩
  · exact Or.inl hheld
  · refine Or.inr ⟨t, hpc, ?_, hinv.queues.woken t (by simp [hpc, Pc.site]) hoff⟩
    intro hmem
    have hon := ((hinv.queues.member .mtx t).mp hmem).2
    rw [hoff] at hon
    cases hon

/-- Two threads wait; the holder leaves, and the second waiter sleeps on while the first is on its
    way. -/
theorem mutex_no_lost_wakeup_two :
    ∃ w : World Nat Nat Unit, run step (rumpuserMutexInit ⟨false, false⟩ some awake 0)
        [.enter, .cpu .yield, .cpu (.dispatch 1), .enter, .resume 0, .cpu (.dispatch 2), .enter,
          .resume 0, .cpu (.dispatch 0), .exit] = some w ∧
      w.mtx.v = 0 ∧ w.fib.waithead .mtx = [2] ∧ NoLostWakeup w :=
  ⟨_, rfl, rfl, rfl, @mutex_no_lost_wakeup _ _ _ _ _ _ ⟨false, false⟩ some bound_some awake 0
    [.enter, .cpu .yield, .cpu (.dispatch 1), .enter, .resume 0, .cpu (.dispatch 2), .enter,
      .resume 0, .cpu (.dispatch 0), .exit] _ (by decide) rfl⟩

/-- Thread 1 waits for thread 0, which enters until the count is zero again: the mutex is free, its waiter
    sleeps, and nobody is on the way. -/
theorem mutex_free_while_waited_for :
    ¬ ∀ (events : List (Event Nat Unit)) (w : World Nat Nat Unit),
      run step (rumpuserMutexInit ⟨false, false⟩ some awake 0) events = some w → NoLostWakeup w := by
  intro always
  obtain ⟨w, hfirst, hw⟩ : ∃ w : World Nat Nat Unit,
      run step (rumpuserMutexInit ⟨false, false⟩ some awake 0)
        [.enter, .cpu .yield, .cpu (.dispatch 1), .enter, .resume 0, .cpu (.dispatch 0)] = some w ∧
      w.halted = none ∧ w.calls = true ∧ w.mtx.o = w.tls w.fib.currentThread ∧ w.mtx.v = 1 ∧
      w.fib.waithead .mtx = [1] ∧ ∀ t, t ≠ 1 → w.pc t ≠ .enterWait := by
    refine ⟨_, rfl, rfl, rfl, rfl, rfl, rfl, fun t ht => ?_⟩
    simp [enterLoop, retry, tryenter, rumpuserMutexTryenter, rumpuserMutexEnter, rumpuserMutexInit, resume,
      asleep, goto, cpuEffect, effect, ht]
  obtain ⟨hok, hcalls, hown, hv, hwaits, hpc⟩ := hw
  have hrun : run step (rumpuserMutexInit ⟨false, false⟩ some awake 0)
      ([.enter, .cpu .yield, .cpu (.dispatch 1), .enter, .resume 0, .cpu (.dispatch 0)] ++
        List.replicate (2 ^ 32 - 1) .enter) = some (nested w (2 ^ 32 - 1)) := by
    rw [run_append, hfirst, Option.bind_some, enters_run _ w hok hcalls hown]
  have hwaits' : (nested w (2 ^ 32 - 1)).fib.waithead .mtx = [1] := hwaits
  rcases always _ _ hrun (by rw [hwaits']; exact List.cons_ne_nil _ _) with hheld | ⟨t, hplace, hoff, -⟩
  · simp only [nested, hv] at hheld
    exact absurd hheld (by decide)
  · rw [hwaits', List.mem_singleton] at hoff
    exact hpc t hoff hplace

end RumpBaremetal.Mutex
