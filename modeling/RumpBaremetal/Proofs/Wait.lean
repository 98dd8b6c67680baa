/-
Module: RumpBaremetal.Proofs.Wait
Layer: Proofs
Purpose: The accounting of the sleep queues.  `Queues site` ties every queue to the threads that are inside
  `wait` on it, where `site` is read off the program counters of the hypercalls; one lemma for each
  operation says how it moves.  The events of the processor and the loop around an attempt are the same for
  all hypercalls, and so is what they keep.
Trusted boundary: none (fully proved)
Main exports: Queues, Queues.waitBegin, Queues.waitEnd, Queues.wakeupOne, Queues.wakeupAll, Queues.cpu,
  Queues.moved, Queues.goesToSleep, Queues.comesBack, cpuAllowed_inv, runsAt_inv, retry_congr
-/
import RumpBaremetal.Fiber.Wait
import RumpBaremetal.Lib.StepSystem

namespace RumpBaremetal

open StepSystem

variable {Tid Wh : Type*} [DecidableEq Tid] [DecidableEq Wh]

/-- `site t` is the wait head on which `t` is inside `wait`, if any. -/
structure Queues (site : Tid → Option Wh) (s : Fibers Tid Wh) : Prop where
  member : ∀ wh t, t ∈ s.waithead wh ↔ site t = some wh ∧ s.onlist t = true
  once : ∀ wh, (s.waithead wh).Nodup
  /-- A waiter that was taken off its queue has been woken, and stays so until it runs. -/
  woken : ∀ t, (site t).isSome → s.onlist t = false → isRunnable s.tcb t = true
  running : s.scheduling = false → isRunnable s.tcb s.currentThread = true

/-! ### What the operations do to the run states -/

omit [DecidableEq Wh] in
@[simp] theorem isRunnable_setwakeup (tcb : Tcbs Tid) (t u : Tid) (abstime : Int) :
    isRunnable (bmkSchedSetwakeup tcb t abstime) u = isRunnable tcb u := by
  by_cases h : u = t
  · subst h
    simp [isRunnable, bmkSchedSetwakeup]
  · simp [isRunnable, bmkSchedSetwakeup, h]

theorem isRunnable_waitBegin (s : Fibers Tid Wh) (wh : Wh) (now nsec : Nat) (t : Tid) :
    isRunnable (waitBegin s wh now nsec).tcb t = true ↔
      t ≠ s.currentThread ∧ isRunnable s.tcb t = true := by
  unfold waitBegin
  dsimp only
  split
  · rw [isRunnable_setwakeup, isRunnable_block]
  · rw [isRunnable_block]

@[simp] theorem waitEnd_tcb (s : Fibers Tid Wh) (wh : Wh) : (waitEnd s wh).tcb = s.tcb := by
  unfold waitEnd
  split <;> rfl

@[simp] theorem waitEnd_currentThread (s : Fibers Tid Wh) (wh : Wh) :
    (waitEnd s wh).currentThread = s.currentThread := by
  unfold waitEnd
  split <;> rfl

@[simp] theorem waitEnd_scheduling (s : Fibers Tid Wh) (wh : Wh) :
    (waitEnd s wh).scheduling = s.scheduling := by
  unfold waitEnd
  split <;> rfl

theorem waitEnd_waithead (s : Fibers Tid Wh) (wh wh' : Wh) :
    (waitEnd s wh).waithead wh' =
      if wh = wh' ∧ s.onlist s.currentThread = true then (s.waithead wh').erase s.currentThread
      else s.waithead wh' := by
  unfold waitEnd
  by_cases hon : s.onlist s.currentThread = true
  · by_cases hwh : wh = wh'
    · subst hwh
      simp [hon]
    · simp [hon, hwh, Function.update_of_ne (Ne.symm hwh)]
  · simp [hon]

@[simp] theorem waitEnd_onlist (s : Fibers Tid Wh) (wh : Wh) : (waitEnd s wh).onlist = s.onlist := by
  unfold waitEnd
  split <;> rfl

@[simp] theorem wakeupOne_currentThread (s : Fibers Tid Wh) (wh : Wh) :
    (wakeupOne s wh).currentThread = s.currentThread := by
  unfold wakeupOne
  split <;> rfl

@[simp] theorem wakeupOne_scheduling (s : Fibers Tid Wh) (wh : Wh) :
    (wakeupOne s wh).scheduling = s.scheduling := by
  unfold wakeupOne
  split <;> rfl

theorem isRunnable_wakeupOne (s : Fibers Tid Wh) (wh : Wh) (t : Tid) :
    isRunnable (wakeupOne s wh).tcb t = true ↔
      (s.waithead wh).head? = some t ∨ isRunnable s.tcb t = true := by
  unfold wakeupOne
  cases hqueue : s.waithead wh with
  | nil => simp
  | cons who rest =>
      simp only [isRunnable_wake, List.head?_cons, Option.some.injEq]
      rw [eq_comm]

omit [DecidableEq Wh] in
theorem isRunnable_foldl_wake (l : List Tid) (tcb : Tcbs Tid) (t : Tid) :
    isRunnable (l.foldl bmkSchedWake tcb) t = true ↔ t ∈ l ∨ isRunnable tcb t = true := by
  induction l generalizing tcb with
  | nil => simp
  | cons who rest ih =>
      rw [List.foldl_cons, ih, isRunnable_wake, List.mem_cons]
      tauto

/-- What a wakeup amounts to, on an empty queue as well. -/
theorem wakeupOne_eq (s : Fibers Tid Wh) (wh : Wh) :
    wakeupOne s wh = { s with
      waithead := Function.update s.waithead wh (s.waithead wh).tail
      onlist := fun t => if t ∈ (s.waithead wh).head?.toList then false else s.onlist t
      tcb := (s.waithead wh).head?.toList.foldl bmkSchedWake s.tcb } := by
  unfold wakeupOne
  cases hqueue : s.waithead wh with
  | nil =>
      have hsame : Function.update s.waithead wh [] = s.waithead := by
        rw [← hqueue, Function.update_eq_self]
      simp [hsame]
  | cons who rest =>
      have honlist : Function.update s.onlist who false = fun t => if t = who then false
          else s.onlist t := by
        funext t
        rw [Function.update_apply]
      simp [honlist]

/-- What the loop of `wakeup_all` amounts to. -/
theorem wakeupAll_eq (s : Fibers Tid Wh) (wh : Wh) :
    wakeupAll s wh = { s with
      waithead := Function.update s.waithead wh []
      onlist := fun t => if t ∈ s.waithead wh then false else s.onlist t
      tcb := (s.waithead wh).foldl bmkSchedWake s.tcb } := by
  unfold wakeupAll
  generalize hqueue : s.waithead wh = queue
  induction queue generalizing s with
  | nil =>
      have hsame : Function.update s.waithead wh [] = s.waithead := by
        rw [← hqueue, Function.update_eq_self]
      simp [hsame]
  | cons who rest ih =>
      have hone : wakeupOne s wh =
          { s with
            waithead := Function.update s.waithead wh rest
            onlist := Function.update s.onlist who false
            tcb := bmkSchedWake s.tcb who } := by
        simp [wakeupOne, hqueue]
      rw [List.foldl_cons, hone, ih _ (by simp)]
      simp only [Function.update_idem, List.foldl_cons, List.mem_cons, Fibers.mk.injEq, true_and]
      funext t
      by_cases ht : t = who
      · simp [ht]
      · simp [ht]

/-! ### The accounting -/

namespace Queues

variable {site : Tid → Option Wh} {s : Fibers Tid Wh}

omit [DecidableEq Tid] [DecidableEq Wh] in
theorem not_mem_of_outside (h : Queues site s) {t : Tid} (hout : site t = none) (wh : Wh) :
    t ∉ s.waithead wh := by
  intro hmem
  have hsite := ((h.member wh t).mp hmem).1
  rw [hout] at hsite
  cases hsite

theorem waitBegin (h : Queues site s) (hout : site s.currentThread = none) (wh : Wh)
    (now nsec : Nat) :
    Queues (Function.update site s.currentThread (some wh)) (waitBegin s wh now nsec) where
  member := by
    intro wh' t
    simp only [RumpBaremetal.waitBegin]
    by_cases ht : t = s.currentThread
    · subst ht
      by_cases hwh : wh' = wh
      · subst hwh
        simp
      · have hnot := h.not_mem_of_outside hout wh'
        simp [hwh, hnot, Ne.symm hwh]
    · by_cases hwh : wh' = wh
      · subst hwh
        simp [ht, h.member]
      · simp [hwh, ht, h.member]
  once := by
    intro wh'
    simp only [RumpBaremetal.waitBegin]
    by_cases hwh : wh' = wh
    · subst hwh
      simp only [Function.update_self]
      refine List.nodup_append.mpr ⟨h.once wh', List.nodup_singleton _, ?_⟩
      intro a ha b hb
      rw [List.mem_singleton.mp hb]
      rintro rfl
      exact h.not_mem_of_outside hout wh' ha
    · simp only [Function.update_of_ne hwh]
      exact h.once wh'
  woken := by
    intro t hsite hoff
    have ht : t ≠ s.currentThread := by
      rintro rfl
      simp [RumpBaremetal.waitBegin] at hoff
    simp only [Function.update_of_ne ht] at hsite
    simp only [RumpBaremetal.waitBegin, Function.update_of_ne ht] at hoff
    exact (isRunnable_waitBegin s wh now nsec t).mpr ⟨ht, h.woken t hsite hoff⟩
  running := by simp [RumpBaremetal.waitBegin]

theorem waitEnd (h : Queues site s) {wh : Wh} (hin : site s.currentThread = some wh) :
    Queues (Function.update site s.currentThread none) (waitEnd s wh) where
  member := by
    intro wh' t
    unfold RumpBaremetal.waitEnd
    by_cases ht : t = s.currentThread
    · subst ht
      split
      · by_cases hwh : wh' = wh
        · subst hwh
          simp [(h.once wh').mem_erase_iff]
        · have hnot : s.currentThread ∉ s.waithead wh' := by
            rw [h.member, hin]
            simp [Ne.symm hwh]
          simp [hwh, hnot]
      · rename_i hoff
        simp [h.member, hoff]
    · split
      · by_cases hwh : wh' = wh
        · subst hwh
          simp [List.mem_erase_of_ne ht, h.member, ht]
        · simp [hwh, h.member, ht]
      · simp [h.member, ht]
  once := by
    intro wh'
    unfold RumpBaremetal.waitEnd
    split
    · by_cases hwh : wh' = wh
      · subst hwh
        simp only [Function.update_self]
        exact (h.once wh').erase _
      · simp only [Function.update_of_ne hwh]
        exact h.once wh'
    · exact h.once wh'
  woken := by
    intro t hsite hoff
    have ht : t ≠ s.currentThread := by
      rintro rfl
      simp at hsite
    simp only [Function.update_of_ne ht] at hsite
    rw [waitEnd_tcb]
    refine h.woken t hsite ?_
    unfold RumpBaremetal.waitEnd at hoff
    split at hoff <;> exact hoff
  running := by
    intro hrun
    rw [waitEnd_tcb, waitEnd_currentThread]
    rw [waitEnd_scheduling] at hrun
    exact h.running hrun

theorem wakeupOne (h : Queues site s) (wh : Wh) : Queues site (wakeupOne s wh) := by
  have hkeep : ∀ t, isRunnable s.tcb t = true → isRunnable (RumpBaremetal.wakeupOne s wh).tcb t = true :=
    fun t ht => (isRunnable_wakeupOne s wh t).mpr (Or.inr ht)
  have hhead : ∀ t, (s.waithead wh).head? = some t →
      isRunnable (RumpBaremetal.wakeupOne s wh).tcb t = true :=
    fun t ht => (isRunnable_wakeupOne s wh t).mpr (Or.inl ht)
  unfold RumpBaremetal.wakeupOne at hkeep hhead ⊢
  cases hqueue : s.waithead wh with
  | nil => exact h
  | cons who rest =>
      simp only [hqueue, List.head?_cons, Option.some.injEq] at hkeep hhead ⊢
      have honce := h.once wh
      rw [hqueue, List.nodup_cons] at honce
      have hwho : site who = some wh := ((h.member wh who).mp (by simp [hqueue])).1
      refine ⟨?_, ?_, ?_, ?_⟩
      · intro wh' t
        by_cases ht : t = who
        · subst ht
          by_cases hwh : wh' = wh
          · subst hwh
            simp [honce.1]
          · have hnot : t ∉ s.waithead wh' := by
              rw [h.member, hwho]
              simp [Ne.symm hwh]
            simp [hwh, hnot]
        · by_cases hwh : wh' = wh
          · subst hwh
            have hmem := h.member wh' t
            simp only [hqueue, List.mem_cons, ht, false_or] at hmem
            simp [ht, hmem]
          · simp [hwh, ht, h.member]
      · intro wh'
        by_cases hwh : wh' = wh
        · subst hwh
          simp only [Function.update_self]
          exact honce.2
        · simp only [Function.update_of_ne hwh]
          exact h.once wh'
      · intro t hsite hoff
        by_cases ht : t = who
        · exact hhead t ht.symm
        · simp only [Function.update_of_ne ht] at hoff
          exact hkeep t (h.woken t hsite hoff)
      · intro hrun
        exact hkeep _ (h.running hrun)

theorem wakeupAll (h : Queues site s) (wh : Wh) : Queues site (wakeupAll s wh) := by
  unfold RumpBaremetal.wakeupAll
  generalize s.waithead wh = queue
  induction queue generalizing s with
  | nil => exact h
  | cons who rest ih => exact ih (h.wakeupOne wh)

section Places

variable {Pc : Type*} {pc : Tid → Pc} {place : Pc → Option Wh} {p : Pc}

omit [DecidableEq Wh] in
/-- The running thread goes from one place outside `wait` to another. -/
theorem moved (h : Queues (fun t => place (pc t)) s) (hfrom : place (pc s.currentThread) = none)
    (hp : place p = none) : Queues (fun t => place (Function.update pc s.currentThread p t)) s := by
  have hsame : (fun t => place (Function.update pc s.currentThread p t)) = fun t => place (pc t) := by
    refine (Function.comp_update place pc s.currentThread p).trans ?_
    rw [hp, ← hfrom]
    exact Function.update_eq_self s.currentThread (place ∘ pc)
  rw [hsame]
  exact h

/-- The running thread goes to sleep at a place inside `wait`. -/
theorem goesToSleep (h : Queues (fun t => place (pc t)) s) (hfrom : place (pc s.currentThread) = none)
    {wh : Wh} (hp : place p = some wh) (now nsec : Nat) :
    Queues (fun t => place (Function.update pc s.currentThread p t))
      (RumpBaremetal.waitBegin s wh now nsec) := by
  have hsite : (fun t => place (Function.update pc s.currentThread p t)) =
      Function.update (fun t => place (pc t)) s.currentThread (some wh) := by
    rw [← hp]
    exact Function.comp_update place pc s.currentThread p
  rw [hsite]
  exact h.waitBegin hfrom wh now nsec

/-- The running thread comes back from `wait`. -/
theorem comesBack (h : Queues (fun t => place (pc t)) s) {wh : Wh}
    (hfrom : place (pc s.currentThread) = some wh) (hp : place p = none) :
    Queues (fun t => place (Function.update pc s.currentThread p t)) (RumpBaremetal.waitEnd s wh) := by
  have hsite : (fun t => place (Function.update pc s.currentThread p t)) =
      Function.update (fun t => place (pc t)) s.currentThread none := by
    rw [← hp]
    exact Function.comp_update place pc s.currentThread p
  rw [hsite]
  exact h.waitEnd hfrom

end Places

omit [DecidableEq Wh] in
/-- Threads inside `wait` do not run, so they do not put themselves to sleep again. -/
theorem cpu (h : Queues site s) {e : CpuEvent Tid} (henabled : cpuEnabled s e = true)
    (hout : ∀ wakeupTime, e = .sleep wakeupTime → site s.currentThread = none) :
    Queues site (cpuEffect s e) := by
  cases e with
  | sleep wakeupTime =>
      refine ⟨h.member, h.once, ?_, by simp [cpuEffect]⟩
      intro t hsite hoff
      have ht : t ≠ s.currentThread := by
        rintro rfl
        simp [hout wakeupTime rfl] at hsite
      simp only [cpuEffect, isRunnable_setwakeup, isRunnable_block]
      exact ⟨ht, h.woken t hsite hoff⟩
  | yield => exact ⟨h.member, h.once, h.woken, by simp [cpuEffect]⟩
  | dispatch t =>
      refine ⟨h.member, h.once, h.woken, ?_⟩
      intro _
      simp only [cpuEnabled, Bool.and_eq_true] at henabled
      exact henabled.2
  | wake t =>
      refine ⟨h.member, h.once, ?_, ?_⟩
      · intro u hsite hoff
        exact (isRunnable_wake s.tcb t u).mpr (Or.inr (h.woken u hsite hoff))
      · intro hrun
        exact (isRunnable_wake s.tcb t _).mpr (Or.inr (h.running hrun))
  | expire tm t =>
      refine ⟨h.member, h.once, ?_, ?_⟩
      · intro u hsite hoff
        exact isRunnable_expire tm s.tcb t u (h.woken u hsite hoff)
      · intro hrun
        exact isRunnable_expire tm s.tcb t _ (h.running hrun)

end Queues

/-! ### Threads inside hypercalls -/

section Hypercalls

variable {Pc World : Type*} {s : Fibers Tid Wh}

omit [DecidableEq Tid] [DecidableEq Wh] in
theorem cpuAllowed_inv {site : Option Wh} {e : CpuEvent Tid} (h : cpuAllowed s site e = true) :
    cpuEnabled s e = true ∧ ((∃ d, e = .sleep d) ∨ e = .yield → site = none) := by
  cases e <;> simp_all [cpuAllowed]

omit [DecidableEq Tid] [DecidableEq Wh] in
theorem runsAt_inv [DecidableEq Pc] {pc : Tid → Pc} {place : Pc} (h : runsAt s pc place = true) :
    s.scheduling = false ∧ pc s.currentThread = place := by
  simpa [runsAt] using h

/-- A change of the state that the attempt does not see and the continuations undo plays no part in the
    loop. -/
theorem retry_congr (moved : World → World) {tryenter : World → Option World}
    {inside outside : World → World} {w : World} (hsame : tryenter (moved w) = (tryenter w).map moved)
    (hin : ∀ w, inside (moved w) = inside w) (hout : outside (moved w) = outside w) :
    retry tryenter inside outside (moved w) = retry tryenter inside outside w := by
  unfold retry
  rw [hsame]
  cases tryenter w with
  | none => exact hout
  | some w' => exact hin w'

end Hypercalls

/-! ### A concrete machine -/

theorem bound_some : Bound (some : Nat → Option Nat) :=
  ⟨by simp, by simp⟩

/-- All threads are runnable. -/
def awake : Tcbs Nat := fun _ => { flags := { runnable := true } }

end RumpBaremetal
