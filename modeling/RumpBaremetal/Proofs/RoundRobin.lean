/-
Module: RumpBaremetal.Proofs.RoundRobin
Layer: Proofs
Purpose: The order in which `bmk_sched` serves the threads.  A pass takes the first thread of the list that
  may run and moves it behind all others, so that a thread that waits is overtaken by each other thread at
  most once: who has been served stands behind it, and new threads come in at the head but are served only
  once as well.
Trusted boundary: none (fully proved)
Main exports: eligible, scan_eq, selected, selections, SelectsFirst, Behind, round_robin
-/
import RumpBaremetal.Proofs.Lifecycle

namespace RumpBaremetal

/-! ### The scan as a search -/

section Scan

variable {Tid : Type*} [DecidableEq Tid]

/-- Runnable, or asleep until a time that has come. -/
def eligible (tm : Int) (tcb : Tcbs Tid) (t : Tid) : Bool :=
  isRunnable tcb t || decide (0 ≤ (tcb t).wakeupTime ∧ (tcb t).wakeupTime ≤ tm)

theorem expire_of_not_eligible {tm : Int} {tcb : Tcbs Tid} {t : Tid} (h : eligible tm tcb t = false) :
    expire tm tcb t = tcb := by
  unfold eligible at h
  simp only [Bool.or_eq_false_iff, decide_eq_false_iff_not] at h
  exact if_neg fun hwoken => h.2 hwoken.2

theorem isRunnable_expire_self (tm : Int) (tcb : Tcbs Tid) (t : Tid) :
    isRunnable (expire tm tcb t) t = eligible tm tcb t := by
  by_cases hrun : isRunnable tcb t = true
  · rw [isRunnable_expire tm tcb t t hrun, eligible, hrun, Bool.true_or]
  · by_cases htime : 0 ≤ (tcb t).wakeupTime ∧ (tcb t).wakeupTime ≤ tm
    · simp [expire, eligible, hrun, htime]
    · simp [expire, eligible, hrun, htime]

theorem expire_of_ne (tm : Int) (tcb : Tcbs Tid) {t u : Tid} (h : u ≠ t) : expire tm tcb t u = tcb u := by
  unfold expire
  split
  · rw [bmkSchedWake_of_ne _ h, setFlags_of_ne _ h]
  · rfl

/-- The scan is a search for the first eligible thread; it changes the control block of that one only. -/
theorem scan_eq (tm : Int) (tcb : Tcbs Tid) (threads : List Tid) :
    scan tm tcb threads =
      match threads.find? (eligible tm tcb) with
      | none => (tcb, none)
      | some next => (expire tm tcb next, some next) := by
  induction threads with
  | nil => rfl
  | cons thread rest ih =>
      simp only [scan, isRunnable_expire_self]
      cases helig : eligible tm tcb thread with
      | true => simp [helig]
      | false =>
          rw [expire_of_not_eligible helig, ih]
          simp [helig]

end Scan

namespace Sched

open StepSystem

variable {w w' : World} {e : Event} {t : Tid}

/-- The thread that an event gives the processor to. -/
def selected (w : World) : Event → Option Tid
  | .pass tm => (scan tm w.tcb w.threads).2
  | _ => none

/-- The threads that are given the processor along a run, in order. -/
def selections (w : World) (es : List Event) : List Tid :=
  collect step (fun w e => (selected w e).toList) w es

/-- What a pass of `bmk_sched` does at clock value `tm`: without an eligible thread nothing, otherwise the
    first one on the list moves to its end and runs, the rest of the list and all other control blocks
    staying as they are. -/
structure SelectsFirst (tm : Int) (w : World) : Prop where
  idle : selected w (.pass tm) = none → (∀ u ∈ w.threads, eligible tm w.tcb u = false) ∧ pass tm w = w
  switch : ∀ next, selected w (.pass tm) = some next →
    ∃ before after tcb, w.threads = before ++ next :: after ∧ (∀ u ∈ before, eligible tm w.tcb u = false) ∧
      eligible tm w.tcb next = true ∧ (∀ u, u ≠ next → tcb u = w.tcb u) ∧ isRunnable tcb next = true ∧
      pass tm w = resume { w with tcb := tcb, threads := before ++ after ++ [next], currentThread := next }

theorem selected_pass (tm : Int) (w : World) :
    selected w (.pass tm) = w.threads.find? (eligible tm w.tcb) := by
  simp only [selected, scan_eq]
  cases w.threads.find? (eligible tm w.tcb) <;> rfl

theorem selectsFirst (hnodup : w.threads.Nodup) (tm : Int) : SelectsFirst tm w where
  idle := by
    intro hnone
    rw [selected_pass] at hnone
    refine ⟨fun u hu => by simpa using List.find?_eq_none.mp hnone u hu, ?_⟩
    simp only [pass, scan_eq, hnone]
  switch := by
    intro next hnext
    rw [selected_pass] at hnext
    obtain ⟨helig, before, after, hsplit, hbefore⟩ := List.find?_eq_some_iff_append.mp hnext
    refine ⟨before, after, expire tm w.tcb next, hsplit, fun u hu => by simpa using hbefore u hu, helig,
      fun u hu => expire_of_ne tm w.tcb hu, by rw [isRunnable_expire_self, helig], ?_⟩
    have herase : w.threads.erase next = before ++ after := by
      rw [hsplit] at hnodup ⊢
      rw [List.erase_append_right _ fun hmem =>
        (List.nodup_append.mp hnodup).2.2 next hmem next List.mem_cons_self rfl, List.erase_cons_head]
    simp only [pass, scan_eq, hnext, herase]

/-! ### How the list changes -/

theorem exitLoop_threads (w : World) :
    (exitLoop w).created = w.created ∧
      ((exitLoop w).threads = w.threads ∨ ∃ x, (exitLoop w).threads = w.threads.erase x) := by
  unfold exitLoop
  dsimp only
  split
  · obtain ⟨tcb, heq, -⟩ := wakeJoiner_eq
      (w.setFlags w.currentThread fun flags => { flags with joined := true }) w.currentThread
    rw [heq]
    exact ⟨rfl, .inl rfl⟩
  · exact ⟨rfl, .inr ⟨_, rfl⟩⟩

theorem joinLoop_threads (w : World) (joinable : Tid) :
    (joinLoop w joinable).created = w.created ∧ (joinLoop w joinable).threads = w.threads := by
  unfold joinLoop
  dsimp only
  split <;> exact ⟨rfl, rfl⟩

theorem resume_threads (w : World) :
    (resume w).created = w.created ∧
      ((resume w).threads = w.threads ∨ ∃ x, (resume w).threads = w.threads.erase x) := by
  unfold resume
  split
  · exact ⟨rfl, .inl rfl⟩
  · exact ⟨rfl, .inl rfl⟩
  · rename_i prev caller _
    obtain ⟨zombies, freedStacks, freedThreads, heq⟩ := reaper_eq prev w
    rw [heq]
    cases caller with
    | other => exact ⟨rfl, .inl rfl⟩
    | exitGate => exact exitLoop_threads _
    | exitFinal => exact ⟨rfl, .inl rfl⟩
    | join joinable => exact ⟨(joinLoop_threads _ _).1, .inl (joinLoop_threads _ _).2⟩

/-- An event puts a new thread at the head, or moves the selected thread to the end; at most one thread
    leaves. -/
theorem step_threads (h : step w e = some w') :
    (selected w e = none ∧ w'.created = w.created + 1 ∧ w'.threads = w.created :: w.threads) ∨
    (w'.created = w.created ∧ ∃ l,
      (selected w e = none ∧ l = w.threads ∨ ∃ v, selected w e = some v ∧ l = w.threads.erase v ++ [v]) ∧
      (w'.threads = l ∨ ∃ x, w'.threads = l.erase x)) := by
  obtain ⟨-, -, rfl⟩ := step_inv h
  cases e with
  | create thrflags stackBase stackSize =>
      cases stackBase with
      | none =>
          by_cases hsize : stackSize ≠ 0
          · refine .inr ⟨?_, _, .inl ⟨rfl, rfl⟩, .inl ?_⟩ <;>
              simp only [effect, bmkSchedCreate, if_pos hsize]
          · refine .inl ⟨rfl, ?_, ?_⟩ <;> simp only [effect, bmkSchedCreate, if_neg hsize]
      | some base => exact .inl ⟨rfl, rfl, rfl⟩
  | exit => exact .inr ⟨(exitLoop_threads _).1, _, .inl ⟨rfl, rfl⟩, (exitLoop_threads _).2⟩
  | join joinable =>
      refine .inr ?_
      simp only [effect, bmkSchedJoin]
      split
      · exact ⟨(joinLoop_threads _ _).1, _, .inl ⟨rfl, rfl⟩, .inl (joinLoop_threads _ _).2⟩
      · exact ⟨rfl, _, .inl ⟨rfl, rfl⟩, .inl rfl⟩
  | sched => exact .inr ⟨rfl, _, .inl ⟨rfl, rfl⟩, .inl rfl⟩
  | block thread => exact .inr ⟨rfl, _, .inl ⟨rfl, rfl⟩, .inl rfl⟩
  | setwakeup thread abstime => exact .inr ⟨rfl, _, .inl ⟨rfl, rfl⟩, .inl rfl⟩
  | nanosleep now nsec => exact .inr ⟨rfl, _, .inl ⟨rfl, rfl⟩, .inl rfl⟩
  | wake thread => exact .inr ⟨rfl, _, .inl ⟨rfl, rfl⟩, .inl rfl⟩
  | pass tm =>
      refine .inr ?_
      simp only [effect, pass, selected]
      cases hscan : scan tm w.tcb w.threads with
      | mk tcb next =>
          cases next with
          | none => exact ⟨rfl, _, .inl ⟨rfl, rfl⟩, .inl rfl⟩
          | some v => exact ⟨(resume_threads _).1, _, .inr ⟨v, rfl, rfl⟩, (resume_threads _).2⟩

/-! ### Who has been served stands behind -/

theorem pair_sublist_erase {l : List Tid} (hnodup : l.Nodup) {u x : Tid} (h : [t, u].Sublist l)
    (ht : t ∈ l.erase x) (hu : u ∈ l.erase x) : [t, u].Sublist (l.erase x) := by
  have htx : t ≠ x := (hnodup.mem_erase_iff.mp ht).1
  have hux : u ≠ x := (hnodup.mem_erase_iff.mp hu).1
  have herase : [t, u].erase x = [t, u] := by simp [htx, hux]
  exact herase ▸ h.erase x

/-- Each of `served` exists, and stands behind `t` as long as both are on the list. -/
def Behind (t : Tid) (served : List Tid) (w : World) : Prop :=
  ∀ u ∈ served, u < w.created ∧ (t ∈ w.threads → u ∈ w.threads → [t, u].Sublist w.threads)

/-- The condition on `t` that makes it wait: it could run, and the event does not give it the processor. -/
def Waiting (t : Tid) (w : World) (e : Event) : Prop :=
  t ∈ w.threads ∧ isRunnable w.tcb t = true ∧ selected w e ≠ some t

/-- What is selected while `t` waits stands before `t`. -/
theorem selected_before (hnodup : w.threads.Nodup) (hwait : Waiting t w e) {v : Tid}
    (hv : selected w e = some v) : v ∈ w.threads ∧ ¬[t, v].Sublist w.threads := by
  cases e with
  | pass tm =>
      obtain ⟨before, after, -, hsplit, hbefore, -⟩ := (selectsFirst hnodup tm).switch v hv
      have hne : t ≠ v := by
        rintro rfl
        exact hwait.2.2 hv
      have ht : t ∉ before := by
        intro hmem
        have hnot := hbefore t hmem
        rw [eligible, hwait.2.1] at hnot
        cases hnot
      rw [hsplit] at hnodup ⊢
      refine ⟨by simp, fun hsub => ?_⟩
      have hvafter : v ∉ after := (List.nodup_cons.mp (List.nodup_append.mp hnodup).2.1).1
      obtain ⟨l₁, l₂, heq, hl₁, hl₂⟩ := List.sublist_append_iff.mp hsub
      cases l₁ with
      | nil =>
          obtain rfl : [t, v] = l₂ := heq
          rcases List.sublist_cons_iff.mp hl₂ with hin | ⟨r, hr, -⟩
          · exact hvafter (hin.subset (by simp))
          · exact hne (List.cons.inj hr).1
      | cons x xs =>
          obtain rfl : t = x := (List.cons.inj heq).1
          exact ht (hl₁.subset List.mem_cons_self)
  | _ => cases hv

theorem Behind.step {served : List Tid} (hlife : LifeCycle w) (hbehind : Behind t served w)
    (hwait : Waiting t w e) (h : step w e = some w') :
    Behind t (served ++ (selected w e).toList) w' := by
  have hnodup := hlife.threads_nodup
  obtain ⟨hnone, hcreated, hthreads⟩ | ⟨hcreated, l, hl, hthreads⟩ := step_threads h
  · -- the new thread is not among those served, and the list grows at its head
    rw [hnone]
    simp only [Option.toList_none, List.append_nil]
    intro u hu
    obtain ⟨hlt, hsub⟩ := hbehind u hu
    refine ⟨hcreated ▸ Nat.lt_succ_of_lt hlt, fun ht hmem => ?_⟩
    rw [hthreads] at ht hmem ⊢
    exact (hsub hwait.1 ((List.mem_cons.mp hmem).resolve_left hlt.ne)).cons _
  · have hrotated : l.Nodup ∧ ∀ u ∈ served ++ (selected w e).toList,
        u < w.created ∧ (t ∈ l → u ∈ l → [t, u].Sublist l) := by
      rcases hl with ⟨hnone, rfl⟩ | ⟨v, hv, rfl⟩
      · rw [hnone]
        simp only [Option.toList_none, List.append_nil]
        exact ⟨hnodup, hbehind⟩
      · obtain ⟨hvmem, -⟩ := selected_before hnodup hwait hv
        have hnot : v ∉ w.threads.erase v := hnodup.not_mem_erase
        refine ⟨(List.nodup_append.mpr ⟨hnodup.erase v, List.nodup_singleton v, ?_⟩), ?_⟩
        · intro a ha b hb
          rw [List.mem_singleton] at hb
          subst hb
          rintro rfl
          exact hnot ha
        · have hne : t ≠ v := by
            rintro rfl
            exact hwait.2.2 hv
          have ht : t ∈ w.threads.erase v := (List.mem_erase_of_ne hne).mpr hwait.1
          rw [hv]
          intro u hu
          rcases List.mem_append.mp hu with hserved | hnew
          · obtain ⟨hlt, hsub⟩ := hbehind u hserved
            refine ⟨hlt, fun _ hmem => ?_⟩
            by_cases huv : u = v
            · subst huv
              exact (List.singleton_sublist.mpr ht).append (List.Sublist.refl [u])
            · have hu' : u ∈ w.threads.erase v := by simpa [huv] using hmem
              exact (pair_sublist_erase hnodup (hsub hwait.1 (List.mem_of_mem_erase hu')) ht hu').trans
                (List.sublist_append_left _ _)
          · obtain rfl : u = v := by simpa using hnew
            exact ⟨(hlife.mem_iff_created u).mp (.inl hvmem), fun _ _ =>
              (List.singleton_sublist.mpr ht).append (List.Sublist.refl [u])⟩
    intro u hu
    obtain ⟨hlt, hsub⟩ := hrotated.2 u hu
    refine ⟨hcreated ▸ hlt, fun ht hmem => ?_⟩
    rcases hthreads with hsame | ⟨x, herase⟩
    · rw [hsame] at ht hmem ⊢
      exact hsub ht hmem
    · rw [herase] at ht hmem ⊢
      exact pair_sublist_erase hrotated.1 (hsub (List.mem_of_mem_erase ht) (List.mem_of_mem_erase hmem)) ht
        hmem

/-- While `t` waits, what is selected has not been served before. -/
theorem selections_nodup (es : List Event) :
    ∀ (w : World) (served : List Tid), LifeCycle w → Behind t served w → served.Nodup →
      Meets step (Waiting t) w es → (served ++ selections w es).Nodup := by
  induction es with
  | nil =>
      intro w served _ _ hserved _
      simpa [selections, collect] using hserved
  | cons e es ih =>
      intro w served hlife hbehind hserved hmeets
      cases hstep : step w e with
      | none => simpa [selections, collect, hstep] using hserved
      | some w' =>
          have hnew : (served ++ (selected w e).toList).Nodup := by
            cases hsel : selected w e with
            | none => simpa using hserved
            | some v =>
                obtain ⟨hmem, hnot⟩ := selected_before hlife.threads_nodup hmeets.1 hsel
                have hfresh : v ∉ served := fun hv => hnot ((hbehind v hv).2 hmeets.1.1 hmem)
                rw [Option.toList_some, List.nodup_append]
                refine ⟨hserved, List.nodup_singleton v, fun a ha b hb => ?_⟩
                rw [List.mem_singleton] at hb
                subst hb
                rintro rfl
                exact hfresh ha
          rw [selections, collect_cons hstep, ← List.append_assoc]
          exact ih w' _ (lifeCycle_step hlife hstep) (hbehind.step hlife hmeets.1 hstep) hnew
            (hmeets.2 w' hstep)

/-- Round-robin without overtaking.  In every state that a run of the scheduler reaches, a pass serves the
    first eligible thread and moves it to the end; and from there on, as long as a thread is on the list,
    runnable and not served, no thread is served twice. -/
theorem round_robin {events : List Event} (hrun : run step bmkSchedInit events = some w) :
    (∀ tm, SelectsFirst tm w) ∧
      ∀ (t : Tid) (es : List Event), Meets step (Waiting t) w es → (selections w es).Nodup := by
  have hlife := lifeCycle_run hrun
  refine ⟨fun tm => selectsFirst hlife.threads_nodup tm, fun t es hmeets => ?_⟩
  exact selections_nodup es w [] hlife (fun u hu => absurd hu List.not_mem_nil) List.nodup_nil hmeets

/-- `init_thread` waits while thread 2 creates a thread, which gets its turn at once, and thread 1 gets its
    own. -/
theorem round_robin_init_waits :
    ∃ w, run step bmkSchedInit [.create 0 none 0, .create 0 none 0, .sched, .pass 0] = some w ∧
      Meets step (Waiting 0) w [.create 0 none 0, .nanosleep 5 10, .pass 6, .sched, .pass 7] ∧
      selections w [.create 0 none 0, .nanosleep 5 10, .pass 6, .sched, .pass 7] = [3, 1] ∧
      (selections w [.create 0 none 0, .nanosleep 5 10, .pass 6, .sched, .pass 7]).Nodup ∧
      SelectsFirst 20 w := by
  have hmeets : Meets step (Waiting 0)
      (effect (effect (effect (effect bmkSchedInit (.create 0 none 0)) (.create 0 none 0)) .sched)
        (.pass 0))
      [.create 0 none 0, .nanosleep 5 10, .pass 6, .sched, .pass 7] :=
    .cons ⟨by decide, by decide, by decide⟩ rfl
      (.cons ⟨by decide, by decide, by decide⟩ rfl
        (.cons ⟨by decide, by decide, by decide⟩ rfl
          (.cons ⟨by decide, by decide, by decide⟩ rfl
            (.cons ⟨by decide, by decide, by decide⟩ rfl trivial))))
  obtain ⟨hfirst, hnodup⟩ := @round_robin _ [.create 0 none 0, .create 0 none 0, .sched, .pass 0] rfl
  exact ⟨_, rfl, hmeets, rfl, hnodup 0 _ hmeets, hfirst 20⟩

end Sched

end RumpBaremetal
