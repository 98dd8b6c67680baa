/-
Module: RumpBaremetal.Proofs.Lifecycle
Layer: Proofs
Purpose: The life of a thread: created onto `threads`, moved to `zombies` by its own exit, freed once by
  the reaper of some other thread.  The lists are handled together, as one arrangement of all threads
  created so far, and every function of the scheduler is shown to keep that arrangement.
Trusted boundary: none (fully proved)
Main exports: Placed, LifeCycle, lifeCycle_step, lifeCycle_run, ReapingSound, threads_reaped_once
-/
import RumpBaremetal.Kernel.Sched
import RumpBaremetal.Lib.StepSystem

namespace RumpBaremetal.Sched

open StepSystem

/-- What holds of the lists, the frames and the stacks at every moment, also in the middle of an
    event. -/
structure Placed (w : World) : Prop where
  /-- Every thread created so far is in exactly one place, once. -/
  arranged : (w.threads ++ w.zombies ++ w.freedThreads).Perm (List.range w.created)
  /-- `prev` is the thread whose frame it belongs to. -/
  ownPrev : ∀ t prev caller, w.frame t = .sched prev caller → prev = t
  /-- A stack that the reaper would free was taken from the heap for this very thread. -/
  ownStack : ∀ t < w.created, (w.tcb t).flags.extstack = false →
    (w.tcb t).stackbase = none ∨ (w.tcb t).stackbase = some (.heap t)
  stacksOnce : w.freedStacks.Nodup
  stacksFreed : ∀ s ∈ w.freedStacks, ∃ t ∈ w.freedThreads, s = .heap t

/-- Zombies and freed threads are in the last loop of `bmk_sched_exit`. -/
def Exited (w : World) : Prop :=
  ∀ t, t ∈ w.zombies ∨ t ∈ w.freedThreads → w.frame t = .sched t .exitFinal

/-- The state between two events: the running thread is on `threads`, or it has exited and is about to
    give up the processor for the last time. -/
structure LifeCycle (w : World) : Prop extends Placed w where
  exited : Exited w
  running : w.currentThread ∈ w.threads ∨ w.currentThread ∈ w.zombies

/-- The state in which the functions of sched.c are executed: the running thread is on `threads`. -/
structure Executing (w : World) : Prop extends Placed w where
  exited : Exited w
  running : w.currentThread ∈ w.threads

theorem Executing.lifeCycle {w : World} (h : Executing w) : LifeCycle w :=
  ⟨h.toPlaced, h.exited, Or.inl h.running⟩

namespace Placed

variable {w : World}

theorem nodup (h : Placed w) : (w.threads ++ w.zombies ++ w.freedThreads).Nodup :=
  h.arranged.nodup_iff.mpr List.nodup_range

theorem threads_nodup (h : Placed w) : w.threads.Nodup :=
  (List.nodup_append.mp (List.nodup_append.mp h.nodup).1).1

theorem zombies_nodup (h : Placed w) : w.zombies.Nodup :=
  (List.nodup_append.mp (List.nodup_append.mp h.nodup).1).2.1

theorem freed_nodup (h : Placed w) : w.freedThreads.Nodup :=
  (List.nodup_append.mp h.nodup).2.1

theorem threads_not_zombie (h : Placed w) {t : Tid} (ht : t ∈ w.threads) : t ∉ w.zombies := by
  intro hz
  exact (List.nodup_append.mp (List.nodup_append.mp h.nodup).1).2.2 t ht t hz rfl

theorem threads_not_freed (h : Placed w) {t : Tid} (ht : t ∈ w.threads) : t ∉ w.freedThreads := by
  intro hf
  exact (List.nodup_append.mp h.nodup).2.2 t (List.mem_append_left _ ht) t hf rfl

theorem zombies_not_freed (h : Placed w) {t : Tid} (hz : t ∈ w.zombies) : t ∉ w.freedThreads := by
  intro hf
  exact (List.nodup_append.mp h.nodup).2.2 t (List.mem_append_right _ hz) t hf rfl

theorem mem_iff_created (h : Placed w) (t : Tid) :
    t ∈ w.threads ∨ t ∈ w.zombies ∨ t ∈ w.freedThreads ↔ t < w.created := by
  rw [← List.mem_range, ← h.arranged.mem_iff, List.mem_append, List.mem_append, or_assoc]

/-- Run states may change freely. -/
theorem setTcb (h : Placed w) {tcb : Tcbs Tid} (same : ∀ t, SameButRunState (w.tcb t) (tcb t)) :
    Placed { w with tcb := tcb } where
  arranged := h.arranged
  ownPrev := h.ownPrev
  ownStack := by
    intro t ht hext
    rw [(same t).extstack] at hext
    rw [(same t).stackbase]
    exact h.ownStack t ht hext
  stacksOnce := h.stacksOnce
  stacksFreed := h.stacksFreed

/-- The running thread may enter and leave `bmk_sched` freely. -/
theorem setFrame (h : Placed w) {t : Tid} {f : Frame}
    (own : ∀ prev caller, f = .sched prev caller → prev = t) :
    Placed { w with frame := Function.update w.frame t f } where
  arranged := h.arranged
  ownPrev := by
    intro u prev caller hu
    by_cases hut : u = t
    · subst hut
      simp only [Function.update_self] at hu
      exact own prev caller hu
    · simp only [Function.update_of_ne hut] at hu
      exact h.ownPrev u prev caller hu
  ownStack := h.ownStack
  stacksOnce := h.stacksOnce
  stacksFreed := h.stacksFreed

end Placed

namespace Executing

variable {w : World}

theorem ofCalls (h : LifeCycle w) (hcalls : w.calls = true) : Executing w := by
  refine ⟨h.toPlaced, h.exited, ?_⟩
  rcases h.running with hrun | hzombie
  · exact hrun
  · have hframe := h.exited _ (Or.inl hzombie)
    simp [World.calls, hframe] at hcalls

theorem setTcb (h : Executing w) {tcb : Tcbs Tid} (same : ∀ t, SameButRunState (w.tcb t) (tcb t)) :
    Executing { w with tcb := tcb } :=
  ⟨h.toPlaced.setTcb same, h.exited, h.running⟩

theorem setFrame (h : Executing w) {f : Frame}
    (own : ∀ prev caller, f = .sched prev caller → prev = w.currentThread) :
    Executing { w with frame := Function.update w.frame w.currentThread f } where
  toPlaced := h.toPlaced.setFrame own
  running := h.running
  exited := by
    intro t ht
    have hne : t ≠ w.currentThread := by
      rintro rfl
      rcases ht with hz | hf
      · exact h.threads_not_zombie h.running hz
      · exact h.threads_not_freed h.running hf
    simp only [Function.update_of_ne hne]
    exact h.exited t ht

theorem enterSched (h : Executing w) (caller : Caller) : Executing (enterSched w caller) := by
  apply h.setFrame
  intro prev caller' heq
  cases heq
  rfl

theorem toUser (h : Executing w) :
    Executing { w with frame := Function.update w.frame w.currentThread .user } := by
  apply h.setFrame
  intro prev caller heq
  cases heq

end Executing

/-! ### The reaper -/

/-- The reaper touches nothing but the zombies and the record of what was freed. -/
theorem reaper_eq (prev : Tid) (w : World) :
    ∃ zombies freedStacks freedThreads, reaper prev w =
      { w with zombies := zombies, freedStacks := freedStacks, freedThreads := freedThreads } := by
  unfold reaper
  generalize w.zombies = l
  induction l generalizing w with
  | nil => exact ⟨_, _, _, rfl⟩
  | cons t rest ih =>
      obtain ⟨zombies, freedStacks, freedThreads, heq⟩ := ih (reapOne prev w t)
      refine ⟨zombies, freedStacks, freedThreads, ?_⟩
      rw [List.foldl_cons, heq]
      unfold reapOne
      split <;> rfl

/-- Freeing a zombie moves it from one place to the other. -/
theorem reapOne_placed {w : World} (h : Placed w) (prev : Tid) {t : Tid} (ht : t ∈ w.zombies) :
    Placed (reapOne prev w t) := by
  unfold reapOne
  split
  · exact h
  · have hnew : Stack.heap t ∉ w.freedStacks := by
      intro hmem
      obtain ⟨u, hu, heq⟩ := h.stacksFreed _ hmem
      cases heq
      exact h.zombies_not_freed ht hu
    have hcreated : t < w.created := (h.mem_iff_created t).mp (Or.inr (Or.inl ht))
    have hmove : (w.zombies.erase t ++ t :: w.freedThreads).Perm (w.zombies ++ w.freedThreads) :=
      List.perm_middle.trans ((List.perm_cons_erase ht).symm.append_right _)
    refine ⟨?_, h.ownPrev, h.ownStack, ?_, ?_⟩
    · simp only [List.append_assoc]
      refine (hmove.append_left _).trans ?_
      rw [← List.append_assoc]
      exact h.arranged
    · show List.Nodup (if _ then _ else _)
      split
      · exact h.stacksOnce
      · rename_i hext
        rcases h.ownStack t hcreated (by simpa using hext) with hnone | hsome
        · simpa [hnone] using h.stacksOnce
        · simpa [hsome] using ⟨hnew, h.stacksOnce⟩
    · intro s hs
      have hold : ∀ s ∈ w.freedStacks, ∃ u ∈ t :: w.freedThreads, s = .heap u := by
        intro s hs
        obtain ⟨u, hu, heq⟩ := h.stacksFreed s hs
        exact ⟨u, List.mem_cons_of_mem _ hu, heq⟩
      split at hs
      · exact hold s hs
      · rename_i hext
        rcases List.mem_append.mp hs with hs | hs
        · rcases h.ownStack t hcreated (by simpa using hext) with hnone | hsome
          · simp [hnone] at hs
          · simp only [hsome, Option.toList_some, List.mem_singleton] at hs
            exact ⟨t, List.mem_cons_self, hs⟩
        · exact hold s hs

theorem reapOne_freed_mono (prev t : Tid) (w : World) {u : Tid} (hu : u ∈ w.freedThreads) :
    u ∈ (reapOne prev w t).freedThreads := by
  unfold reapOne
  split
  · exact hu
  · exact List.mem_cons_of_mem _ hu

/-- The loop of the reaper, over any part of the zombies: the arrangement is kept, nothing is taken
    back from what was freed, and all it went over is freed except `prev`. -/
theorem reapList_spec (prev : Tid) (l : List Tid) :
    ∀ {w : World}, Placed w → l.Nodup → (∀ t ∈ l, t ∈ w.zombies) →
      Placed (l.foldl (reapOne prev) w) ∧
      (∀ t ∈ w.freedThreads, t ∈ (l.foldl (reapOne prev) w).freedThreads) ∧
      (∀ t ∈ l, t ≠ prev → t ∈ (l.foldl (reapOne prev) w).freedThreads) := by
  induction l with
  | nil =>
      intro w h _ _
      exact ⟨h, fun _ ht => ht, fun _ ht => absurd ht List.not_mem_nil⟩
  | cons t rest ih =>
      intro w h hnodup hall
      rw [List.nodup_cons] at hnodup
      have hrest : ∀ u ∈ rest, u ∈ (reapOne prev w t).zombies := by
        intro u hu
        have hmem := hall u (List.mem_cons_of_mem _ hu)
        unfold reapOne
        split
        · exact hmem
        · have hne : u ≠ t := fun heq => hnodup.1 (heq ▸ hu)
          exact (List.mem_erase_of_ne hne).mpr hmem
      obtain ⟨hplaced, hmono, hfreed⟩ :=
        ih (reapOne_placed h prev (hall t List.mem_cons_self)) hnodup.2 hrest
      refine ⟨hplaced, fun u hu => hmono u (reapOne_freed_mono prev t w hu), ?_⟩
      intro u hu hne
      rcases List.mem_cons.mp hu with rfl | hu
      · apply hmono
        simp only [reapOne, hne, if_false]
        exact List.mem_cons_self
      · exact hfreed u hu hne

theorem reaper_placed {w : World} (h : Placed w) (prev : Tid) : Placed (reaper prev w) :=
  (reapList_spec prev w.zombies h h.zombies_nodup fun _ ht => ht).1

/-- The reaper frees zombies only. -/
theorem reaper_moves {w : World} (h : Placed w) (prev : Tid) (t : Tid)
    (ht : t ∈ (reaper prev w).zombies ∨ t ∈ (reaper prev w).freedThreads) :
    t ∈ w.zombies ∨ t ∈ w.freedThreads := by
  have hafter := reaper_placed h prev
  have hcreated := (hafter.mem_iff_created t).mp (Or.inr ht)
  obtain ⟨zombies, freedStacks, freedThreads, heq⟩ := reaper_eq prev w
  rw [heq] at hafter hcreated ht
  rcases (h.mem_iff_created t).mpr hcreated with hthread | hrest
  · rcases ht with hz | hf
    · exact absurd hz (hafter.threads_not_zombie hthread)
    · exact absurd hf (hafter.threads_not_freed hthread)
  · exact hrest

theorem reaper_frees {w : World} (h : Placed w) {prev t : Tid} (ht : t ∈ w.zombies)
    (hne : t ≠ prev) : t ∈ (reaper prev w).freedThreads :=
  (reapList_spec prev w.zombies h h.zombies_nodup fun _ ht => ht).2.2 t ht hne

/-! ### The functions of the scheduler -/

theorem lifeCycle_init : LifeCycle bmkSchedInit where
  arranged := by simp [bmkSchedInit]
  ownPrev := by simp [bmkSchedInit]
  ownStack := by
    intro t ht _
    have hzero : t = 0 := by simpa [bmkSchedInit] using ht
    subst hzero
    exact Or.inl rfl
  stacksOnce := List.nodup_nil
  stacksFreed := by simp [bmkSchedInit]
  exited := by simp [Exited, bmkSchedInit]
  running := Or.inl (by simp [bmkSchedInit])

/-- The new thread, with its own stack or with one it was given, joins the arrangement. -/
theorem executing_addThread {w : World} (h : Executing w) {b : BmkThread}
    (own : b.flags.extstack = false → b.stackbase = some (.heap w.created)) :
    Executing { w with
      tcb := setRunnable (Function.update w.tcb w.created b) w.created
      threads := w.created :: w.threads
      frame := Function.update w.frame w.created .fresh
      created := w.created + 1 } where
  arranged := by
    simp only [List.cons_append, List.range_succ]
    exact (List.Perm.cons _ h.arranged).trans (List.perm_append_singleton _ _).symm
  ownPrev := by
    intro t prev caller ht
    by_cases heq : t = w.created
    · simp [heq] at ht
    · simp only [Function.update_of_ne heq] at ht
      exact h.ownPrev t prev caller ht
  ownStack := by
    intro t ht hext
    by_cases heq : t = w.created
    · subst heq
      simp only [setRunnable, setFlags, Function.update_self] at hext ⊢
      exact Or.inr (own hext)
    · simp only [setRunnable, setFlags, Function.update_of_ne heq] at hext ⊢
      have hlt : t < w.created := by
        have : t < w.created + 1 := ht
        omega
      exact h.ownStack t hlt hext
  stacksOnce := h.stacksOnce
  stacksFreed := h.stacksFreed
  running := List.mem_cons_of_mem _ h.running
  exited := by
    intro t ht
    have hlt : t < w.created := (h.mem_iff_created t).mp (Or.inr ht)
    simp only [Function.update_of_ne (Nat.ne_of_lt hlt)]
    exact h.exited t ht

theorem bmkSchedCreate_lifeCycle {w : World} (h : Executing w) (thrflags : Int)
    (stackBase : Option Nat) (stackSize : Nat) :
    LifeCycle (bmkSchedCreate w thrflags stackBase stackSize) := by
  unfold bmkSchedCreate
  cases stackBase with
  | none =>
      dsimp only
      split
      · exact ⟨⟨h.arranged, h.ownPrev, h.ownStack, h.stacksOnce, h.stacksFreed⟩, h.exited,
          Or.inl h.running⟩
      · exact (executing_addThread h fun _ => rfl).lifeCycle
  | some base =>
      exact (executing_addThread h fun hext => absurd hext (by simp)).lifeCycle

theorem wakeJoiner_eq (w : World) (t : Tid) :
    ∃ tcb, wakeJoiner w t = { w with tcb := tcb } ∧ ∀ u, SameButRunState (w.tcb u) (tcb u) := by
  unfold wakeJoiner
  split
  · exact ⟨_, rfl, fun u => .wake w.tcb _ u⟩
  · exact ⟨w.tcb, rfl, fun u => .refl _⟩

/-- Setting the bits of the handshake does not concern the arrangement. -/
theorem Executing.setFlags {w : World} (h : Executing w) (t : Tid) {f : Flags → Flags}
    (keep : ∀ flags, (f flags).extstack = flags.extstack) : Executing (w.setFlags t f) where
  arranged := h.arranged
  ownPrev := h.ownPrev
  ownStack := by
    intro u hu hext
    by_cases heq : u = t
    · subst heq
      simp only [World.setFlags, RumpBaremetal.setFlags, Function.update_self, keep] at hext ⊢
      exact h.ownStack u hu hext
    · simp only [World.setFlags, setFlags_of_ne _ heq] at hext ⊢
      exact h.ownStack u hu hext
  stacksOnce := h.stacksOnce
  stacksFreed := h.stacksFreed
  exited := h.exited
  running := h.running

/-- The end of `bmk_sched_exit`: the running thread changes lists and enters its last loop. -/
theorem exitFinal_lifeCycle {w : World} (h : Executing w) :
    LifeCycle (enterSched { w with
      threads := w.threads.erase w.currentThread
      tcb := clearRunnable w.tcb w.currentThread
      zombies := w.currentThread :: w.zombies } .exitFinal) := by
  have hblocked := (h.setTcb (SameButRunState.clearRunnable w.tcb w.currentThread)).enterSched
    .exitFinal
  have hmove : (w.threads.erase w.currentThread ++ w.currentThread :: w.zombies).Perm
      (w.threads ++ w.zombies) :=
    List.perm_middle.trans ((List.perm_cons_erase h.running).symm.append_right _)
  refine ⟨⟨(hmove.append_right _).trans h.arranged, hblocked.ownPrev, hblocked.ownStack,
    hblocked.stacksOnce, hblocked.stacksFreed⟩, ?_, Or.inr List.mem_cons_self⟩
  intro t ht
  by_cases heq : t = w.currentThread
  · subst heq
    simp [enterSched]
  · refine hblocked.exited t ?_
    rcases ht with hz | hf
    · exact Or.inl (List.mem_of_ne_of_mem heq hz)
    · exact Or.inr hf

/-- A thread on `threads` at the gate of `bmk_sched_exit`. -/
theorem exitLoop_lifeCycle {w : World} (h : Executing w) : LifeCycle (exitLoop w) := by
  unfold exitLoop
  dsimp only
  split
  · obtain ⟨tcb, heq, hsame⟩ := wakeJoiner_eq
      (w.setFlags w.currentThread fun flags => { flags with joined := true }) w.currentThread
    rw [heq]
    have hflags := (h.setFlags w.currentThread
      (f := fun flags => { flags with joined := true }) fun _ => rfl).setTcb hsame
    exact ((hflags.setTcb (SameButRunState.block _ _)).enterSched .exitGate).lifeCycle
  · exact exitFinal_lifeCycle h

theorem bmkSchedExit_lifeCycle {w : World} (h : Executing w) : LifeCycle (bmkSchedExit w) := by
  have hplaced : Placed { w with exitCalls := w.currentThread :: w.exitCalls } :=
    ⟨h.arranged, h.ownPrev, h.ownStack, h.stacksOnce, h.stacksFreed⟩
  exact exitLoop_lifeCycle ⟨hplaced, h.exited, h.running⟩

theorem joinLoop_lifeCycle {w : World} (h : Executing w) (joinable : Tid) :
    LifeCycle (joinLoop w joinable) := by
  unfold joinLoop
  dsimp only
  split
  · have hflags := h.setFlags joinable
      (f := fun flags => { flags with mustjoin := false }) fun _ => rfl
    have hwoken := (hflags.setTcb (SameButRunState.wake _ joinable)).toUser
    exact ⟨⟨hwoken.arranged, hwoken.ownPrev, hwoken.ownStack, hwoken.stacksOnce,
      hwoken.stacksFreed⟩, hwoken.exited, Or.inl hwoken.running⟩
  · have hblocked := h.setTcb (SameButRunState.block w.tcb w.currentThread)
    have hqueued : Executing { w with
        joinwq := w.joinwq ++ [⟨w.currentThread, joinable⟩]
        tcb := bmkSchedBlock w.tcb w.currentThread } :=
      ⟨⟨hblocked.arranged, hblocked.ownPrev, hblocked.ownStack, hblocked.stacksOnce,
        hblocked.stacksFreed⟩, hblocked.exited, hblocked.running⟩
    exact (hqueued.enterSched (.join joinable)).lifeCycle

theorem bmkSchedJoin_lifeCycle {w : World} (h : Executing w) (joinable : Tid) :
    LifeCycle (bmkSchedJoin w joinable) := by
  have hplaced : Placed { w with joinCalls := (w.currentThread, joinable) :: w.joinCalls } :=
    ⟨h.arranged, h.ownPrev, h.ownStack, h.stacksOnce, h.stacksFreed⟩
  unfold bmkSchedJoin
  dsimp only
  split
  · exact joinLoop_lifeCycle ⟨hplaced, h.exited, h.running⟩ joinable
  · exact ⟨⟨h.arranged, h.ownPrev, h.ownStack, h.stacksOnce, h.stacksFreed⟩, h.exited,
      Or.inl h.running⟩

theorem resumeCaller_lifeCycle {w : World} (h : Executing w) (caller : Caller) :
    LifeCycle (resumeCaller w caller) := by
  cases caller with
  | other => exact h.toUser.lifeCycle
  | exitGate => exact exitLoop_lifeCycle h
  | exitFinal => exact (h.enterSched .exitFinal).lifeCycle
  | join joinable =>
      have hplaced : Placed { w with joinwq := w.joinwq.erase ⟨w.currentThread, joinable⟩ } :=
        ⟨h.arranged, h.ownPrev, h.ownStack, h.stacksOnce, h.stacksFreed⟩
      exact joinLoop_lifeCycle ⟨hplaced, h.exited, h.running⟩ joinable

theorem reaper_executing {w : World} (h : Executing w) (prev : Tid) : Executing (reaper prev w) := by
  have hreaped := reaper_placed h.toPlaced prev
  have hmoved := reaper_moves h.toPlaced prev
  obtain ⟨zombies, freedStacks, freedThreads, heq⟩ := reaper_eq prev w
  rw [heq] at hreaped hmoved ⊢
  exact ⟨hreaped, fun t ht => h.exited t (hmoved t ht), h.running⟩

/-- The dispatched thread takes over: the reaper runs in its frame, never against itself. -/
theorem resume_lifeCycle {w : World} (h : Executing w) : LifeCycle (resume w) := by
  unfold resume
  split
  · exact h.toUser.lifeCycle
  · exact h.lifeCycle
  · rename_i prev caller _
    exact resumeCaller_lifeCycle (reaper_executing h prev) caller

/-- The state of the machine when the scan has found a thread and `sched_switch` is done. -/
def dispatched (w : World) (tcb : Tcbs Tid) (next : Tid) : World :=
  { w with
    tcb := tcb
    threads := w.threads.erase next ++ [next]
    currentThread := next }

theorem dispatched_executing {w : World} (h : LifeCycle w) {tm : Int} {tcb : Tcbs Tid} {next : Tid}
    (hscan : scan tm w.tcb w.threads = (tcb, some next)) : Executing (dispatched w tcb next) := by
  obtain ⟨hsame, -, hnext⟩ := scan_spec tm w.threads w.tcb tcb (some next) hscan
  have hplaced := h.toPlaced.setTcb hsame
  have hrotate : (w.threads.erase next ++ [next]).Perm w.threads :=
    (List.perm_append_singleton _ _).trans (List.perm_cons_erase (hnext next rfl).1).symm
  refine ⟨⟨?_, hplaced.ownPrev, hplaced.ownStack, hplaced.stacksOnce, hplaced.stacksFreed⟩,
    h.exited, by simp [dispatched]⟩
  exact ((hrotate.append_right _).append_right _).trans h.arranged

theorem pass_lifeCycle {w : World} (h : LifeCycle w) (tm : Int) : LifeCycle (pass tm w) := by
  unfold pass
  split
  · rename_i tcb hscan
    exact ⟨h.toPlaced.setTcb (scan_spec tm w.threads w.tcb tcb none hscan).1, h.exited, h.running⟩
  · rename_i tcb next hscan
    exact resume_lifeCycle (dispatched_executing h hscan)

/-! ### Runs -/

theorem lifeCycle_step {w w' : World} {e : Event} (h : LifeCycle w) (hstep : step w e = some w') :
    LifeCycle w' := by
  obtain ⟨-, henabled, rfl⟩ := step_inv hstep
  cases e with
  | create thrflags stackBase stackSize =>
      exact bmkSchedCreate_lifeCycle (.ofCalls h henabled) thrflags stackBase stackSize
  | exit => exact bmkSchedExit_lifeCycle (.ofCalls h henabled)
  | join joinable => exact bmkSchedJoin_lifeCycle (.ofCalls h henabled) joinable
  | sched => exact ((Executing.ofCalls h henabled).enterSched .other).lifeCycle
  | block thread =>
      exact ⟨h.toPlaced.setTcb (SameButRunState.block w.tcb thread), h.exited, h.running⟩
  | setwakeup thread abstime =>
      exact ⟨h.toPlaced.setTcb fun u => .setwakeup w.tcb thread u abstime, h.exited, h.running⟩
  | nanosleep now nsec =>
      have hslept := (Executing.ofCalls h henabled).setTcb fun u =>
        (SameButRunState.setwakeup w.tcb w.currentThread u ((now + nsec).bmod (2 ^ 64))).trans
          (.clearRunnable _ w.currentThread u)
      exact (hslept.enterSched .other).lifeCycle
  | wake thread =>
      exact ⟨h.toPlaced.setTcb (SameButRunState.wake w.tcb thread), h.exited, h.running⟩
  | pass tm => exact pass_lifeCycle h tm

theorem lifeCycle_run {events : List Event} {w : World}
    (hrun : run step bmkSchedInit events = some w) : LifeCycle w :=
  run_invariant (fun _ _ _ h hstep => lifeCycle_step h hstep) lifeCycle_init hrun

/-- The thread is in exactly one of the three places. -/
def OnePlace (w : World) (t : Tid) : Prop :=
  (t ∈ w.threads ∧ t ∉ w.zombies ∧ t ∉ w.freedThreads) ∨
    (t ∉ w.threads ∧ t ∈ w.zombies ∧ t ∉ w.freedThreads) ∨
    (t ∉ w.threads ∧ t ∉ w.zombies ∧ t ∈ w.freedThreads)

/-- The life cycle as a client of the scheduler sees it. -/
structure ReapingSound (w : World) : Prop where
  onePlace : ∀ t < w.created, OnePlace w t
  threadsNodup : w.threads.Nodup
  zombiesNodup : w.zombies.Nodup
  /-- The running thread is on `threads` unless it has itself exited. -/
  current : w.currentThread ∈ w.threads ∨
    (w.currentThread ∈ w.zombies ∧ w.frame w.currentThread = .sched w.currentThread .exitFinal)
  /-- Only threads that have called `bmk_sched_exit` and passed its gate are ever freed. -/
  exitedOnly : ∀ t ∈ w.freedThreads, w.frame t = .sched t .exitFinal
  controlBlocksOnce : w.freedThreads.Nodup
  stacksOnce : w.freedStacks.Nodup
  /-- The stacks freed are the heap stacks of freed threads, so none is external. -/
  ownStacks : ∀ s ∈ w.freedStacks, ∃ t ∈ w.freedThreads, s = .heap t
  /-- Nothing that belongs to the running thread or to a thread on `threads` has been freed. -/
  notInUse : ∀ t, t = w.currentThread ∨ t ∈ w.threads →
    t ∉ w.freedThreads ∧ Stack.heap t ∉ w.freedStacks
  /-- No exited thread is forgotten: when `bmk_sched` next returns, all of them are freed. -/
  reaped : ∀ tm tcb next prev caller, scan tm w.tcb w.threads = (tcb, some next) →
    w.frame next = .sched prev caller → ∀ t ∈ w.zombies, t ∈ (pass tm w).freedThreads

theorem LifeCycle.onePlace {w : World} (h : LifeCycle w) {t : Tid} (ht : t < w.created) :
    OnePlace w t := by
  rcases (h.mem_iff_created t).mpr ht with hthread | hzombie | hfreed
  · exact Or.inl ⟨hthread, h.threads_not_zombie hthread, h.threads_not_freed hthread⟩
  · exact Or.inr (Or.inl ⟨fun hthread => h.threads_not_zombie hthread hzombie, hzombie,
      h.zombies_not_freed hzombie⟩)
  · exact Or.inr (Or.inr ⟨fun hthread => h.threads_not_freed hthread hfreed,
      fun hzombie => h.zombies_not_freed hzombie hfreed, hfreed⟩)

theorem LifeCycle.not_in_use {w : World} (h : LifeCycle w) {t : Tid}
    (ht : t = w.currentThread ∨ t ∈ w.threads) :
    t ∉ w.freedThreads ∧ Stack.heap t ∉ w.freedStacks := by
  have hfree : t ∉ w.freedThreads := by
    rcases ht with rfl | hthread
    · rcases h.running with hthread | hzombie
      · exact h.threads_not_freed hthread
      · exact h.zombies_not_freed hzombie
    · exact h.threads_not_freed hthread
  refine ⟨hfree, fun hstack => ?_⟩
  obtain ⟨u, hu, heq⟩ := h.stacksFreed _ hstack
  cases heq
  exact hfree hu

/-- What follows `bmk_sched` in the caller takes nothing back from what was freed. -/
theorem resumeCaller_freed (w : World) (caller : Caller) :
    (resumeCaller w caller).freedThreads = w.freedThreads := by
  have hexit : ∀ w : World, (exitLoop w).freedThreads = w.freedThreads := by
    intro w
    unfold exitLoop
    dsimp only
    split
    · obtain ⟨tcb, heq, -⟩ := wakeJoiner_eq
        (w.setFlags w.currentThread fun flags => { flags with joined := true }) w.currentThread
      rw [heq]
      rfl
    · rfl
  have hjoin : ∀ (w : World) joinable, (joinLoop w joinable).freedThreads = w.freedThreads := by
    intro w joinable
    unfold joinLoop
    dsimp only
    split <;> rfl
  cases caller with
  | other => rfl
  | exitGate => exact hexit w
  | exitFinal => rfl
  | join joinable => exact hjoin _ joinable

theorem LifeCycle.pass_reaps {w : World} (h : LifeCycle w) {tm : Int} {tcb : Tcbs Tid}
    {next prev : Tid} {caller : Caller} (hscan : scan tm w.tcb w.threads = (tcb, some next))
    (hframe : w.frame next = .sched prev caller) {t : Tid} (ht : t ∈ w.zombies) :
    t ∈ (pass tm w).freedThreads := by
  have hexec := dispatched_executing h hscan
  have hpass : pass tm w = resumeCaller (reaper prev (dispatched w tcb next)) caller := by
    simp only [pass, hscan, resume, dispatched, hframe]
  have hown : prev = next := h.ownPrev next prev caller hframe
  rw [hpass, resumeCaller_freed]
  apply reaper_frees hexec.toPlaced ht
  rintro rfl
  exact hexec.threads_not_zombie (hown ▸ hexec.running) ht

/-- In every run of the scheduler after `bmk_sched_init`, each thread is on exactly one of `threads`
    and `zombies` or freed, the running thread is never freed, and the reaper frees every exited
    thread once, with its heap stack. -/
theorem threads_reaped_once {events : List Event} {w : World}
    (hrun : run step bmkSchedInit events = some w) : ReapingSound w := by
  have h := lifeCycle_run hrun
  refine
    { onePlace := fun t ht => h.onePlace ht
      threadsNodup := h.threads_nodup
      zombiesNodup := h.zombies_nodup
      current := ?_
      exitedOnly := fun t ht => h.exited t (Or.inr ht)
      controlBlocksOnce := h.freed_nodup
      stacksOnce := h.stacksOnce
      ownStacks := h.stacksFreed
      notInUse := fun t ht => h.not_in_use ht
      reaped := fun tm tcb next prev caller hscan hframe t ht => h.pass_reaps hscan hframe ht }
  rcases h.running with hthread | hzombie
  · exact Or.inl hthread
  · exact Or.inr ⟨hzombie, h.exited _ (Or.inl hzombie)⟩

/-- Two threads are created, one on a stack of its own and one on a stack it was given; both exit, and
    `init_thread` frees them. -/
theorem threads_reaped_once_two :
    ∃ w, run step bmkSchedInit [.create 0 none 0, .create 0 (some 0x9000) 4096, .sched, .pass 0,
        .exit, .pass 0, .exit, .pass 0] = some w ∧
      w.freedThreads = [2, 1] ∧ w.freedStacks = [.heap 1] ∧ ReapingSound w :=
  ⟨_, rfl, rfl, rfl, @threads_reaped_once [.create 0 none 0, .create 0 (some 0x9000) 4096, .sched,
    .pass 0, .exit, .pass 0, .exit, .pass 0] _ rfl⟩

end RumpBaremetal.Sched
