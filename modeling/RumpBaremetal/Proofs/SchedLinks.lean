/-
Module: RumpBaremetal.Proofs.SchedLinks
Layer: Proofs
Purpose: The scheduler over the pointers of its queues goes step by step with the scheduler over lists.  The
  life cycle of the threads and the arrangement of the join queue supply what the macros of bmk/queue.h ask
  for: that an element is on no queue when it is put on one, and on the right one when it is taken off.
Trusted boundary: none (fully proved)
Main exports: World.unlinked, Shows, Depicts, JoinQueue, joinQueue_step, exitLoop_follows, reaper_follows,
  pass_follows, effect_follows, beside_step, linked_scheduler_follows
-/
import RumpBaremetal.Kernel.SchedLinks
import RumpBaremetal.Proofs.Join
import RumpBaremetal.Proofs.Queue

namespace RumpBaremetal.Sched

/-! ### The join queue -/

/-- A record is queued exactly for the threads inside `bmk_sched_join`, once for each. -/
structure JoinQueue (w : World) : Prop where
  queued : ∀ jw ∈ w.joinwq, InJoin w jw.jwThread jw.jwWanted
  waiting : ∀ k j, InJoin w k j → ⟨k, j⟩ ∈ w.joinwq
  once : (w.joinwq.map JoinWaiter.jwThread).Nodup
  known : ∀ k j, InJoin w k j → k < w.created

namespace JoinQueue

variable {w w' : World}

/-- Only the queue, the frames and the number of threads matter. -/
theorem congr (h : JoinQueue w) (hqueue : w'.joinwq = w.joinwq) (hframe : w'.frame = w.frame)
    (hcreated : w.created ≤ w'.created) : JoinQueue w' := by
  have hin : ∀ k j, InJoin w' k j ↔ InJoin w k j := by
    intro k j
    rw [InJoin, InJoin, hframe]
  refine ⟨?_, ?_, ?_, ?_⟩
  · intro jw hjw
    rw [hqueue] at hjw
    exact (hin _ _).mpr (h.queued jw hjw)
  · intro k j hk
    rw [hqueue]
    exact h.waiting k j ((hin k j).mp hk)
  · rw [hqueue]
    exact h.once
  · exact fun k j hk => Nat.lt_of_lt_of_le (h.known k j ((hin k j).mp hk)) hcreated

/-- A thread outside `bmk_sched_join` may go anywhere else. -/
theorem setFrame (h : JoinQueue w) {t : Tid} {f : Frame} (out : ∀ j, ¬ InJoin w t j)
    (stays : ∀ prev j, f ≠ .sched prev (.join j)) :
    JoinQueue { w with frame := Function.update w.frame t f } := by
  have hin : ∀ k j, InJoin { w with frame := Function.update w.frame t f } k j ↔ InJoin w k j := by
    intro k j
    by_cases hk : k = t
    · subst hk
      constructor
      · rintro ⟨prev, hprev⟩
        simp only [Function.update_self] at hprev
        exact absurd hprev (stays prev j)
      · exact fun hj => absurd hj (out j)
    · simp [InJoin, Function.update_of_ne hk]
  refine ⟨fun jw hjw => (hin _ _).mpr (h.queued jw hjw), fun k j hk => h.waiting k j ((hin k j).mp hk),
    h.once, ?_⟩
  exact fun k j hk => h.known k j ((hin k j).mp hk)

theorem not_queued (h : JoinQueue w) {t : Tid} (out : ∀ j, ¬ InJoin w t j) :
    t ∉ w.joinwq.map JoinWaiter.jwThread := by
  intro hmem
  obtain ⟨jw, hjw, rfl⟩ := List.mem_map.mp hmem
  exact out _ (h.queued jw hjw)

/-- There are no more records than threads. -/
theorem length_le (h : JoinQueue w) : (w.joinwq.map JoinWaiter.jwThread).length ≤ w.created := by
  have hsub : w.joinwq.map JoinWaiter.jwThread ⊆ List.range w.created := by
    intro t ht
    obtain ⟨jw, hjw, rfl⟩ := List.mem_map.mp ht
    exact List.mem_range.mpr (h.known _ _ (h.queued jw hjw))
  simpa using (h.once.subperm hsub).length_le

/-- A thread queues its record and sleeps. -/
theorem enter (h : JoinQueue w) {t j : Tid} (out : ∀ j, ¬ InJoin w t j) (ht : t < w.created) :
    JoinQueue { w with
      joinwq := w.joinwq ++ [⟨t, j⟩]
      frame := Function.update w.frame t (.sched t (.join j)) } := by
  have hne : ∀ jw ∈ w.joinwq, jw.jwThread ≠ t := fun jw hjw heq => out _ (heq ▸ h.queued jw hjw)
  have hother : ∀ k i, k ≠ t →
      (InJoin { w with
        joinwq := w.joinwq ++ [⟨t, j⟩]
        frame := Function.update w.frame t (.sched t (.join j)) } k i ↔ InJoin w k i) := by
    intro k i hk
    simp [InJoin, Function.update_of_ne hk]
  refine ⟨?_, ?_, ?_, ?_⟩
  · intro jw hjw
    rcases List.mem_append.mp hjw with hjw | hjw
    · exact (hother _ _ (hne jw hjw)).mpr (h.queued jw hjw)
    · rw [List.mem_singleton.mp hjw]
      exact ⟨t, by simp⟩
  · intro k i hk
    by_cases hkt : k = t
    · subst hkt
      obtain ⟨prev, hprev⟩ := hk
      simp only [Function.update_self, Frame.sched.injEq, Caller.join.injEq] at hprev
      obtain ⟨-, rfl⟩ := hprev
      exact List.mem_append_right _ List.mem_cons_self
    · exact List.mem_append_left _ (h.waiting k i ((hother k i hkt).mp hk))
  · rw [List.map_append, List.map_singleton]
    refine List.nodup_append_comm.mp (List.nodup_cons.mpr ⟨h.not_queued out, h.once⟩)
  · intro k i hk
    by_cases hkt : k = t
    · exact hkt ▸ ht
    · exact h.known k i ((hother k i hkt).mp hk)

/-- The record of a thread that leaves `bmk_sched_join`, or that is about to queue another, is taken off. -/
theorem leave (h : JoinQueue w) {t j : Tid} {f : Frame} (hin : InJoin w t j)
    (stays : ∀ prev j, f ≠ .sched prev (.join j)) :
    JoinQueue { w with
      joinwq := w.joinwq.erase ⟨t, j⟩
      frame := Function.update w.frame t f } := by
  have hnodup : w.joinwq.Nodup := h.once.of_map _
  have hothers : ∀ jw ∈ w.joinwq.erase ⟨t, j⟩, jw ∈ w.joinwq ∧ jw.jwThread ≠ t := by
    intro jw hjw
    obtain ⟨hne, hmem⟩ := hnodup.mem_erase_iff.mp hjw
    refine ⟨hmem, fun heq => hne ?_⟩
    obtain ⟨prev, hprev⟩ := hin
    obtain ⟨prev', hprev'⟩ := h.queued jw hmem
    rw [heq, hprev, Frame.sched.injEq, Caller.join.injEq] at hprev'
    cases jw
    simp_all
  have hother : ∀ k i, k ≠ t →
      (InJoin { w with
        joinwq := w.joinwq.erase ⟨t, j⟩
        frame := Function.update w.frame t f } k i ↔ InJoin w k i) := by
    intro k i hk
    simp [InJoin, Function.update_of_ne hk]
  refine ⟨?_, ?_, ?_, ?_⟩
  · intro jw hjw
    exact (hother _ _ (hothers jw hjw).2).mpr (h.queued jw (hothers jw hjw).1)
  · intro k i hk
    by_cases hkt : k = t
    · subst hkt
      obtain ⟨prev, hprev⟩ := hk
      simp only [Function.update_self] at hprev
      exact absurd hprev (stays prev i)
    · refine (List.mem_erase_of_ne fun heq => hkt ?_).mpr (h.waiting k i ((hother k i hkt).mp hk))
      cases heq
      rfl
  · exact h.once.sublist (List.erase_sublist.map _)
  · intro k i hk
    by_cases hkt : k = t
    · subst hkt
      exact h.known k j hin
    · exact h.known k i ((hother k i hkt).mp hk)

end JoinQueue

variable {w w' : World}

theorem exitLoop_joinQueue (h : JoinQueue w) (out : ∀ j, ¬ InJoin w w.currentThread j) :
    JoinQueue (exitLoop w) := by
  unfold exitLoop
  dsimp only
  split
  · obtain ⟨tcb, heq, -⟩ :=
      wakeJoiner_eq (w.setFlags w.currentThread fun flags => { flags with joined := true })
      w.currentThread
    rw [heq]
    exact (h.setFrame out (by simp)).congr rfl rfl le_rfl
  · exact (h.setFrame out (by simp)).congr rfl rfl le_rfl

theorem joinLoop_joinQueue (h : JoinQueue w) (out : ∀ j, ¬ InJoin w w.currentThread j)
    (ht : w.currentThread < w.created) (joinable : Tid) : JoinQueue (joinLoop w joinable) := by
  unfold joinLoop
  dsimp only
  split
  · exact (h.setFrame out (by simp)).congr rfl rfl le_rfl
  · exact (h.enter out ht).congr rfl rfl le_rfl

/-- `bmk_sched_join` goes on in the frame it is in, whatever that is. -/
theorem joinLoop_setFrame (w : World) (f : Frame) (joinable : Tid) :
    joinLoop { w with frame := Function.update w.frame w.currentThread f } joinable =
    joinLoop w joinable := by
  unfold joinLoop enterSched
  simp only [World.setFlags, Function.update_idem]

theorem resumeCaller_joinQueue (h : JoinQueue w) {p : Tid} {caller : Caller}
    (hframe : w.frame w.currentThread = .sched p caller) : JoinQueue (resumeCaller w caller) := by
  have hout : (∀ joinable, caller ≠ .join joinable) → ∀ j, ¬ InJoin w w.currentThread j := by
    rintro hne j ⟨prev', hprev'⟩
    rw [hframe, Frame.sched.injEq] at hprev'
    exact hne j hprev'.2
  cases caller with
  | other => exact h.setFrame (hout (by simp)) (by simp)
  | exitGate => exact exitLoop_joinQueue h (hout (by simp))
  | exitFinal => exact h.setFrame (hout (by simp)) (by simp)
  | join joinable =>
      have hin : InJoin w w.currentThread joinable := ⟨p, hframe⟩
      have hleft : JoinQueue { w with
          joinwq := w.joinwq.erase ⟨w.currentThread, joinable⟩
          frame := Function.update w.frame w.currentThread .user } := h.leave hin (by simp)
      have hloop := joinLoop_joinQueue hleft (by simp [InJoin]) (h.known _ _ hin) joinable
      rw [joinLoop_setFrame { w with joinwq := w.joinwq.erase ⟨w.currentThread, joinable⟩ }] at hloop
      exact hloop

theorem resume_joinQueue (h : JoinQueue w) : JoinQueue (resume w) := by
  unfold resume
  split
  · rename_i hframe
    exact h.setFrame (by simp [InJoin, hframe]) (by simp)
  · exact h
  · rename_i prev caller hframe
    obtain ⟨zombies, freedStacks, freedThreads, heq⟩ := reaper_eq prev w
    have hreaped : JoinQueue (reaper prev w) := by
      rw [heq]
      exact h.congr rfl rfl le_rfl
    refine resumeCaller_joinQueue hreaped (p := prev) ?_
    rw [heq]
    exact hframe

theorem joinQueue_step {e : Event} (hlife : LifeCycle w) (h : JoinQueue w) (hstep : step w e = some w') :
    JoinQueue w' := by
  obtain ⟨-, henabled, rfl⟩ := step_inv hstep
  have hout : w.calls = true → ∀ j, ¬ InJoin w w.currentThread j :=
    fun hcalls j => not_inJoin_of_calls hcalls j
  have hcurrent : w.calls = true → w.currentThread < w.created := fun hcalls =>
    (hlife.mem_iff_created _).mp (Or.inl (Executing.ofCalls hlife hcalls).running)
  cases e with
  | create thrflags stackBase stackSize =>
      have hnew : ∀ j, ¬ InJoin w w.created j := fun j hin => absurd (h.known _ _ hin) (lt_irrefl _)
      have hadd : JoinQueue { w with frame := Function.update w.frame w.created .fresh } :=
        h.setFrame hnew (by simp)
      simp only [effect, bmkSchedCreate]
      cases stackBase with
      | none =>
          simp only
          split
          · exact h.congr rfl rfl le_rfl
          · exact hadd.congr rfl rfl (Nat.le_succ _)
      | some base => exact hadd.congr rfl rfl (Nat.le_succ _)
  | exit => exact exitLoop_joinQueue (h.congr rfl rfl le_rfl) (hout henabled)
  | join joinable =>
      have hcalled : JoinQueue { w with joinCalls := (w.currentThread, joinable) :: w.joinCalls } :=
        h.congr rfl rfl le_rfl
      simp only [effect, bmkSchedJoin]
      split
      · exact joinLoop_joinQueue hcalled (hout henabled) (hcurrent henabled) joinable
      · exact hcalled.congr rfl rfl le_rfl
  | sched => exact h.setFrame (hout henabled) (by simp)
  | block thread => exact h.congr rfl rfl le_rfl
  | setwakeup thread abstime => exact h.congr rfl rfl le_rfl
  | nanosleep now nsec => exact (h.setFrame (hout henabled) (by simp)).congr rfl rfl le_rfl
  | wake thread => exact h.congr rfl rfl le_rfl
  | pass tm =>
      simp only [effect, pass]
      split
      · exact h.congr rfl rfl le_rfl
      · exact resume_joinQueue (h.congr rfl rfl le_rfl)

end RumpBaremetal.Sched

namespace RumpBaremetal.SchedLinks

open Sched (Tid Caller Frame JoinWaiter Halt Event InJoin JoinQueue LifeCycle Executing)
open StepSystem

/-- The world with lists in place of the queues. -/
def World.unlinked (w : World) (threads zombies : List Tid) (joinwq : List JoinWaiter) : Sched.World where
  tcb := w.tcb
  threads := threads
  zombies := zombies
  currentThread := w.currentThread
  joinwq := joinwq
  frame := w.frame
  created := w.created
  freedThreads := w.freedThreads
  freedStacks := w.freedStacks
  exitCalls := w.exitCalls
  joinCalls := w.joinCalls
  joinReturns := w.joinReturns
  halted := w.halted

/-- The queues hold the lists, and the records on the stacks are those of the join queue. -/
structure Shows (entries : Tailqs ThreadQueue Tid) (jw : Tid → JoinWaiter) (queue : Tailqs Unit Tid)
    (threads zombies : List Tid) (joinwq : List JoinWaiter) : Prop where
  running : Holds entries .threads threads
  exited : Holds entries .zombies zombies
  joining : Holds queue () (joinwq.map JoinWaiter.jwThread)
  records : ∀ r ∈ joinwq, jw r.jwThread = r

/-- The world over lists that a world over queues stands for. -/
def Depicts (v : Sched.World) (w : World) : Prop :=
  ∃ threads zombies joinwq, v = w.unlinked threads zombies joinwq ∧
    Shows w.entries w.jw w.joinwq threads zombies joinwq

variable {v : Sched.World} {w : World}

/-! ### The functions -/

theorem addThread_depicts {threads zombies : List Tid} {joinwq : List JoinWaiter}
    (h : Shows w.entries w.jw w.joinwq threads zombies joinwq) (hthreads : w.created ∉ threads)
    (hzombies : w.created ∉ zombies) (b : BmkThread) :
    Depicts ((addThread w b).unlinked (w.created :: threads) zombies joinwq) (addThread w b) := by
  refine ⟨_, _, _, rfl, ?_, ?_, h.joining, h.records⟩
  · exact h.running.insertHead hthreads
  · exact h.running.insertHead_other h.exited (by simp) hzombies

theorem bmkSchedCreate_depicts (h : Depicts v w) (hexec : Executing v) (thrflags : Int)
    (stackBase : Option Nat) (stackSize : Nat) :
    Depicts (Sched.bmkSchedCreate v thrflags stackBase stackSize)
      (bmkSchedCreate w thrflags stackBase stackSize) := by
  obtain ⟨threads, zombies, joinwq, rfl, hs⟩ := h
  have hnew : ∀ t, t ∈ threads ∨ t ∈ zombies → w.created ≠ t := by
    rintro t ht rfl
    have hlt := (hexec.mem_iff_created w.created).mp (ht.imp_right Or.inl)
    exact lt_irrefl _ hlt
  have hadd := addThread_depicts hs (fun ht => hnew _ (Or.inl ht) rfl) (fun ht => hnew _ (Or.inr ht) rfl)
  cases stackBase with
  | none =>
      by_cases hsize : stackSize = 0
      · subst hsize
        exact hadd { stackbase := some (.heap w.created) }
      · simp only [Sched.bmkSchedCreate, bmkSchedCreate, ne_eq, hsize, not_false_eq_true, if_true]
        exact ⟨threads, zombies, joinwq, rfl, hs⟩
  | some base => exact hadd { flags := { extstack := true }, stackbase := some (.external base) }

/-- The search for the joiner finds the record that the list has first. -/
theorem wakeJoiner_follows (h : Depicts v w) (hq : JoinQueue v) (thread : Tid) :
    ∃ w', wakeJoiner w thread = some w' ∧ Depicts (Sched.wakeJoiner v thread) w' := by
  obtain ⟨threads, zombies, joinwq, rfl, hs⟩ := h
  have hloop : ∃ w' var,
      foreach (fun w jwIter => tailqNext w.joinwq jwIter) (wakeIfWanted thread) w.created w
        (joinwq.map JoinWaiter.jwThread).head? = some (w', var) ∧
      Ends
        (fun w' rest => w' = w ∧ ∃ before after, joinwq = before ++ after ∧
          rest = after.map JoinWaiter.jwThread ∧
          (joinwq.find? fun jw => jw.jwWanted = thread) = after.find? fun jw => jw.jwWanted = thread)
        (fun w' _ => ∃ jw, (joinwq.find? fun jw => jw.jwWanted = thread) = some jw ∧
          w' = { w with tcb := bmkSchedWake w.tcb jw.jwThread }) w' var := by
    -- the records passed so far were those of other threads
    refine foreach_rule ?_ ?_ ?_ ⟨rfl, [], joinwq, rfl, rfl, rfl⟩ hq.length_le
    all_goals
      rintro u u' x xs ⟨rfl, before, after, rfl, hrest, hfind⟩ hbody
      obtain ⟨jw, after, rfl, rfl, rfl⟩ := List.map_eq_cons_iff.mp hrest.symm
      have hrecord : u.jw jw.jwThread = jw := hs.records jw (by simp)
      simp only [wakeIfWanted, hrecord] at hbody
      split at hbody
    · simp at hbody
    · simp only [Prod.mk.injEq, and_true] at hbody
      subst hbody
      have hholds := hs.joining
      rw [List.map_append, List.map_cons] at hholds
      exact hholds.next_eq
    · simp at hbody
    · rename_i hne
      simp only [Prod.mk.injEq, and_true] at hbody
      refine ⟨hbody.symm, before ++ [jw], after, by simp, rfl, ?_⟩
      simpa [hne] using hfind
    · rename_i hwanted
      simp only [Prod.mk.injEq, and_true] at hbody
      refine ⟨jw, ?_, hbody.symm⟩
      simpa [hwanted] using hfind
    · simp at hbody
  obtain ⟨w', var, hloop, hends⟩ := hloop
  refine ⟨w', ?_, ?_⟩
  · rw [wakeJoiner, hs.joining.first_eq, hloop, Option.map_some]
  · cases var with
    | none =>
        obtain ⟨rfl, before, after, -, hnil, hfind⟩ := hends
        have hafter : after = [] := List.map_eq_nil_iff.mp hnil.symm
        have hnone : (joinwq.find? fun jw => jw.jwWanted = thread) = none := by
          rw [hfind, hafter]
          rfl
        simp only [Sched.wakeJoiner, World.unlinked, hnone]
        exact ⟨threads, zombies, joinwq, rfl, hs⟩
    | some x =>
        obtain ⟨jw, hfind, rfl⟩ := hends
        simp only [Sched.wakeJoiner, World.unlinked, hfind]
        exact ⟨threads, zombies, joinwq, rfl, hs⟩

theorem exitLoop_follows (h : Depicts v w) (hexec : Executing v) (hq : JoinQueue v) :
    ∃ w', exitLoop w = some w' ∧ Depicts (Sched.exitLoop v) w' := by
  obtain ⟨threads, zombies, joinwq, rfl, hs⟩ := h
  by_cases hmust : (w.tcb w.currentThread).flags.mustjoin = true
  · have hflags : Depicts
        ((w.unlinked threads zombies joinwq).setFlags w.currentThread fun flags =>
          { flags with joined := true })
        (w.setFlags w.currentThread fun flags => { flags with joined := true }) :=
      ⟨threads, zombies, joinwq, rfl, hs⟩
    obtain ⟨w', hwoken, threads', zombies', joinwq', heq, hs'⟩ :=
      wakeJoiner_follows hflags (hq.congr rfl rfl le_rfl) w.currentThread
    have hlinked : exitLoop w =
        some (enterSched { w' with tcb := bmkSchedBlock w'.tcb w.currentThread } .exitGate) := by
      simp only [exitLoop, hmust, if_true, hwoken, Option.map_some]
    have hlists : Sched.exitLoop (w.unlinked threads zombies joinwq) =
        (fun u : Sched.World => Sched.enterSched { u with tcb := bmkSchedBlock u.tcb w.currentThread }
          .exitGate)
          (Sched.wakeJoiner
            ((w.unlinked threads zombies joinwq).setFlags w.currentThread fun flags =>
              { flags with joined := true })
            w.currentThread) := if_pos hmust
    refine ⟨_, hlinked, ?_⟩
    rw [hlists, heq]
    exact ⟨threads', zombies', joinwq', rfl, hs'⟩
  · have hrunning : w.currentThread ∈ threads := hexec.running
    have hzombie : w.currentThread ∉ zombies := hexec.threads_not_zombie hrunning
    have hremoved := hs.running.erase hrunning
    have hkept := hs.running.erase_other hrunning hs.exited (by simp)
    have hgone : w.currentThread ∉ threads.erase w.currentThread := hs.running.nodup.not_mem_erase
    have hlinked : exitLoop w = some (enterSched { w with
        tcb := clearRunnable w.tcb w.currentThread
        entries :=
          tailqInsertHead (tailqRemove w.entries .threads w.currentThread) .zombies w.currentThread }
        .exitFinal) := if_neg hmust
    have hlists : Sched.exitLoop (w.unlinked threads zombies joinwq) =
        Sched.enterSched { w.unlinked threads zombies joinwq with
          threads := threads.erase w.currentThread
          tcb := clearRunnable w.tcb w.currentThread
          zombies := w.currentThread :: zombies } .exitFinal := if_neg hmust
    refine ⟨_, hlinked, ?_⟩
    rw [hlists]
    refine ⟨threads.erase w.currentThread, w.currentThread :: zombies, joinwq, rfl, ?_, ?_, hs.joining,
      hs.records⟩
    · exact hkept.insertHead_other hremoved (by simp) hgone
    · exact hkept.insertHead hzombie

theorem joinLoop_depicts (h : Depicts v w) (hout : v.currentThread ∉ v.joinwq.map JoinWaiter.jwThread)
    (joinable : Tid) :
    Depicts (Sched.joinLoop v joinable) (joinLoop w joinable) := by
  obtain ⟨threads, zombies, joinwq, rfl, hs⟩ := h
  by_cases hjoined : (w.tcb joinable).flags.joined = true
  · simp only [Sched.joinLoop, joinLoop, World.unlinked, hjoined, if_true]
    exact ⟨threads, zombies, joinwq, rfl, hs⟩
  · simp only [Sched.joinLoop, joinLoop, World.unlinked, hjoined, Bool.false_eq_true, if_false]
    refine ⟨threads, zombies, joinwq ++ [⟨w.currentThread, joinable⟩], rfl, hs.running, hs.exited, ?_, ?_⟩
    · rw [List.map_append, List.map_singleton]
      exact hs.joining.insertTail hout
    · intro r hr
      rcases List.mem_append.mp hr with hr | hr
      · have hmem : r.jwThread ∈ joinwq.map JoinWaiter.jwThread := List.mem_map_of_mem hr
        have hne : r.jwThread ≠ w.currentThread := by
          intro heq
          rw [heq] at hmem
          exact hout hmem
        exact (Function.update_of_ne hne _ _).trans (hs.records r hr)
      · rw [List.mem_singleton.mp hr]
        exact Function.update_self _ _ _

theorem bmkSchedJoin_depicts (h : Depicts v w) (hout : v.currentThread ∉ v.joinwq.map JoinWaiter.jwThread)
    (joinable : Tid) : Depicts (Sched.bmkSchedJoin v joinable) (bmkSchedJoin w joinable) := by
  obtain ⟨threads, zombies, joinwq, rfl, hs⟩ := h
  by_cases hmust : (w.tcb joinable).flags.mustjoin = true
  · have hcalled : Depicts
        { w.unlinked threads zombies joinwq with joinCalls := (w.currentThread, joinable) :: w.joinCalls }
        { w with joinCalls := (w.currentThread, joinable) :: w.joinCalls } :=
          ⟨threads, zombies, joinwq, rfl, hs⟩
    simp only [Sched.bmkSchedJoin, bmkSchedJoin, World.unlinked, hmust, if_true]
    exact joinLoop_depicts hcalled hout joinable
  · simp only [Sched.bmkSchedJoin, bmkSchedJoin, World.unlinked, hmust, Bool.false_eq_true, if_false]
    exact ⟨threads, zombies, joinwq, rfl, hs⟩

/-- The reaper goes over the zombies as they were when it started, however many it takes off. -/
theorem reaper_follows (h : Depicts v w) (hexec : Executing v) (prev : Tid) :
    ∃ w', reaper prev w = some w' ∧ Depicts (Sched.reaper prev v) w' := by
  obtain ⟨threads, zombies, joinwq, rfl, hs⟩ := h
  have hlen : zombies.length ≤ w.created := by
    have harranged := hexec.arranged.length_eq
    simp only [World.unlinked, List.length_append, List.length_range] at harranged
    omega
  have hloop : ∃ w' var,
      foreachSafe (fun w thread => tailqNext w.entries thread) (reapOne prev) w.created w zombies.head? =
        some (w', var) ∧
      Ends
        (fun w' rest => ∃ kept, Shows w'.entries w'.jw w'.joinwq threads (kept ++ rest) joinwq ∧
          rest.foldl (Sched.reapOne prev) (w'.unlinked threads (kept ++ rest) joinwq) =
            Sched.reaper prev (w.unlinked threads zombies joinwq))
        (fun _ _ => False) w' var := by
    -- `kept` is what the loop has left on the queue behind it
    refine foreachSafe_rule ?_ ?_ ?_ ⟨[], hs, rfl⟩ hlen
    · rintro u x xs ⟨kept, hu, -⟩
      exact hu.exited.next_eq
    · rintro u u' x xs ⟨kept, hu, hfold⟩ hbody
      by_cases hx : x = prev
      · simp only [reapOne, hx, if_true, Prod.mk.injEq, and_true] at hbody
        subst hbody hx
        refine ⟨kept ++ [x], by simpa using hu, ?_⟩
        simpa [Sched.reapOne] using hfold
      · simp only [reapOne, hx, if_false, Prod.mk.injEq, and_true] at hbody
        subst hbody
        refine ⟨kept, ⟨?_, ?_, hu.joining, hu.records⟩, ?_⟩
        · exact hu.exited.remove_other hu.running (by simp)
        · exact hu.exited.remove
        · rw [← hfold, List.foldl_cons]
          simp only [Sched.reapOne, hx, if_false, World.unlinked, hu.exited.erase_eq]
          rfl
    · rintro u u' x xs - hbody
      simp only [reapOne] at hbody
      split at hbody <;> simp at hbody
  obtain ⟨w', var, hloop, hends⟩ := hloop
  cases var with
  | none =>
      obtain ⟨kept, hs', hfold⟩ := hends
      rw [List.append_nil] at hs' hfold
      refine ⟨w', ?_, ?_⟩
      · rw [reaper, hs.exited.first_eq, hloop, Option.map_some]
      · rw [← hfold]
        exact ⟨threads, kept, joinwq, rfl, hs'⟩
  | some x => exact hends.elim

theorem resumeCaller_follows (h : Depicts v w) (hexec : Executing v) (hq : JoinQueue v) {p : Tid}
    {caller : Caller} (hframe : v.frame v.currentThread = .sched p caller) :
    ∃ w', resumeCaller w caller = some w' ∧ Depicts (Sched.resumeCaller v caller) w' := by
  cases caller with
  | other =>
      obtain ⟨threads, zombies, joinwq, rfl, hs⟩ := h
      exact ⟨_, rfl, threads, zombies, joinwq, rfl, hs⟩
  | exitGate => exact exitLoop_follows h hexec hq
  | exitFinal =>
      obtain ⟨threads, zombies, joinwq, rfl, hs⟩ := h
      exact ⟨_, rfl, threads, zombies, joinwq, rfl, hs⟩
  | join joinable =>
      obtain ⟨threads, zombies, joinwq, rfl, hs⟩ := h
      have hmem : (⟨w.currentThread, joinable⟩ : JoinWaiter) ∈ joinwq := hq.waiting _ _ ⟨p, hframe⟩
      have hmap : (joinwq.erase ⟨w.currentThread, joinable⟩).map JoinWaiter.jwThread =
          (joinwq.map JoinWaiter.jwThread).erase w.currentThread := by
        obtain ⟨before, behind, rfl⟩ := List.append_of_mem hmem
        have hjoining := hs.joining
        rw [List.map_append, List.map_cons] at hjoining ⊢
        have hbefore : (⟨w.currentThread, joinable⟩ : JoinWaiter) ∉ before := by
          intro hin
          exact (List.nodup_append.mp hjoining.nodup).2.2 _ (List.mem_map_of_mem hin) _ List.mem_cons_self
            rfl
        rw [List.erase_append_right _ hbefore, List.erase_cons_head, List.map_append]
        exact hjoining.erase_eq.symm
      have htaken : Depicts
          { w.unlinked threads zombies joinwq with joinwq := joinwq.erase ⟨w.currentThread, joinable⟩ }
          { w with joinwq := tailqRemove w.joinwq () w.currentThread } := by
        refine ⟨threads, zombies, joinwq.erase ⟨w.currentThread, joinable⟩, rfl, hs.running, hs.exited, ?_,
          ?_⟩
        · rw [hmap]
          exact hs.joining.erase (List.mem_map_of_mem hmem)
        · exact fun r hr => hs.records r (List.mem_of_mem_erase hr)
      refine ⟨_, rfl, joinLoop_depicts htaken ?_ joinable⟩
      simp only [hmap]
      exact hs.joining.nodup.not_mem_erase

theorem resume_follows (h : Depicts v w) (hexec : Executing v) (hq : JoinQueue v) :
    ∃ w', resume w = some w' ∧ Depicts (Sched.resume v) w' := by
  have hframe : v.frame v.currentThread = w.frame w.currentThread := by
    obtain ⟨threads, zombies, joinwq, rfl, -⟩ := h
    rfl
  cases hat : w.frame w.currentThread with
  | fresh =>
      obtain ⟨threads, zombies, joinwq, rfl, hs⟩ := h
      simp only [resume, Sched.resume, World.unlinked, hat]
      exact ⟨_, rfl, threads, zombies, joinwq, rfl, hs⟩
  | user =>
      simp only [resume, Sched.resume, hframe, hat]
      exact ⟨w, rfl, h⟩
  | sched prev caller =>
      obtain ⟨u, hreaped, hu⟩ := reaper_follows h hexec prev
      obtain ⟨zombies, freedStacks, freedThreads, heq⟩ := Sched.reaper_eq prev v
      have hqueue : JoinQueue (Sched.reaper prev v) := by
        rw [heq]
        exact hq.congr rfl rfl le_rfl
      have hstill : (Sched.reaper prev v).frame (Sched.reaper prev v).currentThread =
          .sched prev caller := by
        rw [heq]
        exact hframe.trans hat
      obtain ⟨w', hresumed, hw'⟩ :=
        resumeCaller_follows hu (Sched.reaper_executing hexec prev) hqueue hstill
      refine ⟨w', ?_, ?_⟩
      · simp only [resume, hat, hreaped, Option.bind_some, hresumed]
      · simpa only [Sched.resume, hframe, hat] using hw'

/-- The scan leaves the queue alone until it has found a thread, and then moves that one to its end. -/
theorem scan_follows {threads zombies : List Tid} {joinwq : List JoinWaiter}
    (hs : Shows w.entries w.jw w.joinwq threads zombies joinwq) (hlen : threads.length ≤ w.created)
    (tm : Int) :
    foreachSafe (fun w thread => tailqNext w.entries thread) (scanOne tm) w.created w
        (tailqFirst w.entries .threads) =
      some (match scan tm w.tcb threads with
        | (tcb, none) => ({ w with tcb := tcb }, none)
        | (tcb, some next) =>
            ({ w with
                tcb := tcb
                entries := tailqInsertTail (tailqRemove w.entries .threads next) .threads next },
                  some next)) := by
  have hloop : ∃ w' var,
      foreachSafe (fun w thread => tailqNext w.entries thread) (scanOne tm) w.created w threads.head? =
        some (w', var) ∧
      Ends
        (fun w' rest => ∃ before tcb, threads = before ++ rest ∧ w' = { w with tcb := tcb } ∧
          scan tm w.tcb threads = scan tm tcb rest)
        (fun w' x => ∃ tcb, scan tm w.tcb threads = (tcb, some x) ∧ w' = { w with
          tcb := tcb
          entries := tailqInsertTail (tailqRemove w.entries .threads x) .threads x }) w' var := by
    refine foreachSafe_rule ?_ ?_ ?_ ⟨[], w.tcb, rfl, rfl, rfl⟩ hlen
    · rintro u x xs ⟨before, tcb, rfl, rfl, -⟩
      exact hs.running.next_eq
    · rintro u u' x xs ⟨before, tcb, rfl, rfl, hscan⟩ hbody
      simp only [scanOne] at hbody
      split at hbody
      · simp at hbody
      · rename_i hrun
        simp only [Prod.mk.injEq, and_true] at hbody
        refine ⟨before ++ [x], expire tm tcb x, by simp, hbody.symm, ?_⟩
        rw [hscan, scan]
        exact if_neg hrun
    · rintro u u' x xs ⟨before, tcb, rfl, rfl, hscan⟩ hbody
      simp only [scanOne] at hbody
      split at hbody
      · rename_i hrun
        simp only [Prod.mk.injEq, and_true] at hbody
        refine ⟨expire tm tcb x, ?_, hbody.symm⟩
        rw [hscan, scan]
        exact if_pos hrun
      · simp at hbody
  obtain ⟨w', var, hloop, hends⟩ := hloop
  rw [hs.running.first_eq, hloop]
  cases var with
  | none =>
      obtain ⟨before, tcb, -, rfl, hscan⟩ := hends
      rw [hscan]
      rfl
  | some x =>
      obtain ⟨tcb, hscan, rfl⟩ := hends
      rw [hscan]

theorem pass_follows (h : Depicts v w) (hlife : LifeCycle v) (hq : JoinQueue v) (tm : Int) :
    ∃ w', pass tm w = some w' ∧ Depicts (Sched.pass tm v) w' := by
  obtain ⟨threads, zombies, joinwq, rfl, hs⟩ := h
  have hlen : threads.length ≤ w.created := by
    have harranged := hlife.arranged.length_eq
    simp only [World.unlinked, List.length_append, List.length_range] at harranged
    omega
  rw [pass, scan_follows hs hlen]
  cases hscan : scan tm w.tcb threads with
  | mk tcb next =>
      cases next with
      | none =>
          simp only [Sched.pass, World.unlinked, hscan, Option.bind_some]
          exact ⟨_, rfl, threads, zombies, joinwq, rfl, hs⟩
      | some next =>
          have hnext : next ∈ threads := ((scan_spec tm threads w.tcb tcb (some next) hscan).2.2 next rfl).1
          have hmoved : Depicts (Sched.dispatched (w.unlinked threads zombies joinwq) tcb next) { w with
              tcb := tcb
              entries := tailqInsertTail (tailqRemove w.entries .threads next) .threads next
              currentThread := next } := by
            have hrest := hs.running.erase hnext
            have hkept := hs.running.erase_other hnext hs.exited (by simp)
            refine ⟨threads.erase next ++ [next], zombies, joinwq, rfl, ?_, ?_, hs.joining, hs.records⟩
            · exact hrest.insertTail hs.running.nodup.not_mem_erase
            · exact hrest.insertTail_other hkept (by simp) (hlife.threads_not_zombie hnext)
          have hexec := Sched.dispatched_executing hlife hscan
          obtain ⟨w', hresumed, hw'⟩ := resume_follows hmoved hexec (hq.congr rfl rfl le_rfl)
          refine ⟨w', hresumed, ?_⟩
          simpa only [Sched.pass, World.unlinked, hscan, Sched.dispatched] using hw'

/-! ### Runs -/

theorem effect_follows (h : Depicts v w) (hlife : LifeCycle v) (hq : JoinQueue v) {e : Event}
    (henabled : Sched.enabled v e = true) : ∃ w', effect w e = some w' ∧ Depicts (Sched.effect v e) w' := by
  have hexec : v.calls = true → Executing v := fun hcalls => .ofCalls hlife hcalls
  have hout : v.calls = true → v.currentThread ∉ v.joinwq.map JoinWaiter.jwThread := fun hcalls =>
    hq.not_queued fun j => Sched.not_inJoin_of_calls hcalls j
  cases e with
  | create thrflags stackBase stackSize =>
      exact ⟨_, rfl, bmkSchedCreate_depicts h (hexec henabled) thrflags stackBase stackSize⟩
  | exit =>
      have hcalled : Executing { v with exitCalls := v.currentThread :: v.exitCalls } := by
        have hv := hexec henabled
        exact ⟨⟨hv.arranged, hv.ownPrev, hv.ownStack, hv.stacksOnce, hv.stacksFreed⟩, hv.exited, hv.running⟩
      obtain ⟨threads, zombies, joinwq, rfl, hs⟩ := h
      have hnoted : Depicts
          { w.unlinked threads zombies joinwq with exitCalls := w.currentThread :: w.exitCalls }
          { w with exitCalls := w.currentThread :: w.exitCalls } := ⟨threads, zombies, joinwq, rfl, hs⟩
      exact exitLoop_follows hnoted hcalled (hq.congr rfl rfl le_rfl)
  | join joinable => exact ⟨_, rfl, bmkSchedJoin_depicts h (hout henabled) joinable⟩
  | pass tm => exact pass_follows h hlife hq tm
  | sched | block | setwakeup | nanosleep | wake =>
      obtain ⟨threads, zombies, joinwq, rfl, hs⟩ := h
      exact ⟨_, rfl, threads, zombies, joinwq, rfl, hs⟩

/-- The two machines side by side, with what the one over lists keeps. -/
structure Beside (v : Sched.World) (w : World) : Prop where
  depicts : Depicts v w
  lifeCycle : LifeCycle v
  joinQueue : JoinQueue v

theorem beside_step (h : Beside v w) (e : Event) : Option.Rel Beside (Sched.step v e) (step w e) := by
  have henabled : enabled w e = Sched.enabled v e := by
    obtain ⟨threads, zombies, joinwq, rfl, -⟩ := h.depicts
    cases e <;> rfl
  have hhalted : w.halted = v.halted := by
    obtain ⟨threads, zombies, joinwq, rfl, -⟩ := h.depicts
    rfl
  cases hstep : Sched.step v e with
  | none =>
      unfold Sched.step at hstep
      split at hstep
      · cases hstep
      · rename_i hnot
        rw [step, henabled, hhalted, if_neg hnot]
        exact .none
  | some v' =>
      have hok := Sched.step_inv hstep
      obtain ⟨w', heffect, hw'⟩ := effect_follows h.depicts h.lifeCycle h.joinQueue hok.2.1
      rw [step, henabled, hhalted, if_pos ⟨by simp [hok.1], hok.2.1⟩, heffect]
      refine .some ⟨?_, Sched.lifeCycle_step h.lifeCycle hstep,
        Sched.joinQueue_step h.lifeCycle h.joinQueue hstep⟩
      rw [hok.2.2]
      exact hw'

/-- From whatever the entries hold at first. -/
theorem bmkSchedInit_depicts (entries : Tailqs ThreadQueue Tid) (jw : Tid → JoinWaiter)
    (joinwq : Tailqs Unit Tid) :
    Depicts Sched.bmkSchedInit (bmkSchedInit entries jw joinwq) := by
  have hthreads := Holds.init (tailqInit entries .zombies) .threads
  have hzombies : Holds (tailqInit (tailqInit entries .zombies) .threads) .zombies [] :=
    (Holds.init entries .zombies).init_other (by simp)
  refine ⟨[0], [], [], rfl, ?_, ?_, Holds.init joinwq (), by simp⟩
  · exact hthreads.insertTail (by simp)
  · exact hthreads.insertTail_other hzombies (by simp) (by simp)

/-- In every run, from any arrangement of threads and joiners, the scheduler over pointers does what the one
    over lists does: its loops end, and its queues hold the lists. -/
theorem linked_scheduler_follows {v : Sched.World} {w : World} (lifeCycle : LifeCycle v)
    (joinQueue : JoinQueue v) (depicts : Depicts v w) (events : List Event) :
    Option.Rel Depicts (run Sched.step v events) (run step w events) := by
  have hsim : Option.Rel Beside (run Sched.step v events) (run step w events) :=
    run_simulation (C := fun _ _ => True) (fun _ _ e h _ => beside_step h e) ⟨depicts, lifeCycle, joinQueue⟩
      (meets_of_mem (fun _ _ _ => trivial) v)
  exact rel_mono (fun _ _ h => h.depicts) hsim

/-- `init_thread` and one other thread with `THREAD_MUSTJOIN` set by hand, over queues whose memory held
    anything before: the joiner sleeps on the join queue, the thread exits and wakes it, and is reaped from
    the queue of zombies. -/
theorem linked_scheduler_follows_handshake :
    ∃ v w, run Sched.step Sched.oneJoinable [.join 1, .pass 0, .exit, .pass 0, .sched, .pass 0, .pass 0] =
      some v ∧
      run step
        ((bmkSchedCreate
          (bmkSchedInit ⟨⟨fun _ => some 7, fun _ => .next 9⟩, fun _ => .next 9⟩ (fun _ => ⟨3, 5⟩)
            ⟨⟨fun _ => some 7, fun _ => .next 9⟩, fun _ => .next 9⟩) 0 none 0).setFlags 1
          fun flags => { flags with mustjoin := true })
        [.join 1, .pass 0, .exit, .pass 0, .sched, .pass 0, .pass 0] = some w ∧
      Depicts v w ∧ w.freedThreads = [1] := by
  have hstart := Sched.oneJoinable_start
  have hjoins : JoinQueue Sched.oneJoinable :=
    ⟨hstart.queued, fun k j hk => (hstart.waiting k j hk).2.1, List.nodup_nil,
      fun k j hk => (hstart.waiting k j hk).2.2.2⟩
  have hdepicts : Depicts Sched.oneJoinable
      ((bmkSchedCreate
        (bmkSchedInit ⟨⟨fun _ => some 7, fun _ => .next 9⟩, fun _ => .next 9⟩ (fun _ => ⟨3, 5⟩)
          ⟨⟨fun _ => some 7, fun _ => .next 9⟩, fun _ => .next 9⟩) 0 none 0).setFlags 1
        fun flags => { flags with mustjoin := true }) := by
    obtain ⟨threads, zombies, joinwq, heq, hs⟩ := bmkSchedCreate_depicts
      (bmkSchedInit_depicts ⟨⟨fun _ => some 7, fun _ => .next 9⟩, fun _ => .next 9⟩ (fun _ => ⟨3, 5⟩)
        ⟨⟨fun _ => some 7, fun _ => .next 9⟩, fun _ => .next 9⟩) (.ofCalls Sched.lifeCycle_init rfl) 0 none
        0
    refine ⟨threads, zombies, joinwq, ?_, hs⟩
    rw [Sched.oneJoinable, heq]
    rfl
  have hfollows := linked_scheduler_follows hstart.lifeCycle hjoins hdepicts
    [.join 1, .pass 0, .exit, .pass 0, .sched, .pass 0, .pass 0]
  have hrun : run Sched.step Sched.oneJoinable [.join 1, .pass 0, .exit, .pass 0, .sched, .pass 0,
    .pass 0] = some _ := rfl
  rw [hrun] at hfollows
  obtain ⟨w, hw, hdepicted⟩ := rel_of_some hfollows
  refine ⟨_, w, hrun, hw, hdepicted, ?_⟩
  obtain ⟨threads, zombies, joinwq, heq, -⟩ := hdepicted
  exact (congrArg Sched.World.freedThreads heq).symm

end RumpBaremetal.SchedLinks
