/-
Module: RumpBaremetal.Proofs.Join
Layer: Proofs
Purpose: The handshake between `bmk_sched_exit` and `bmk_sched_join`.  Given `THREAD_MUSTJOIN` in the
  flags of a thread, exit and join meet in either order without losing each other.  The flag itself,
  however, is nowhere set: `bmk_sched_create` ignores the argument in which the hypercall layer asks
  for it, so no thread made by `rumpuser_thread_create` can be joined.
Trusted boundary: none (fully proved)
Main exports: HandshakeStart, JoinOnce, Handshake, HandshakeSound, exit_join_handshake, JoinContract,
  rumpuser_join_never_holds
-/
import RumpBaremetal.Proofs.Lifecycle

namespace RumpBaremetal.Sched

open StepSystem

/-! ### The handshake, given the flag -/

/-- The thread is inside `bmk_sched_join` on `j`, waiting. -/
def InJoin (w : World) (k j : Tid) : Prop := ∃ prev, w.frame k = .sched prev (.join j)

/-- The thread is at the gate of `bmk_sched_exit`. -/
def AtGate (w : World) (j : Tid) : Prop := ∃ prev, w.frame j = .sched prev .exitGate

/-- The state the handshake starts from: `joiner j = some k` says that `j` has `THREAD_MUSTJOIN` set and
    `THREAD_JOINED` clear and is to be joined by the other thread `k`, which may already be waiting. -/
structure HandshakeStart (joiner : Tid → Option Tid) (w : World) : Prop where
  lifeCycle : LifeCycle w
  flags : ∀ j k, joiner j = some k →
    (w.tcb j).flags.mustjoin = true ∧ (w.tcb j).flags.joined = false ∧ k ≠ j
  onThreads : ∀ j k, joiner j = some k → j ∈ w.threads
  notAtGate : ∀ j k, joiner j = some k → ¬ AtGate w j
  waiting : ∀ k j, InJoin w k j →
    joiner j = some k ∧ ⟨k, j⟩ ∈ w.joinwq ∧ (k, j) ∈ w.joinCalls ∧ k < w.created
  queued : ∀ jw ∈ w.joinwq, InJoin w jw.jwThread jw.jwWanted
  queueOnce : w.joinwq.Nodup
  noReturns : ∀ j k k', joiner j = some k → (k', j) ∉ w.joinReturns
  notHalted : w.halted = none

/-- The clients' side: only the joiner of `j` calls `bmk_sched_join` on `j`, and only once; and a thread
    blocks nobody but itself, as every caller of `bmk_sched_block` does. -/
def JoinOnce (joiner : Tid → Option Tid) (w : World) : Event → Prop
  | .join j => joiner j = some w.currentThread ∧ (w.currentThread, j) ∉ w.joinCalls
  | .block t => t = w.currentThread
  | _ => True

/-- The invariant of the handshake. -/
structure Handshake (joiner : Tid → Option Tid) (w : World) : Prop where
  known : ∀ j k, joiner j = some k → j < w.created
  gate : ∀ j k, joiner j = some k → AtGate w j → (w.tcb j).flags.joined = true ∧ j ∈ w.exitCalls
  reached : ∀ j k, joiner j = some k → (w.tcb j).flags.joined = true → j ∈ w.exitCalls
  waiting : ∀ k j, InJoin w k j → joiner j = some k ∧ (w.tcb j).flags.mustjoin = true ∧
    ⟨k, j⟩ ∈ w.joinwq ∧ (k, j) ∈ w.joinCalls ∧ k < w.created
  /-- A joiner does not sleep on once its thread has set `THREAD_JOINED`. -/
  awake : ∀ k j, InJoin w k j → (w.tcb j).flags.joined = true → isRunnable w.tcb k = true
  queued : ∀ jw ∈ w.joinwq, InJoin w jw.jwThread jw.jwWanted
  queueOnce : w.joinwq.Nodup
  notYet : ∀ j k, joiner j = some k →
    (w.tcb j).flags.mustjoin = true ∨ (k, j) ∈ w.joinReturns
  returned : ∀ j k k', joiner j = some k → (k', j) ∈ w.joinReturns →
    (w.tcb j).flags.joined = true ∧ k' = k ∧ (k, j) ∈ w.joinCalls
  gone : ∀ j k, joiner j = some k → j ∈ w.zombies ∨ j ∈ w.freedThreads →
    (w.tcb j).flags.mustjoin = false
  asserted : w.halted ≠ some .mustjoin

variable {joiner : Tid → Option Tid} {w : World}

theorem HandshakeStart.handshake (h : HandshakeStart joiner w) : Handshake joiner w where
  known := fun j k hj => (h.lifeCycle.mem_iff_created j).mp (Or.inl (h.onThreads j k hj))
  gate := fun j k hj hgate => absurd hgate (h.notAtGate j k hj)
  reached := by
    intro j k hj hjoined
    rw [(h.flags j k hj).2.1] at hjoined
    cases hjoined
  waiting := by
    intro k j hk
    obtain ⟨hjoiner, hrest⟩ := h.waiting k j hk
    exact ⟨hjoiner, (h.flags j k hjoiner).1, hrest⟩
  awake := by
    intro k j hk hjoined
    rw [(h.flags j k (h.waiting k j hk).1).2.1] at hjoined
    cases hjoined
  queued := h.queued
  queueOnce := h.queueOnce
  notYet := fun j k hj => Or.inl (h.flags j k hj).1
  returned := fun j k k' hj hret => absurd hret (h.noReturns j k k' hj)
  gone := by
    intro j k hj hgone
    rcases hgone with hz | hf
    · exact absurd hz (h.lifeCycle.threads_not_zombie (h.onThreads j k hj))
    · exact absurd hf (h.lifeCycle.threads_not_freed (h.onThreads j k hj))
  asserted := by simp [h.notHalted]

namespace Handshake

/-- A change of run states that leaves the waiting joiners runnable. -/
theorem setTcb (h : Handshake joiner w) {tcb : Tcbs Tid}
    (same : ∀ t, SameButRunState (w.tcb t) (tcb t))
    (wakes : ∀ k j, InJoin w k j → isRunnable w.tcb k = true → isRunnable tcb k = true) :
    Handshake joiner { w with tcb := tcb } where
  known := h.known
  gate := by
    intro j k hj hgate
    rw [(same j).joined]
    exact h.gate j k hj hgate
  reached := by
    intro j k hj hjoined
    rw [(same j).joined] at hjoined
    exact h.reached j k hj hjoined
  waiting := by
    intro k j hk
    rw [(same j).mustjoin]
    exact h.waiting k j hk
  awake := by
    intro k j hk hjoined
    rw [(same j).joined] at hjoined
    exact wakes k j hk (h.awake k j hk hjoined)
  queued := h.queued
  queueOnce := h.queueOnce
  notYet := by
    intro j k hj
    rw [(same j).mustjoin]
    exact h.notYet j k hj
  returned := by
    intro j k k' hj hret
    rw [(same j).joined]
    exact h.returned j k k' hj hret
  gone := by
    intro j k hj hgone
    rw [(same j).mustjoin]
    exact h.gone j k hj hgone
  asserted := h.asserted

/-- A thread that is not inside `bmk_sched_join` goes somewhere that is neither the gate nor
    `bmk_sched_join`. -/
theorem setFrame (h : Handshake joiner w) {t : Tid} {f : Frame} (out : ∀ j, ¬ InJoin w t j)
    (into : ∀ prev caller, f = .sched prev caller → caller = .other ∨ caller = .exitFinal) :
    Handshake joiner { w with frame := Function.update w.frame t f } := by
  have hgate : ∀ j, AtGate { w with frame := Function.update w.frame t f } j → AtGate w j := by
    rintro j ⟨prev, hframe⟩
    by_cases heq : j = t
    · subst heq
      simp only [Function.update_self] at hframe
      rcases into _ _ hframe with hc | hc <;> cases hc
    · simp only [Function.update_of_ne heq] at hframe
      exact ⟨prev, hframe⟩
  have hjoin : ∀ k j, InJoin { w with frame := Function.update w.frame t f } k j ↔ InJoin w k j := by
    intro k j
    by_cases heq : k = t
    · subst heq
      constructor
      · rintro ⟨prev, hframe⟩
        simp only [Function.update_self] at hframe
        rcases into _ _ hframe with hc | hc <;> cases hc
      · intro hk
        exact absurd hk (out j)
    · simp only [InJoin, Function.update_of_ne heq]
  exact
    { known := h.known
      gate := fun j k hj hat => h.gate j k hj (hgate j hat)
      reached := h.reached
      waiting := fun k j hk => h.waiting k j ((hjoin k j).mp hk)
      awake := fun k j hk => h.awake k j ((hjoin k j).mp hk)
      queued := fun jw hjw => (hjoin _ _).mpr (h.queued jw hjw)
      queueOnce := h.queueOnce
      notYet := h.notYet
      returned := h.returned
      gone := h.gone
      asserted := h.asserted }

/-- The joiner of `j` that `bmk_sched_exit` finds on the queue is the one that waits. -/
theorem find_joiner (h : Handshake joiner w) {k j : Tid} (hk : InJoin w k j) :
    w.joinwq.find? (fun jw => jw.jwWanted = j) = some ⟨k, j⟩ := by
  have hmem := (h.waiting k j hk).2.2.1
  cases hfind : w.joinwq.find? fun jw => jw.jwWanted = j with
  | none =>
      have hnone := List.find?_eq_none.mp hfind _ hmem
      simp at hnone
  | some jw =>
      have hwanted : jw.jwWanted = j := by simpa using List.find?_some hfind
      have hqueued := h.queued jw (List.mem_of_find?_eq_some hfind)
      rw [hwanted] at hqueued
      have hsame := (h.waiting _ j hqueued).1
      rw [(h.waiting k j hk).1, Option.some.injEq] at hsame
      obtain ⟨jwThread, jwWanted⟩ := jw
      simp only at hwanted hsame
      rw [hwanted, hsame]

end Handshake

/-! ### The two loops -/

/-- What the gate does to the control blocks: `THREAD_JOINED` of the exiting thread is set, its joiner
    is awake, and no other thread is put to sleep. -/
theorem gate_tcb (h : Handshake joiner w) (out : ∀ j, ¬ InJoin w w.currentThread j) {tcb : Tcbs Tid}
    (htcb : tcb = bmkSchedBlock (wakeJoiner (w.setFlags w.currentThread
      fun flags => { flags with joined := true }) w.currentThread).tcb w.currentThread) :
    (∀ t, (tcb t).flags.mustjoin = (w.tcb t).flags.mustjoin) ∧
    (∀ t, (tcb t).flags.joined = true ↔ t = w.currentThread ∨ (w.tcb t).flags.joined = true) ∧
    (∀ k j, InJoin w k j → j = w.currentThread ∨ isRunnable w.tcb k = true →
      isRunnable tcb k = true) := by
  obtain ⟨tcb', heq, hsame⟩ := wakeJoiner_eq
    (w.setFlags w.currentThread fun flags => { flags with joined := true }) w.currentThread
  have hall : ∀ t, SameButRunState
      (RumpBaremetal.setFlags w.tcb w.currentThread (fun flags => { flags with joined := true }) t)
      (tcb t) := by
    intro t
    rw [htcb, heq]
    exact (hsame t).trans (.block _ _ t)
  refine ⟨fun t => ?_, fun t => ?_, ?_⟩
  · rw [(hall t).mustjoin]
    by_cases ht : t = w.currentThread
    · subst ht
      simp
    · rw [setFlags_of_ne _ ht]
  · rw [(hall t).joined]
    by_cases ht : t = w.currentThread
    · subst ht
      simp
    · rw [setFlags_of_ne _ ht]
      simp [ht]
  · intro k j hk hwhy
    have hne : k ≠ w.currentThread := by
      rintro rfl
      exact out j hk
    have hkeep : isRunnable w.tcb k = true →
        isRunnable (w.setFlags w.currentThread fun flags => { flags with joined := true }).tcb k
          = true := by
      intro hrun
      simp only [isRunnable, World.setFlags, setFlags_of_ne _ hne]
      exact hrun
    rw [htcb, isRunnable_block]
    refine ⟨hne, ?_⟩
    rcases hwhy with rfl | hrun
    · have hfind : (w.setFlags w.currentThread fun flags => { flags with joined := true }).joinwq.find?
          (fun jw => jw.jwWanted = w.currentThread) = some ⟨k, w.currentThread⟩ := h.find_joiner hk
      simp only [wakeJoiner, hfind]
      simp
    · unfold wakeJoiner
      split
      · rw [isRunnable_wake]
        exact Or.inr (hkeep hrun)
      · exact hkeep hrun

/-- The gate is closed: the exiting thread waits with `THREAD_JOINED` set. -/
theorem exitGate_handshake (h : Handshake joiner w) (out : ∀ j, ¬ InJoin w w.currentThread j)
    (hexit : ∀ k, joiner w.currentThread = some k → w.currentThread ∈ w.exitCalls) {tcb : Tcbs Tid}
    (hmust : ∀ t, (tcb t).flags.mustjoin = (w.tcb t).flags.mustjoin)
    (hjoined : ∀ t, (tcb t).flags.joined = true ↔
      t = w.currentThread ∨ (w.tcb t).flags.joined = true)
    (hrun : ∀ k j, InJoin w k j → j = w.currentThread ∨ isRunnable w.tcb k = true →
      isRunnable tcb k = true) :
    Handshake joiner (enterSched { w with tcb := tcb } .exitGate) := by
  -- only the exiting thread changes its place, and it was not inside `bmk_sched_join`
  have hjoin : ∀ k j, InJoin (enterSched { w with tcb := tcb } .exitGate) k j ↔ InJoin w k j := by
    intro k j
    by_cases hk : k = w.currentThread
    · subst hk
      constructor
      · rintro ⟨prev, hframe⟩
        simp [enterSched] at hframe
      · intro hk
        exact absurd hk (out j)
    · simp only [InJoin, enterSched, Function.update_of_ne hk]
  exact
    { known := h.known
      gate := by
        rintro j k hj ⟨prev, hframe⟩
        by_cases hcur : j = w.currentThread
        · subst hcur
          exact ⟨(hjoined _).mpr (Or.inl rfl), hexit k hj⟩
        · simp only [enterSched, Function.update_of_ne hcur] at hframe
          have hold := h.gate j k hj ⟨prev, hframe⟩
          exact ⟨(hjoined j).mpr (Or.inr hold.1), hold.2⟩
      reached := by
        intro j k hj hset
        rcases (hjoined j).mp hset with rfl | hold
        · exact hexit k hj
        · exact h.reached j k hj hold
      waiting := by
        intro k j hk
        have hold := h.waiting k j ((hjoin k j).mp hk)
        exact ⟨hold.1, (hmust j).trans hold.2.1, hold.2.2⟩
      awake := by
        intro k j hk hset
        have hk' := (hjoin k j).mp hk
        refine hrun k j hk' ?_
        rcases (hjoined j).mp hset with hj | hold
        · exact Or.inl hj
        · exact Or.inr (h.awake k j hk' hold)
      queued := fun jw hjw => (hjoin _ _).mpr (h.queued jw hjw)
      queueOnce := h.queueOnce
      notYet := by
        intro j k hj
        rcases h.notYet j k hj with hset | hret
        · exact Or.inl ((hmust j).trans hset)
        · exact Or.inr hret
      returned := by
        intro j k k' hj hret
        have hold := h.returned j k k' hj hret
        exact ⟨(hjoined j).mpr (Or.inr hold.1), hold.2⟩
      gone := fun j k hj hgone => (hmust j).trans (h.gone j k hj hgone)
      asserted := h.asserted }

/-- The gate is open: the exiting thread goes to the zombies, with `THREAD_MUSTJOIN` clear. -/
theorem exitFinal_handshake (h : Handshake joiner w) (out : ∀ j, ¬ InJoin w w.currentThread j)
    (hclear : ¬ (w.tcb w.currentThread).flags.mustjoin = true) :
    Handshake joiner (enterSched { w with
      threads := w.threads.erase w.currentThread
      tcb := clearRunnable w.tcb w.currentThread
      zombies := w.currentThread :: w.zombies } .exitFinal) := by
  have hdone := (h.setTcb (SameButRunState.clearRunnable w.tcb w.currentThread) (by
    intro k j hk hrun
    have hne : k ≠ w.currentThread := by
      rintro rfl
      exact out j hk
    simp only [isRunnable, clearRunnable, setFlags_of_ne _ hne]
    exact hrun)).setFrame (f := .sched w.currentThread .exitFinal) out (by
      intro prev caller heq
      cases heq
      exact Or.inr rfl)
  refine ⟨hdone.known, hdone.gate, hdone.reached, hdone.waiting, hdone.awake, hdone.queued,
    hdone.queueOnce, hdone.notYet, hdone.returned, ?_, hdone.asserted⟩
  intro j k hj hgone
  by_cases hcur : j = w.currentThread
  · subst hcur
    simpa [enterSched, clearRunnable, RumpBaremetal.setFlags] using hclear
  · refine hdone.gone j k hj ?_
    rcases hgone with hz | hf
    · exact Or.inl (List.mem_of_ne_of_mem hcur hz)
    · exact Or.inr hf

theorem exitLoop_handshake (h : Handshake joiner w) (out : ∀ j, ¬ InJoin w w.currentThread j)
    (hexit : ∀ k, joiner w.currentThread = some k → w.currentThread ∈ w.exitCalls) :
    Handshake joiner (exitLoop w) := by
  unfold exitLoop
  dsimp only
  split
  · obtain ⟨tcb', heq, -⟩ := wakeJoiner_eq
      (w.setFlags w.currentThread fun flags => { flags with joined := true }) w.currentThread
    obtain ⟨hmust, hjoined, hrun⟩ := gate_tcb h out rfl
    rw [heq] at hmust hjoined hrun ⊢
    exact exitGate_handshake h out hexit hmust hjoined hrun
  · rename_i hclear
    exact exitFinal_handshake h out hclear

/-- The joiner of `j` is not inside `bmk_sched_join`, so nobody waits for `j`. -/
theorem Handshake.nobody_waits (h : Handshake joiner w) {j : Tid}
    (out : ∀ i, ¬ InJoin w w.currentThread i) (hjoiner : joiner j = some w.currentThread)
    {k i : Tid} (hk : InJoin w k i) : i ≠ j := by
  rintro rfl
  have hwaits := (h.waiting k i hk).1
  rw [hjoiner, Option.some.injEq] at hwaits
  exact out i (hwaits ▸ hk)

/-- The end of `bmk_sched_join`: the joiner has seen `THREAD_JOINED` and opens the gate. -/
theorem joinReturn_handshake (h : Handshake joiner w) {j : Tid}
    (out : ∀ i, ¬ InJoin w w.currentThread i) (hjoiner : joiner j = some w.currentThread)
    (hcalled : (w.currentThread, j) ∈ w.joinCalls) (hset : (w.tcb j).flags.joined = true) :
    Handshake joiner { w with
      tcb := bmkSchedWake (RumpBaremetal.setFlags w.tcb j
        fun flags => { flags with mustjoin := false }) j
      frame := Function.update w.frame w.currentThread .user
      joinReturns := (w.currentThread, j) :: w.joinReturns } := by
  have hleft := h.setFrame (f := .user) out (by intro prev caller heq; cases heq)
  have hsame := SameButRunState.wake (RumpBaremetal.setFlags w.tcb j
    fun flags => { flags with mustjoin := false }) j
  have hrun : ∀ k, isRunnable w.tcb k = true → isRunnable (bmkSchedWake (RumpBaremetal.setFlags w.tcb j
      fun flags => { flags with mustjoin := false }) j) k = true := by
    intro k hk
    rw [isRunnable_wake]
    by_cases hkj : k = j
    · exact Or.inl hkj
    · exact Or.inr (by rwa [isRunnable, setFlags_of_ne _ hkj])
  generalize bmkSchedWake (RumpBaremetal.setFlags w.tcb j
    fun flags => { flags with mustjoin := false }) j = tcb at hsame hrun
  have hjoined : ∀ t, (tcb t).flags.joined = (w.tcb t).flags.joined := by
    intro t
    rw [(hsame t).joined]
    by_cases ht : t = j
    · subst ht
      simp
    · rw [setFlags_of_ne _ ht]
  have hmust : ∀ t, t ≠ j → (tcb t).flags.mustjoin = (w.tcb t).flags.mustjoin := by
    intro t ht
    rw [(hsame t).mustjoin, setFlags_of_ne _ ht]
  have hopen : (tcb j).flags.mustjoin = false := by
    rw [(hsame j).mustjoin]
    simp
  exact
    { known := hleft.known
      gate := by
        intro i k hi hat
        show (tcb i).flags.joined = true ∧ i ∈ w.exitCalls
        rw [hjoined i]
        exact hleft.gate i k hi hat
      reached := fun i k hi hset => hleft.reached i k hi (hjoined i ▸ hset)
      waiting := by
        intro k i hk
        have hold := hleft.waiting k i hk
        have hne : i ≠ j := hleft.nobody_waits (by rintro i ⟨prev, hf⟩; simp at hf) hjoiner hk
        exact ⟨hold.1, (hmust i hne).trans hold.2.1, hold.2.2⟩
      awake := fun k i hk hset => hrun k (hleft.awake k i hk (hjoined i ▸ hset))
      queued := hleft.queued
      queueOnce := hleft.queueOnce
      notYet := by
        intro i k hi
        by_cases hij : i = j
        · subst hij
          rw [hjoiner, Option.some.injEq] at hi
          exact Or.inr (hi ▸ List.mem_cons_self)
        · rcases hleft.notYet i k hi with hold | hret
          · exact Or.inl ((hmust i hij).trans hold)
          · exact Or.inr (List.mem_cons_of_mem _ hret)
      returned := by
        intro i k k' hi hret
        rcases List.mem_cons.mp hret with heq | hret
        · cases heq
          rw [hjoiner, Option.some.injEq] at hi
          exact ⟨(hjoined j).trans hset, hi, hi ▸ hcalled⟩
        · have hold := hleft.returned i k k' hi hret
          exact ⟨(hjoined i).trans hold.1, hold.2⟩
      gone := by
        intro i k hi hgone
        by_cases hij : i = j
        · exact hij ▸ hopen
        · exact (hmust i hij).trans (hleft.gone i k hi hgone)
      asserted := hleft.asserted }

/-- The body of the loop of `bmk_sched_join`: the joiner queues its record and sleeps. -/
theorem joinSleep_handshake (h : Handshake joiner w) {j : Tid}
    (out : ∀ i, ¬ InJoin w w.currentThread i) (hjoiner : joiner j = some w.currentThread)
    (hmust : (w.tcb j).flags.mustjoin = true) (hcalled : (w.currentThread, j) ∈ w.joinCalls)
    (hcreated : w.currentThread < w.created) (hclear : (w.tcb j).flags.joined = false) :
    Handshake joiner (enterSched { w with
      joinwq := w.joinwq ++ [⟨w.currentThread, j⟩]
      tcb := bmkSchedBlock w.tcb w.currentThread } (.join j)) := by
  have hjoin : ∀ k i, InJoin (enterSched { w with
      joinwq := w.joinwq ++ [⟨w.currentThread, j⟩]
      tcb := bmkSchedBlock w.tcb w.currentThread } (.join j)) k i ↔
      InJoin w k i ∨ (k = w.currentThread ∧ i = j) := by
    intro k i
    by_cases hk : k = w.currentThread
    · subst hk
      simp [InJoin, enterSched] at out ⊢
      simp [out, eq_comm]
    · simp [InJoin, enterSched, hk]
  have hnew : (⟨w.currentThread, j⟩ : JoinWaiter) ∉ w.joinwq := fun hmem =>
    out j (h.queued _ hmem)
  have hblock := SameButRunState.block w.tcb w.currentThread
  exact
    { known := h.known
      gate := by
        rintro i k hi ⟨prev, hframe⟩
        have hne : i ≠ w.currentThread := by
          rintro rfl
          simp [enterSched] at hframe
        simp only [enterSched, Function.update_of_ne hne] at hframe
        show (bmkSchedBlock w.tcb w.currentThread i).flags.joined = true ∧ i ∈ w.exitCalls
        rw [(hblock i).joined]
        exact h.gate i k hi ⟨prev, hframe⟩
      reached := fun i k hi hset => h.reached i k hi ((hblock i).joined ▸ hset)
      waiting := by
        intro k i hk
        rcases (hjoin k i).mp hk with hold | ⟨rfl, rfl⟩
        · obtain ⟨h1, h2, h3, h4⟩ := h.waiting k i hold
          exact ⟨h1, (hblock i).mustjoin.trans h2, List.mem_append_left _ h3, h4⟩
        · exact ⟨hjoiner, (hblock _).mustjoin.trans hmust, List.mem_append_right _ (by simp),
            hcalled, hcreated⟩
      awake := by
        intro k i hk hset
        rw [show (enterSched _ (.join j)).tcb = bmkSchedBlock w.tcb w.currentThread from rfl,
          (hblock i).joined] at hset
        rcases (hjoin k i).mp hk with hold | ⟨rfl, rfl⟩
        · refine (isRunnable_block w.tcb w.currentThread k).mpr ⟨?_, h.awake k i hold hset⟩
          rintro rfl
          exact out i hold
        · rw [hclear] at hset
          cases hset
      queued := by
        intro jw hjw
        rcases List.mem_append.mp hjw with hold | hlast
        · exact (hjoin _ _).mpr (Or.inl (h.queued jw hold))
        · rw [List.mem_singleton.mp hlast]
          exact (hjoin _ _).mpr (Or.inr ⟨rfl, rfl⟩)
      queueOnce := List.nodup_append.mpr ⟨h.queueOnce, List.nodup_singleton _, by
        intro a ha b hb
        rw [List.mem_singleton.mp hb]
        rintro rfl
        exact hnew ha⟩
      notYet := by
        intro i k hi
        rcases h.notYet i k hi with hold | hret
        · exact Or.inl ((hblock i).mustjoin.trans hold)
        · exact Or.inr hret
      returned := by
        intro i k k' hi hret
        have hold := h.returned i k k' hi hret
        exact ⟨(hblock i).joined.trans hold.1, hold.2⟩
      gone := fun i k hi hgone => (hblock i).mustjoin.trans (h.gone i k hi hgone)
      asserted := h.asserted }

theorem joinLoop_handshake (h : Handshake joiner w) {j : Tid}
    (out : ∀ i, ¬ InJoin w w.currentThread i) (hjoiner : joiner j = some w.currentThread)
    (hmust : (w.tcb j).flags.mustjoin = true) (hcalled : (w.currentThread, j) ∈ w.joinCalls)
    (hcreated : w.currentThread < w.created) : Handshake joiner (joinLoop w j) := by
  unfold joinLoop
  dsimp only
  split
  · rename_i hset
    exact joinReturn_handshake h out hjoiner hcalled hset
  · rename_i hclear
    exact joinSleep_handshake h out hjoiner hmust hcalled hcreated (by simpa using hclear)

/-! ### The other functions -/

/-- The joiner has come back from `bmk_sched` and takes its record off the queue. -/
theorem leaveQueue_handshake (h : Handshake joiner w) {prev j : Tid}
    (hframe : w.frame w.currentThread = .sched prev (.join j)) :
    Handshake joiner { w with
      joinwq := w.joinwq.erase ⟨w.currentThread, j⟩
      frame := Function.update w.frame w.currentThread .user } := by
  have hjoin : ∀ k i, InJoin { w with
      joinwq := w.joinwq.erase ⟨w.currentThread, j⟩
      frame := Function.update w.frame w.currentThread .user } k i →
      k ≠ w.currentThread ∧ InJoin w k i := by
    rintro k i ⟨prev', hk⟩
    have hne : k ≠ w.currentThread := by
      rintro rfl
      simp at hk
    simp only [Function.update_of_ne hne] at hk
    exact ⟨hne, prev', hk⟩
  exact
    { known := h.known
      gate := by
        rintro i k hi ⟨prev', hat⟩
        have hne : i ≠ w.currentThread := by
          rintro rfl
          simp at hat
        simp only [Function.update_of_ne hne] at hat
        exact h.gate i k hi ⟨prev', hat⟩
      reached := h.reached
      waiting := by
        intro k i hk
        obtain ⟨hne, hold⟩ := hjoin k i hk
        obtain ⟨h1, h2, h3, h4⟩ := h.waiting k i hold
        refine ⟨h1, h2, (List.mem_erase_of_ne ?_).mpr h3, h4⟩
        rintro heq
        cases heq
        exact hne rfl
      awake := fun k i hk => h.awake k i (hjoin k i hk).2
      queued := by
        intro jw hjw
        rw [h.queueOnce.mem_erase_iff] at hjw
        obtain ⟨prev', hold⟩ := h.queued jw hjw.2
        have hne : jw.jwThread ≠ w.currentThread := by
          intro heq
          rw [heq, hframe] at hold
          injection hold with _ hcaller
          injection hcaller with hwanted
          refine hjw.1 ?_
          rw [← heq, hwanted]
        exact ⟨prev', by simpa only [Function.update_of_ne hne] using hold⟩
      queueOnce := h.queueOnce.erase _
      notYet := h.notYet
      returned := h.returned
      gone := h.gone
      asserted := h.asserted }

/-- A new thread is none of those the handshake is about. -/
theorem addThread_handshake (h : Handshake joiner w) {tcb : Tcbs Tid}
    (others : ∀ t, t ≠ w.created → tcb t = w.tcb t) :
    Handshake joiner { w with
      tcb := tcb
      threads := w.created :: w.threads
      frame := Function.update w.frame w.created .fresh
      created := w.created + 1 } := by
  have hframe : ∀ {t prev caller}, Function.update w.frame w.created .fresh t = .sched prev caller →
      t ≠ w.created ∧ w.frame t = .sched prev caller := by
    intro t prev caller ht
    have hne : t ≠ w.created := by
      rintro rfl
      simp at ht
    exact ⟨hne, by simpa only [Function.update_of_ne hne] using ht⟩
  have hold : ∀ j k, joiner j = some k → tcb j = w.tcb j := fun j k hj =>
    others j (Nat.ne_of_lt (h.known j k hj))
  exact
    { known := fun j k hj => Nat.lt_succ_of_lt (h.known j k hj)
      gate := by
        rintro j k hj ⟨prev, hat⟩
        show (tcb j).flags.joined = true ∧ j ∈ w.exitCalls
        rw [hold j k hj]
        exact h.gate j k hj ⟨prev, (hframe hat).2⟩
      reached := fun j k hj hset => h.reached j k hj (hold j k hj ▸ hset)
      waiting := by
        rintro k j ⟨prev, hk⟩
        obtain ⟨h1, h2, h3, h4, h5⟩ := h.waiting k j ⟨prev, (hframe hk).2⟩
        exact ⟨h1, (congrArg (·.flags.mustjoin) (hold j k h1)).trans h2, h3, h4, Nat.lt_succ_of_lt h5⟩
      awake := by
        rintro k j ⟨prev, hk⟩ hset
        obtain ⟨hne, hk⟩ := hframe hk
        have hjoiner := (h.waiting k j ⟨prev, hk⟩).1
        show (tcb k).flags.runnable = true
        rw [others k hne]
        exact h.awake k j ⟨prev, hk⟩ (hold j k hjoiner ▸ hset)
      queued := by
        intro jw hjw
        obtain ⟨prev, hk⟩ := h.queued jw hjw
        have hlt := (h.waiting _ _ ⟨prev, hk⟩).2.2.2.2
        exact ⟨prev, by simpa only [Function.update_of_ne (Nat.ne_of_lt hlt)] using hk⟩
      queueOnce := h.queueOnce
      notYet := by
        intro j k hj
        show (tcb j).flags.mustjoin = true ∨ (k, j) ∈ w.joinReturns
        rw [hold j k hj]
        exact h.notYet j k hj
      returned := by
        intro j k k' hj hret
        obtain ⟨h1, h2⟩ := h.returned j k k' hj hret
        exact ⟨(congrArg (·.flags.joined) (hold j k hj)).trans h1, h2⟩
      gone := by
        intro j k hj hgone
        show (tcb j).flags.mustjoin = false
        rw [hold j k hj]
        exact h.gone j k hj hgone
      asserted := h.asserted }

theorem bmkSchedCreate_handshake (h : Handshake joiner w) (thrflags : Int) (stackBase : Option Nat)
    (stackSize : Nat) : Handshake joiner (bmkSchedCreate w thrflags stackBase stackSize) := by
  have hothers : ∀ (b : BmkThread) t, t ≠ w.created →
      setRunnable (Function.update w.tcb w.created b) w.created t = w.tcb t := by
    intro b t ht
    rw [setRunnable, setFlags_of_ne _ ht, Function.update_of_ne ht]
  unfold bmkSchedCreate
  cases stackBase with
  | none =>
      dsimp only
      split
      · exact ⟨h.known, h.gate, h.reached, h.waiting, h.awake, h.queued, h.queueOnce, h.notYet,
          h.returned, h.gone, by simp⟩
      · exact addThread_handshake h (hothers _)
  | some base => exact addThread_handshake h (hothers _)

/-- Threads change lists and the processor changes hands, but no exited thread comes from nowhere. -/
theorem Handshake.relist (h : Handshake joiner w) {threads zombies freedThreads : List Tid}
    {freedStacks : List Stack} {currentThread : Tid}
    (moved : ∀ t, t ∈ zombies ∨ t ∈ freedThreads → t ∈ w.zombies ∨ t ∈ w.freedThreads) :
    Handshake joiner { w with
      threads := threads, zombies := zombies, freedThreads := freedThreads
      freedStacks := freedStacks, currentThread := currentThread } :=
  ⟨h.known, h.gate, h.reached, h.waiting, h.awake, h.queued, h.queueOnce, h.notYet, h.returned,
    fun j k hj hgone => h.gone j k hj (moved j hgone), h.asserted⟩

theorem bmkSchedJoin_handshake (h : Handshake joiner w) (hexec : Executing w)
    (out : ∀ i, ¬ InJoin w w.currentThread i) {j : Tid} (hjoiner : joiner j = some w.currentThread)
    (honce : (w.currentThread, j) ∉ w.joinCalls) : Handshake joiner (bmkSchedJoin w j) := by
  have hmust : (w.tcb j).flags.mustjoin = true := by
    rcases h.notYet j _ hjoiner with hset | hret
    · exact hset
    · exact absurd (h.returned j _ _ hjoiner hret).2.2 honce
  have hcreated : w.currentThread < w.created :=
    (hexec.mem_iff_created _).mp (Or.inl hexec.running)
  have hnoted : Handshake joiner { w with joinCalls := (w.currentThread, j) :: w.joinCalls } := by
    refine ⟨h.known, h.gate, h.reached, ?_, h.awake, h.queued, h.queueOnce, h.notYet, ?_, h.gone,
      h.asserted⟩
    · intro k i hk
      obtain ⟨h1, h2, h3, h4, h5⟩ := h.waiting k i hk
      exact ⟨h1, h2, h3, List.mem_cons_of_mem _ h4, h5⟩
    · intro i k k' hi hret
      obtain ⟨h1, h2, h3⟩ := h.returned i k k' hi hret
      exact ⟨h1, h2, List.mem_cons_of_mem _ h3⟩
  unfold bmkSchedJoin
  dsimp only
  rw [if_pos hmust]
  exact joinLoop_handshake hnoted out hjoiner hmust List.mem_cons_self hcreated

/-- The return of `bmk_sched`, by who called it. -/
theorem resumeCaller_handshake (h : Handshake joiner w) {prev : Tid} {caller : Caller}
    (hframe : w.frame w.currentThread = .sched prev caller) :
    Handshake joiner (resumeCaller w caller) := by
  have hout : (∀ j, caller ≠ .join j) → ∀ j, ¬ InJoin w w.currentThread j := by
    rintro hne j ⟨prev', hj⟩
    rw [hframe] at hj
    injection hj with _ hcaller
    exact hne j hcaller
  cases caller with
  | other =>
      exact h.setFrame (hout (by simp)) (by intro prev caller heq; cases heq)
  | exitGate =>
      exact exitLoop_handshake h (hout (by simp)) fun k hk => (h.gate _ k hk ⟨prev, hframe⟩).2
  | exitFinal =>
      apply h.setFrame (hout (by simp))
      intro prev caller heq
      cases heq
      exact Or.inr rfl
  | join j =>
      have hleft := leaveQueue_handshake h hframe
      obtain ⟨hjoiner, hmust, -, hcalled, hcreated⟩ := h.waiting _ j ⟨prev, hframe⟩
      have hloop := joinLoop_handshake hleft (by rintro i ⟨prev, hi⟩; simp at hi) hjoiner hmust
        hcalled hcreated
      -- `joinLoop` sets the frame of the running thread in both branches
      have heq : joinLoop { w with
          joinwq := w.joinwq.erase ⟨w.currentThread, j⟩
          frame := Function.update w.frame w.currentThread .user } j
          = joinLoop { w with joinwq := w.joinwq.erase ⟨w.currentThread, j⟩ } j := by
        simp only [joinLoop, enterSched, World.setFlags, Function.update_idem]
      rw [heq] at hloop
      exact hloop

theorem resume_handshake (h : Handshake joiner w) (hexec : Executing w) :
    Handshake joiner (resume w) := by
  unfold resume
  split
  · rename_i hframe
    apply h.setFrame
    · rintro j ⟨prev, hj⟩
      rw [hframe] at hj
      cases hj
    · intro prev caller heq
      cases heq
  · exact h
  · rename_i prev caller hframe
    have hmoved := reaper_moves hexec.toPlaced prev
    obtain ⟨zombies, freedStacks, freedThreads, heq⟩ := reaper_eq prev w
    rw [heq] at hmoved ⊢
    exact resumeCaller_handshake (h.relist hmoved) hframe

theorem pass_handshake (h : Handshake joiner w) (hlife : LifeCycle w) (tm : Int) :
    Handshake joiner (pass tm w) := by
  unfold pass
  split
  · rename_i tcb hscan
    obtain ⟨hsame, hkeep, -⟩ := scan_spec tm w.threads w.tcb tcb none hscan
    exact h.setTcb hsame fun k _ _ => hkeep k
  · rename_i tcb next hscan
    obtain ⟨hsame, hkeep, -⟩ := scan_spec tm w.threads w.tcb tcb (some next) hscan
    refine resume_handshake ?_ (dispatched_executing hlife hscan)
    exact (h.setTcb hsame fun k _ _ => hkeep k).relist fun _ ht => ht

/-! ### Runs of the handshake -/

theorem not_inJoin_of_calls (hcalls : w.calls = true) (j : Tid) : ¬ InJoin w w.currentThread j := by
  rintro ⟨prev, hframe⟩
  simp [World.calls, hframe] at hcalls

theorem handshake_step {w' : World} {e : Event} (hlife : LifeCycle w) (h : Handshake joiner w)
    (honce : JoinOnce joiner w e) (hstep : step w e = some w') : Handshake joiner w' := by
  obtain ⟨-, henabled, rfl⟩ := step_inv hstep
  cases e with
  | create thrflags stackBase stackSize =>
      exact bmkSchedCreate_handshake h thrflags stackBase stackSize
  | exit =>
      have hnoted : Handshake joiner { w with exitCalls := w.currentThread :: w.exitCalls } :=
        ⟨h.known, fun j k hj hat => ⟨(h.gate j k hj hat).1,
            List.mem_cons_of_mem _ (h.gate j k hj hat).2⟩,
          fun j k hj hset => List.mem_cons_of_mem _ (h.reached j k hj hset), h.waiting, h.awake,
          h.queued, h.queueOnce, h.notYet, h.returned, h.gone, h.asserted⟩
      exact exitLoop_handshake hnoted (not_inJoin_of_calls henabled) fun _ _ => List.mem_cons_self
  | join j =>
      exact bmkSchedJoin_handshake h (.ofCalls hlife henabled) (not_inJoin_of_calls henabled)
        honce.1 honce.2
  | sched =>
      apply h.setFrame (not_inJoin_of_calls henabled)
      intro prev caller heq
      cases heq
      exact Or.inl rfl
  | block t =>
      obtain rfl : t = w.currentThread := honce
      apply h.setTcb (SameButRunState.block w.tcb w.currentThread)
      intro k j hk hrun
      refine (isRunnable_block w.tcb w.currentThread k).mpr ⟨?_, hrun⟩
      rintro rfl
      exact not_inJoin_of_calls henabled j hk
  | setwakeup t abstime =>
      apply h.setTcb fun u => .setwakeup w.tcb t u abstime
      intro k j _ hrun
      by_cases hk : k = t
      · subst hk
        simpa [isRunnable, bmkSchedSetwakeup] using hrun
      · simpa [isRunnable, bmkSchedSetwakeup, hk] using hrun
  | nanosleep now nsec =>
      refine (h.setTcb (fun u =>
        (SameButRunState.setwakeup w.tcb w.currentThread u ((now + nsec).bmod (2 ^ 64))).trans
          (.clearRunnable _ w.currentThread u)) ?_).setFrame (not_inJoin_of_calls henabled) ?_
      · intro k j hk hrun
        have hne : k ≠ w.currentThread := by
          rintro rfl
          exact not_inJoin_of_calls henabled j hk
        rw [isRunnable, clearRunnable, setFlags_of_ne _ hne, bmkSchedSetwakeup,
          Function.update_of_ne hne]
        exact hrun
      · intro prev caller heq
        cases heq
        exact Or.inl rfl
  | wake t =>
      apply h.setTcb (SameButRunState.wake w.tcb t)
      intro k j _ hrun
      exact (isRunnable_wake w.tcb t k).mpr (Or.inr hrun)
  | pass tm => exact pass_handshake h hlife tm

/-- The handshake as its two sides see it. -/
structure HandshakeSound (joiner : Tid → Option Tid) (w : World) : Prop where
  noEarlyZombie : ∀ j k, joiner j = some k → j ∈ w.zombies ∨ j ∈ w.freedThreads →
    (w.tcb j).flags.mustjoin = false ∧ (k, j) ∈ w.joinReturns
  noEarlyReturn : ∀ j k k', joiner j = some k → (k', j) ∈ w.joinReturns →
    k' = k ∧ j ∈ w.exitCalls ∧ (w.tcb j).flags.joined = true
  noDeadlock : ∀ j k, AtGate w j → (w.tcb j).flags.mustjoin = true → isRunnable w.tcb j = false →
    InJoin w k j → isRunnable w.tcb k = true
  /-- A record on the queue belongs to a thread that is at this moment inside `bmk_sched_join`. -/
  noDangling : ∀ jw ∈ w.joinwq, InJoin w jw.jwThread jw.jwWanted
  recordOnce : w.joinwq.Nodup
  asserted : w.halted ≠ some .mustjoin

theorem Handshake.sound (h : Handshake joiner w) : HandshakeSound joiner w where
  noEarlyZombie := by
    intro j k hj hgone
    have hopen := h.gone j k hj hgone
    refine ⟨hopen, ?_⟩
    rcases h.notYet j k hj with hset | hret
    · rw [hopen] at hset
      cases hset
    · exact hret
  noEarlyReturn := by
    intro j k k' hj hret
    obtain ⟨hset, heq, -⟩ := h.returned j k k' hj hret
    exact ⟨heq, h.reached j k hj hset, hset⟩
  noDeadlock := fun j k hgate _ _ hk =>
    h.awake k j hk (h.gate j k (h.waiting k j hk).1 hgate).1
  noDangling := h.queued
  recordOnce := h.queueOnce
  asserted := h.asserted

/-- From any state with `THREAD_MUSTJOIN` set and `THREAD_JOINED` clear in the threads to be joined, in
    every run in which each of them is joined by its own joiner, once, exit and join meet. -/
theorem exit_join_handshake {joiner : Tid → Option Tid} {w0 w : World} {events : List Event}
    (start : HandshakeStart joiner w0) (hmeets : Meets step (JoinOnce joiner) w0 events)
    (hrun : run step w0 events = some w) : HandshakeSound joiner w := by
  have hinv : LifeCycle w ∧ Handshake joiner w :=
    run_invariant_of_meets (I := fun w => LifeCycle w ∧ Handshake joiner w)
      (fun _ _ _ h honce hstep => ⟨lifeCycle_step h.1 hstep, handshake_step h.1 h.2 honce hstep⟩)
      ⟨start.lifeCycle, start.handshake⟩ hmeets hrun
  exact hinv.2.sound

/-- `init_thread` and one other thread, with `THREAD_MUSTJOIN` set by hand. -/
def oneJoinable : World :=
  (bmkSchedCreate bmkSchedInit 0 none 0).setFlags 1 fun flags => { flags with mustjoin := true }

/-- `init_thread` is the joiner of thread 1. -/
def initJoins (j : Tid) : Option Tid := if j = 1 then some 0 else none

theorem oneJoinable_start : HandshakeStart initJoins oneJoinable := by
  have hcreated : LifeCycle (bmkSchedCreate bmkSchedInit 0 none 0) :=
    bmkSchedCreate_lifeCycle (.ofCalls lifeCycle_init rfl) 0 none 0
  have hone : ∀ {j k}, initJoins j = some k → j = 1 ∧ k = 0 := by
    intro j k hj
    unfold initJoins at hj
    split at hj
    · rename_i heq
      exact ⟨heq, (Option.some.inj hj).symm⟩
    · cases hj
  have hframe : ∀ t prev caller, oneJoinable.frame t ≠ .sched prev caller := by
    intro t prev caller
    by_cases ht : t = 1
    · subst ht
      simp [oneJoinable, World.setFlags, bmkSchedCreate, bmkSchedInit]
    · simp [oneJoinable, World.setFlags, bmkSchedCreate, bmkSchedInit, ht]
  refine
    { lifeCycle := ((Executing.ofCalls hcreated rfl).setFlags 1
        (f := fun flags => { flags with mustjoin := true }) fun _ => rfl).lifeCycle
      flags := ?_
      onThreads := ?_
      notAtGate := ?_
      waiting := ?_
      queued := by simp [oneJoinable, World.setFlags, bmkSchedCreate, bmkSchedInit]
      queueOnce := List.nodup_nil
      noReturns := by simp [oneJoinable, World.setFlags, bmkSchedCreate, bmkSchedInit]
      notHalted := rfl }
  · intro j k hj
    obtain ⟨rfl, rfl⟩ := hone hj
    exact ⟨rfl, rfl, by decide⟩
  · intro j k hj
    obtain ⟨rfl, rfl⟩ := hone hj
    exact List.mem_cons_self
  · intro j k _ hgate
    obtain ⟨prev, hat⟩ := hgate
    exact hframe j prev _ hat
  · intro k j hk
    obtain ⟨prev, hat⟩ := hk
    exact absurd hat (hframe k prev _)

/-- The joiner comes first and sleeps, the thread exits, the joiner opens the gate, and the thread is
    reaped. -/
theorem exit_join_handshake_one :
    ∃ w, run step oneJoinable [.join 1, .pass 0, .exit, .pass 0, .sched, .pass 0, .pass 0] = some w ∧
      w.joinReturns = [(0, 1)] ∧ w.freedThreads = [1] ∧ HandshakeSound initJoins w :=
  ⟨_, rfl, rfl, rfl, @exit_join_handshake _ _ _
    [.join 1, .pass 0, .exit, .pass 0, .sched, .pass 0, .pass 0] oneJoinable_start
    (.cons ⟨rfl, List.not_mem_nil⟩ rfl (.cons trivial rfl (.cons trivial rfl (.cons trivial rfl
      (.cons trivial rfl (.cons trivial rfl (.cons trivial rfl trivial))))))) rfl⟩

/-! ### The flag is never set -/

/-- No thread has `THREAD_MUSTJOIN` set. -/
def NoMustjoin (w : World) : Prop := ∀ t, (w.tcb t).flags.mustjoin = false

namespace NoMustjoin

theorem setTcb (h : NoMustjoin w) {tcb : Tcbs Tid} (same : ∀ t, SameButRunState (w.tcb t) (tcb t)) :
    NoMustjoin { w with tcb := tcb } := by
  intro t
  rw [(same t).mustjoin]
  exact h t

theorem setFlags (h : NoMustjoin w) (t : Tid) {f : Flags → Flags}
    (keep : ∀ flags, flags.mustjoin = false → (f flags).mustjoin = false) :
    NoMustjoin (w.setFlags t f) := by
  intro u
  by_cases hu : u = t
  · subst hu
    simp only [World.setFlags, setFlags_self]
    exact keep _ (h u)
  · simp only [World.setFlags, setFlags_of_ne _ hu]
    exact h u

theorem create (h : NoMustjoin w) (thrflags : Int) (stackBase : Option Nat) (stackSize : Nat) :
    NoMustjoin (bmkSchedCreate w thrflags stackBase stackSize) := by
  -- the new control block is zeroed, and only `THREAD_EXTSTACK` and `THREAD_RUNNABLE` are set in it
  have hnew : ∀ b : BmkThread, b.flags.mustjoin = false → ∀ t,
      (setRunnable (Function.update w.tcb w.created b) w.created t).flags.mustjoin = false := by
    intro b hb t
    by_cases ht : t = w.created
    · subst ht
      simpa [setRunnable] using hb
    · rw [setRunnable, setFlags_of_ne _ ht, Function.update_of_ne ht]
      exact h t
  unfold bmkSchedCreate
  cases stackBase with
  | none =>
      dsimp only
      split
      · exact h
      · exact hnew _ rfl
  | some base => exact hnew _ rfl

theorem exitLoop (h : NoMustjoin w) : NoMustjoin (exitLoop w) := by
  unfold Sched.exitLoop
  dsimp only
  rw [if_neg (by simp [h w.currentThread])]
  exact h.setTcb (SameButRunState.clearRunnable w.tcb w.currentThread)

theorem joinLoop (h : NoMustjoin w) (joinable : Tid) : NoMustjoin (joinLoop w joinable) := by
  unfold Sched.joinLoop
  dsimp only
  split
  · exact (h.setFlags joinable fun _ _ => rfl).setTcb (SameButRunState.wake _ joinable)
  · exact h.setTcb (SameButRunState.block w.tcb w.currentThread)

theorem resumeCaller (h : NoMustjoin w) (caller : Caller) : NoMustjoin (resumeCaller w caller) := by
  cases caller with
  | other => exact h
  | exitGate => exact h.exitLoop
  | exitFinal => exact h
  | join joinable =>
      exact joinLoop (w := { w with joinwq := w.joinwq.erase ⟨w.currentThread, joinable⟩ }) h joinable

theorem resume (h : NoMustjoin w) : NoMustjoin (resume w) := by
  unfold Sched.resume
  split
  · exact h
  · exact h
  · rename_i prev caller _
    obtain ⟨zombies, freedStacks, freedThreads, heq⟩ := reaper_eq prev w
    rw [heq]
    apply resumeCaller
    exact h

theorem pass (h : NoMustjoin w) (tm : Int) : NoMustjoin (pass tm w) := by
  unfold Sched.pass
  split
  · rename_i tcb hscan
    exact h.setTcb (scan_spec tm w.threads w.tcb tcb none hscan).1
  · rename_i tcb next hscan
    have hscanned := h.setTcb (scan_spec tm w.threads w.tcb tcb (some next) hscan).1
    exact resume hscanned

theorem step {w' : World} {e : Event} (h : NoMustjoin w) (hstep : step w e = some w') :
    NoMustjoin w' := by
  obtain ⟨-, -, rfl⟩ := step_inv hstep
  cases e with
  | create thrflags stackBase stackSize => exact h.create thrflags stackBase stackSize
  | exit => exact exitLoop (w := { w with exitCalls := w.currentThread :: w.exitCalls }) h
  | join joinable =>
      unfold effect bmkSchedJoin
      dsimp only
      rw [if_neg (by simp [h joinable])]
      exact h
  | sched => exact h
  | block t => exact h.setTcb (SameButRunState.block w.tcb t)
  | setwakeup t abstime => exact h.setTcb fun u => .setwakeup w.tcb t u abstime
  | nanosleep now nsec =>
      exact h.setTcb fun u =>
        (SameButRunState.setwakeup w.tcb w.currentThread u ((now + nsec).bmod (2 ^ 64))).trans
          (.clearRunnable _ w.currentThread u)
  | wake t => exact h.setTcb (SameButRunState.wake w.tcb t)
  | pass tm => exact h.pass tm

theorem init : NoMustjoin bmkSchedInit := by
  intro t
  by_cases ht : t = 0
  · subst ht
    rfl
  · rw [show bmkSchedInit.tcb = setRunnable (fun _ => {}) 0 from rfl, setRunnable,
      setFlags_of_ne _ ht]

end NoMustjoin

/-- What the hypercall layer promises about a thread that was created as joinable and is joined. -/
structure JoinContract (w : World) (thread : Tid) : Prop where
  asserted : w.halted ≠ some .mustjoin
  noEarlyZombie : thread ∈ w.zombies ∨ thread ∈ w.freedThreads → ∃ k, (k, thread) ∈ w.joinReturns
  noEarlyReturn : ∀ k, (k, thread) ∈ w.joinReturns → thread ∈ w.exitCalls

/-- In no run can a thread that `rumpuser_thread_create` made joinable be joined: whatever happens before
    and after its creation, the contract is broken as soon as `rumpuser_thread_join` is called.  A thread
    that has not exited yet makes the assertion of `bmk_sched_join` fail, and the machine stops there. -/
theorem rumpuser_join_never_holds {before after : List Event} {w0 w w' : World} {joinable : Int}
    (hbefore : run step bmkSchedInit before = some w0) (_hjoinable : joinable ≠ 0)
    (hafter : run step w0 (rumpuserThreadCreate joinable :: after) = some w)
    (hjoin : step w (rumpuserThreadJoin w0.created) = some w') :
    ¬ JoinContract w' w0.created ∧
      (w0.created ∈ w.threads → w'.halted = some .mustjoin ∧ ∀ e, step w' e = none) := by
  have hclear0 : NoMustjoin w0 := run_invariant (fun _ _ _ h => h.step) .init hbefore
  have hclear : NoMustjoin w := run_invariant (fun _ _ _ h => h.step) hclear0 hafter
  obtain ⟨-, -, rfl⟩ := step_inv hjoin
  have hhalt : (effect w (rumpuserThreadJoin w0.created)).halted = some .mustjoin := by
    unfold rumpuserThreadJoin effect bmkSchedJoin
    dsimp only
    rw [if_neg (by simp [hclear w0.created])]
  refine ⟨fun h => h.asserted hhalt, fun _ => ⟨hhalt, fun e => ?_⟩⟩
  simp [step, hhalt]

/-- The new thread has run and given up the processor when it is joined. -/
theorem rumpuser_join_never_holds_once :
    ∃ w w', run step bmkSchedInit [rumpuserThreadCreate 1, .sched, .pass 0, .sched, .pass 0] = some w ∧
      step w (rumpuserThreadJoin 1) = some w' ∧ ¬ JoinContract w' 1 ∧
      (1 ∈ w.threads → w'.halted = some .mustjoin ∧ ∀ e, step w' e = none) :=
  ⟨_, _, rfl, rfl, @rumpuser_join_never_holds [] [.sched, .pass 0, .sched, .pass 0] _ _ _ 1 rfl
    (by decide) rfl rfl⟩

/-- A joinable thread is created and joined at once, and the contract is broken. -/
theorem rumpuser_join_fails :
    ∃ w, run step bmkSchedInit [rumpuserThreadCreate 1, rumpuserThreadJoin 1] = some w ∧
      w.joinCalls = [(0, 1)] ∧ ¬ JoinContract w 1 := by
  refine ⟨_, rfl, rfl, ?_⟩
  intro h
  exact h.asserted rfl

end RumpBaremetal.Sched
