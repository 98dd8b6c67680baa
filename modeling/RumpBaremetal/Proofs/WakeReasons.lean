/-
Module: RumpBaremetal.Proofs.WakeReasons
Layer: Proofs
Purpose: Why a sleeper wakes.  A record that is still queued when `bmk_sched` returns is taken for a
  timeout, so everything that makes a blocked thread runnable is followed: the wakeups, which dequeue; the
  scan, when the time has come; and an interrupt, which wakes its thread wherever that thread is blocked.
Trusted boundary: none (fully proved)
Main exports: deadline_due, Asleep, Sleeper, WaitOk, QueuesOk, returned_cases, advance_inv, WaitInv,
  undisturbed, ReturnOk, sleepers_wake_for_a_reason, interrupt_ends_wait
-/
import RumpBaremetal.Proofs.Alone

namespace RumpBaremetal

open StepSystem Sched

/-! ### Wakeup times -/

/-- A wakeup time that did not overflow is reached only when the clock has come there. -/
theorem deadline_due {now nsec clock : Nat} (hsmall : now + nsec < 2 ^ 64) (hset : 0 ≤ deadline now nsec)
    (hreached : deadline now nsec ≤ bmkClockNow clock) : now + nsec ≤ clock := by
  unfold deadline at hset hreached
  unfold bmkClockNow at hreached
  rw [Int.bmod_def] at hset hreached
  rw [Int.bmod_def] at hreached
  split at hset <;> split at hreached <;> omega

/-- The wakeup time of a sleeper, which is `-1` for none. -/
def sleepTime (nsec : UInt64) (now : Nat) : Int := if nsec = 0 then -1 else deadline now nsec.toNat

/-- The clock has reached the time that was asked for. -/
def Due (clock : Nat) (nsec : UInt64) (now : Nat) : Prop := nsec ≠ 0 ∧ now + nsec.toNat ≤ clock

/-- The control block of a thread that sleeps. -/
structure Asleep (b : BmkThread) (nsec : UInt64) (now : Nat) : Prop where
  blocked : b.flags.runnable = false
  wakeup : b.wakeupTime = sleepTime nsec now
  small : nsec ≠ 0 → now + nsec.toNat < 2 ^ 64

theorem Asleep.due_of_eligible {tcb : Tcbs Tid} {t : Tid} {nsec : UInt64} {now clock : Nat}
    (h : Asleep (tcb t) nsec now) (helig : eligible (bmkClockNow clock) tcb t = true) :
    Due clock nsec now := by
  simp only [eligible, isRunnable, h.blocked, Bool.false_or, decide_eq_true_eq, h.wakeup] at helig
  obtain ⟨hset, hreached⟩ := helig
  unfold sleepTime at hset hreached
  by_cases hnsec : nsec = 0
  · rw [if_pos hnsec] at hset
    exact absurd hset (by decide)
  · rw [if_neg hnsec] at hset hreached
    exact ⟨hnsec, deadline_due (h.small hnsec) hset hreached⟩

/-! ### Threads inside `wait` -/

variable {Wh Fun Arg : Type*} {w w' : Node Wh Fun Arg} {t : Tid} {wh : Wh} {nsec : UInt64}
  {stage : WaitStage} {now : Nat}

/-- A thread whose record is on the queue. -/
def Sleeper (w : Node Wh Fun Arg) (t : Tid) (nsec : UInt64) (now : Nat) : WaitStage → Prop
  | .queued => True
  | .blocked => (w.sched.tcb t).flags.runnable = false ∧ (w.sched.tcb t).wakeupTime = -1
  | .timed => Asleep (w.sched.tcb t) nsec now
  | .asleep =>
      (Asleep (w.sched.tcb t) nsec now ∧ w.sched.frame t ≠ .user) ∨
        (Due w.clock nsec now ∧ w.sched.frame t = .user)

structure WaitOk (w : Node Wh Fun Arg) (t : Tid) (wh : Wh) (nsec : UInt64) (stage : WaitStage) (now : Nat) :
    Prop where
  created : t < w.sched.created
  frame : w.sched.frame t = .user ∨ stage = .asleep ∧ ∃ prev, w.sched.frame t = .sched prev .other
  dequeued : w.onlist t = false → (wh, w.serial t) ∈ w.dequeued
  sleeper : w.onlist t = true → Sleeper w t nsec now stage

theorem Due.mono {clock clock' : Nat} (h : Due clock nsec now) (hle : clock ≤ clock') :
    Due clock' nsec now :=
  ⟨h.1, h.2.trans hle⟩

/-- Whatever happens elsewhere. -/
theorem WaitOk.aside (h : WaitOk w t wh nsec stage now) (haside : Aside w w' t)
    (hclock : w.clock ≤ w'.clock) (hcreated : w.sched.created ≤ w'.sched.created)
    (hdequeued : w.dequeued ⊆ w'.dequeued) :
    WaitOk w' t wh nsec stage now := by
  obtain ⟨⟨htcb, hframe⟩, -, honlist, hserial⟩ := haside
  refine ⟨h.created.trans_le hcreated, ?_, ?_, ?_⟩
  · rw [hframe]
    exact h.frame
  · rw [honlist, hserial]
    exact fun hoff => hdequeued (h.dequeued hoff)
  · rw [honlist]
    intro hon
    have hold := h.sleeper hon
    cases stage with
    | queued => trivial
    | blocked =>
        simp only [Sleeper, htcb]
        exact hold
    | timed =>
        simp only [Sleeper, htcb]
        exact hold
    | asleep =>
        simp only [Sleeper, htcb, hframe]
        exact hold.imp id fun hdue => ⟨hdue.1.mono hclock, hdue.2⟩

/-- The records on the queues are those of threads inside `wait`. -/
structure QueuesOk (w : Node Wh Fun Arg) : Prop where
  member : ∀ wh t, t ∈ w.waithead wh → w.onlist t = true ∧
    ∃ nsec stage now, w.call t = some (.wait wh nsec stage now)
  once : ∀ wh, (w.waithead wh).Nodup

/-- A return of `wait` for one of its reasons: `0` after a wakeup has dequeued the call, `ETIMEDOUT` after
    its time. -/
def ReturnOk (dequeued : List (Wh × Nat)) (r : WaitReturn Wh) : Prop :=
  (r.timedOut = false → (r.wh, r.serial) ∈ dequeued) ∧ (r.timedOut = true → Due r.clock r.nsec r.now)

structure WaitInv (w : Node Wh Fun Arg) : Prop where
  sched : Detached w.sched ∧ LifeCycle w.sched
  waits : ∀ t wh nsec stage now, w.call t = some (.wait wh nsec stage now) → WaitOk w t wh nsec stage now
  queues : QueuesOk w
  returned : ∀ r ∈ w.returned, ReturnOk w.dequeued r

variable [DecidableEq Wh] {s : Stubs} {e : NodeEvent Wh Fun Arg}

/-! ### The queues -/

namespace QueuesOk

omit [DecidableEq Wh] in
/-- A thread that is not inside `wait` is on no queue. -/
theorem not_queued (h : QueuesOk w)
    (hout : ∀ wh nsec stage now, w.call t ≠ some (.wait wh nsec stage now)) (wh : Wh) :
    t ∉ w.waithead wh := by
  intro hmem
  obtain ⟨-, nsec, stage, now, hcall⟩ := h.member wh t hmem
  exact hout wh nsec stage now hcall

omit [DecidableEq Wh] in
/-- A thread inside `wait` is on the queue of its own wait head, if on any. -/
theorem site (h : QueuesOk w) {wh₁ : Wh} (hmem : t ∈ w.waithead wh₁)
    (hcall : w.call t = some (.wait wh nsec stage now)) : wh₁ = wh := by
  obtain ⟨-, nsec₁, stage₁, now₁, hthere⟩ := h.member wh₁ t hmem
  rw [hcall, Option.some.injEq, Call.wait.injEq] at hthere
  exact hthere.1.symm

omit [DecidableEq Wh] in
/-- The queues are as they were, and who was inside `wait` still is. -/
theorem congr (h : QueuesOk w) (hwaithead : w'.waithead = w.waithead) (honlist : w'.onlist = w.onlist)
    (hcall : ∀ t wh nsec stage now, w.call t = some (.wait wh nsec stage now) →
      ∃ nsec' stage' now', w'.call t = some (.wait wh nsec' stage' now')) : QueuesOk w' := by
  refine ⟨fun wh t hmem => ?_, fun wh => ?_⟩
  · rw [hwaithead] at hmem
    obtain ⟨hon, nsec, stage, now, hthere⟩ := h.member wh t hmem
    rw [honlist]
    exact ⟨hon, hcall t wh nsec stage now hthere⟩
  · rw [hwaithead]
    exact h.once wh

/-- The running thread makes a call that is not `wait`. -/
theorem ofCall (h : QueuesOk w) (henabled : nodeEnabled w e = true) (he : e.ofRunning = true)
    (hne : e ≠ .advance) (hwaithead : (nodeEffect s w e).waithead = w.waithead)
    (honlist : (nodeEffect s w e).onlist = w.onlist) :
    QueuesOk (nodeEffect s w e) := by
  refine h.congr hwaithead honlist fun t wh nsec stage now hcall => ⟨nsec, stage, now, ?_⟩
  have ht : t ≠ w.sched.currentThread := by
    rintro rfl
    rw [(ofRunning_inv henabled he).2.resolve_left hne] at hcall
    cases hcall
  rw [running_call he ht]
  exact hcall

theorem enter (h : QueuesOk w) (hnone : w.call w.sched.currentThread = none) (wh : Wh) (nsec : UInt64) :
    QueuesOk (waitEnter w wh nsec) := by
  have hout : ∀ wh', w.sched.currentThread ∉ w.waithead wh' := h.not_queued (by simp [hnone])
  refine ⟨fun wh' t hmem => ?_, fun wh' => ?_⟩
  · by_cases ht : t = w.sched.currentThread
    · subst ht
      by_cases hwh : wh' = wh
      · subst hwh
        simp [waitEnter, Node.setCall]
      · simp only [waitEnter, Function.update_of_ne hwh] at hmem
        exact absurd hmem (hout wh')
    · have hold : t ∈ w.waithead wh' := by
        by_cases hwh : wh' = wh
        · subst hwh
          simpa [waitEnter, ht] using hmem
        · simpa [waitEnter, Function.update_of_ne hwh] using hmem
      simp only [waitEnter, Node.setCall, Function.update_of_ne ht]
      exact h.member wh' t hold
  · by_cases hwh : wh' = wh
    · subst hwh
      simp only [waitEnter, Function.update_self]
      exact List.nodup_append.mpr ⟨h.once wh', List.nodup_singleton _, fun a ha b hb heq =>
        hout wh' (List.mem_singleton.mp hb ▸ heq ▸ ha)⟩
    · simp only [waitEnter, Function.update_of_ne hwh]
      exact h.once wh'

/-- The second half of `wait` leaves the running thread on no queue. -/
theorem waitEnd_queues (h : QueuesOk w)
    (hcall : w.call w.sched.currentThread = some (.wait wh nsec stage now)) (wh₁ : Wh) :
    ((waitEnd w.fibers wh).waithead wh₁).Sublist (w.waithead wh₁) ∧
      w.sched.currentThread ∉ (waitEnd w.fibers wh).waithead wh₁ := by
  by_cases hwh : wh₁ = wh
  · subst hwh
    by_cases hon : w.onlist w.sched.currentThread = true
    · simp only [waitEnd, Node.fibers, hon, if_true, Function.update_self]
      exact ⟨List.erase_sublist, (h.once wh₁).not_mem_erase⟩
    · simp only [waitEnd, Node.fibers, hon, Bool.false_eq_true, if_false]
      exact ⟨List.Sublist.refl _, fun hmem => hon (h.member wh₁ _ hmem).1⟩
  · have hsame : (waitEnd w.fibers wh).waithead wh₁ = w.waithead wh₁ := by
      unfold waitEnd
      split
      · exact Function.update_of_ne hwh _ _
      · rfl
    rw [hsame]
    exact ⟨List.Sublist.refl _, fun hmem => hwh (h.site hmem hcall)⟩

/-- The running thread goes on inside a call: it comes to the next stage, or it leaves. -/
theorem advance (h : QueuesOk w) : QueuesOk (RumpBaremetal.advance w) := by
  have hothers : ∀ {t c}, t ≠ w.sched.currentThread →
      Function.update w.call w.sched.currentThread c t = w.call t :=
    fun ht => Function.update_of_ne ht _ _
  have hstage : ∀ {w' : Node Wh Fun Arg} {wh nsec stage now stage' now'},
      w.call w.sched.currentThread = some (.wait wh nsec stage now) → w'.waithead = w.waithead →
      w'.onlist = w.onlist → w'.call = w.call →
      QueuesOk (w'.setCall w.sched.currentThread (some (.wait wh nsec stage' now'))) := by
    intro w' wh nsec stage now stage' now' hcall hwaithead honlist hcalls
    refine h.congr hwaithead honlist fun t wh₁ nsec₁ stage₁ now₁ hthere => ?_
    by_cases ht : t = w.sched.currentThread
    · subst ht
      rw [hcall, Option.some.injEq, Call.wait.injEq] at hthere
      obtain ⟨rfl, -⟩ := hthere
      exact ⟨nsec, stage', now', Function.update_self _ _ _⟩
    · refine ⟨nsec₁, stage₁, now₁, ?_⟩
      simp only [Node.setCall, Function.update_of_ne ht, hcalls]
      exact hthere
  simp only [RumpBaremetal.advance]
  split
  · rename_i hcall
    exact hstage hcall rfl rfl rfl
  · rename_i hcall
    split
    · exact hstage hcall rfl rfl rfl
    · exact hstage hcall rfl rfl rfl
  · rename_i hcall
    exact hstage hcall rfl rfl rfl
  · rename_i wh nsec now hcall
    have honlist : (waitEnd w.fibers wh).onlist = w.onlist := by
      unfold waitEnd
      split <;> rfl
    refine ⟨fun wh₁ t hmem => ?_, fun wh₁ => (h.once wh₁).sublist (h.waitEnd_queues hcall wh₁).1⟩
    have ht : t ≠ w.sched.currentThread := fun hcurrent => (h.waitEnd_queues hcall wh₁).2 (hcurrent ▸ hmem)
    simp only [Node.setCall, Node.setFibers, honlist, hothers ht]
    exact h.member wh₁ t ((h.waitEnd_queues hcall wh₁).1.subset hmem)
  · rename_i hcall
    refine h.congr rfl rfl fun t wh nsec stage now hthere => ⟨nsec, stage, now, ?_⟩
    have ht : t ≠ w.sched.currentThread := by
      rintro rfl
      rw [hcall] at hthere
      cases hthere
    exact (hothers ht).trans hthere
  · exact h

/-- A wakeup dequeues from the front of one queue. -/
theorem takeOff (h : QueuesOk w) {taken rest : List Tid} (hqueue : w.waithead wh = taken ++ rest) :
    QueuesOk (w.takeOff wh taken rest) := by
  have honce := h.once wh
  rw [hqueue] at honce
  refine ⟨fun wh₁ t hmem => ?_, fun wh₁ => ?_⟩
  · -- what is left on a queue was not taken
    have hleft : t ∈ w.waithead wh₁ ∧ t ∉ taken := by
      by_cases hwh : wh₁ = wh
      · subst hwh
        simp only [Node.takeOff, Function.update_self] at hmem
        rw [hqueue]
        exact ⟨List.mem_append_right _ hmem, fun ht => (List.nodup_append.mp honce).2.2 t ht t hmem rfl⟩
      · simp only [Node.takeOff, Function.update_of_ne hwh] at hmem
        refine ⟨hmem, fun ht => hwh ?_⟩
        obtain ⟨-, nsec, stage, now, hcall⟩ :=
          h.member wh t (by rw [hqueue]; exact List.mem_append_left _ ht)
        exact h.site hmem hcall
    simp only [Node.takeOff, if_neg hleft.2]
    exact h.member wh₁ t hleft.1
  · by_cases hwh : wh₁ = wh
    · subst hwh
      simp only [Node.takeOff, Function.update_self]
      exact (List.nodup_append.mp honce).2.1
    · simp only [Node.takeOff, Function.update_of_ne hwh]
      exact h.once wh₁

theorem step (h : QueuesOk w) (hstep : nodeStep s w e = some w') : QueuesOk w' := by
  obtain ⟨-, henabled, rfl⟩ := nodeStep_inv hstep
  cases e with
  | irq which => exact ⟨h.member, h.once⟩
  | tick cycles => exact ⟨h.member, h.once⟩
  | isr rv =>
      exact h.ofCall henabled rfl (by simp) (isrStep_sameWaits w rv).waithead
        (isrStep_sameWaits w rv).onlist
  | wait wh nsec => exact h.enter (mayCall_inv henabled).2 wh nsec
  | advance => exact h.advance
  | wakeupOne wh =>
      rw [wakeupOne_takeOff]
      exact h.takeOff (head_append_tail _)
  | wakeupAll wh =>
      rw [wakeupAll_takeOff]
      exact h.takeOff (List.append_nil _).symm
  | nanosleep nsec => exact h.ofCall henabled rfl (by simp) rfl rfl
  | thread e => exact h.ofCall henabled rfl (by simp) rfl rfl
  | netinit func arg intr found =>
      refine h.ofCall henabled rfl (by simp) ?_ ?_
      · simp only [nodeEffect]
        split <;> rfl
      · simp only [nodeEffect]
        split <;> rfl
  | pass => exact ⟨h.member, h.once⟩

omit [DecidableEq Wh] in
theorem start (intr : IntrWorld Fun Arg) (clock : Nat) :
    QueuesOk (Node.start intr clock : Node Wh Fun Arg) :=
  ⟨fun _ _ hmem => absurd hmem List.not_mem_nil, fun _ => List.nodup_nil⟩

end QueuesOk

/-! ### What a step leaves on record -/

/-- Time goes on, and a call that was dequeued stays so. -/
theorem node_mono (hstep : nodeStep s w e = some w') : w.clock ≤ w'.clock ∧ w.dequeued ⊆ w'.dequeued := by
  obtain ⟨-, -, rfl⟩ := nodeStep_inv hstep
  cases e with
  | tick cycles => exact ⟨Nat.le_add_right _ _, List.Subset.refl _⟩
  | isr rv =>
      exact ⟨(isrStep_sameWaits w rv).clock.ge, fun _ hx => (isrStep_sameWaits w rv).dequeued.symm ▸ hx⟩
  | advance =>
      simp only [nodeEffect, advance]
      split
      · exact ⟨le_rfl, List.Subset.refl _⟩
      · split <;> exact ⟨le_rfl, List.Subset.refl _⟩
      all_goals exact ⟨le_rfl, List.Subset.refl _⟩
  | wakeupOne wh => exact ⟨le_rfl, List.subset_append_right _ _⟩
  | wakeupAll wh => exact ⟨le_rfl, List.subset_append_right _ _⟩
  | netinit func arg intr found =>
      simp only [nodeEffect]
      split <;> exact ⟨le_rfl, List.Subset.refl _⟩
  | _ => exact ⟨le_rfl, List.Subset.refl _⟩

/-- A call of `wait` returns in its last step only. -/
theorem returned_cases (hstep : nodeStep s w e = some w') :
    w'.returned = w.returned ∨ e = .advance ∧ ∃ wh nsec now,
      w.call w.sched.currentThread = some (.wait wh nsec .asleep now) ∧
      w'.returned = ⟨w.serial w.sched.currentThread, wh, nsec, now, w.onlist w.sched.currentThread,
        w.clock⟩ ::
        w.returned := by
  obtain ⟨-, -, rfl⟩ := nodeStep_inv hstep
  cases e with
  | isr rv => exact .inl (isrStep_sameWaits w rv).returned
  | advance =>
      simp only [nodeEffect, advance]
      split
      · exact .inl rfl
      · split <;> exact .inl rfl
      · exact .inl rfl
      · rename_i wh nsec now hcall
        exact .inr ⟨trivial, wh, nsec, now, hcall, rfl⟩
      · exact .inl rfl
      · exact .inl rfl
  | netinit func arg intr found =>
      simp only [nodeEffect]
      split <;> exact .inl rfl
  | _ => exact .inl rfl

/-- A step of the running thread inside `wait`, from one stage to the next. -/
inductive WaitMove (w w' : Node Wh Fun Arg) (nsec : UInt64) : WaitStage → Nat → WaitStage → Nat → Prop where
  | block {now : Nat} (after : w'.sched = effect w.sched (.block w.sched.currentThread)) :
      WaitMove w w' nsec .queued now .blocked now
  | arm {now : Nat} (timeout : nsec ≠ 0)
      (after : w'.sched = effect w.sched (.setwakeup w.sched.currentThread (deadline w.clock nsec.toNat))) :
      WaitMove w w' nsec .blocked now .timed w.clock
  | noTimeout {now : Nat} (none : nsec = 0) (after : w'.sched = w.sched) :
      WaitMove w w' nsec .blocked now .timed now
  | sleep {now : Nat} (after : w'.sched = effect w.sched .sched) : WaitMove w w' nsec .timed now .asleep now

/-- A thread that is inside `wait` after a step of its own was so before, at the stage in front. -/
theorem advance_inv (henabled : nodeEnabled w .advance = true)
    (hcall' : (nodeEffect s w .advance).call w.sched.currentThread = some (.wait wh nsec stage now)) :
    ((nodeEffect s w .advance).onlist = w.onlist ∧ (nodeEffect s w .advance).serial = w.serial ∧
      (nodeEffect s w .advance).dequeued = w.dequeued) ∧
    ∃ stage₀ now₀, w.call w.sched.currentThread = some (.wait wh nsec stage₀ now₀) ∧
      WaitMove w (nodeEffect s w .advance) nsec stage₀ now₀ stage now := by
  simp only [nodeEnabled, Bool.and_eq_true] at henabled
  simp only [nodeEffect, advance] at hcall' ⊢
  split at hcall'
  · rename_i wh₀ nsec₀ now₀ hcall
    simp only [Node.setCall, Function.update_self, Option.some.injEq, Call.wait.injEq] at hcall'
    obtain ⟨rfl, rfl, rfl, rfl⟩ := hcall'
    exact ⟨⟨rfl, rfl, rfl⟩, .queued, now₀, hcall, .block rfl⟩
  · rename_i wh₀ nsec₀ now₀ hcall
    split at hcall'
    · rename_i hnsec
      simp only [Node.setCall, Function.update_self, Option.some.injEq, Call.wait.injEq] at hcall'
      obtain ⟨rfl, rfl, rfl, rfl⟩ := hcall'
      rw [if_pos hnsec]
      exact ⟨⟨rfl, rfl, rfl⟩, .blocked, now₀, hcall, .arm hnsec rfl⟩
    · rename_i hnsec
      simp only [Node.setCall, Function.update_self, Option.some.injEq, Call.wait.injEq] at hcall'
      obtain ⟨rfl, rfl, rfl, rfl⟩ := hcall'
      rw [if_neg hnsec]
      exact ⟨⟨rfl, rfl, rfl⟩, .blocked, now₀, hcall, .noTimeout (not_not.mp hnsec) rfl⟩
  · rename_i wh₀ nsec₀ now₀ hcall
    simp only [Node.setCall, Function.update_self, Option.some.injEq, Call.wait.injEq] at hcall'
    obtain ⟨rfl, rfl, rfl, rfl⟩ := hcall'
    exact ⟨⟨rfl, rfl, rfl⟩, .timed, now₀, hcall, .sleep rfl⟩
  · simp only [Node.setCall, Function.update_self] at hcall'
    cases hcall'
  · simp only [Node.setCall, Function.update_self] at hcall'
    cases hcall'
  · rename_i hnone
    rw [hnone] at henabled
    cases henabled.2

/-- A thread that comes to be inside `wait` is the running one; a thread that was stays where it is unless
    it is. -/
theorem node_call (hstep : nodeStep s w e = some w')
    (hother : ¬ (t = w.sched.currentThread ∧ e.ofRunning = true)) :
    w'.call t = w.call t := by
  obtain ⟨-, -, rfl⟩ := nodeStep_inv hstep
  by_cases he : e.ofRunning = true
  · exact running_call he fun ht => hother ⟨ht, he⟩
  · cases e with
    | irq which => rfl
    | tick cycles => rfl
    | wakeupOne wh => rfl
    | wakeupAll wh => rfl
    | pass => rfl
    | _ => exact absurd rfl he

/-- How a thread comes to be inside `wait` by a step of its own. -/
inductive WaitEntry (w w' : Node Wh Fun Arg) (wh : Wh) (nsec : UInt64) :
    NodeEvent Wh Fun Arg → WaitStage → Nat → Prop where
  | enter (calls : w.mayCall = true) (after : w' = waitEnter w wh nsec) :
      WaitEntry w w' wh nsec (.wait wh nsec) .queued 0
  | goesOn {stage : WaitStage} {now : Nat} : WaitEntry w w' wh nsec .advance stage now

theorem running_wait_inv (hstep : nodeStep s w e = some w') (he : e.ofRunning = true)
    (hcall' : w'.call w.sched.currentThread = some (.wait wh nsec stage now)) :
    WaitEntry w w' wh nsec e stage now := by
  obtain ⟨-, henabled, rfl⟩ := nodeStep_inv hstep
  have hnone := (ofRunning_inv henabled he).2
  cases e with
  | isr rv =>
      rw [nodeEffect, (isrStep_sameWaits w rv).call, hnone.resolve_left (by simp)] at hcall'
      cases hcall'
  | wait wh₁ nsec₁ =>
      simp only [nodeEffect, waitEnter, Node.setCall, Function.update_self, Option.some.injEq,
        Call.wait.injEq] at hcall'
      obtain ⟨rfl, rfl, rfl, rfl⟩ := hcall'
      exact .enter henabled rfl
  | advance => exact .goesOn
  | nanosleep nsec₁ =>
      simp only [nodeEffect, Node.setCall, Function.update_self] at hcall'
      cases hcall'
  | thread e =>
      simp only [nodeEffect, Node.does, hnone.resolve_left (by simp)] at hcall'
      cases hcall'
  | netinit func arg intr found =>
      simp only [nodeEffect] at hcall'
      split at hcall' <;> exact absurd hcall' (by simp [hnone.resolve_left (by simp)])
  | _ => exact absurd he (by simp [NodeEvent.ofRunning])

/-! ### Every step -/

/-- What may disturb a sleeper: an interrupt while the interrupt thread is blocked in `wait` and has not
    been dequeued, and a timeout whose end does not fit into 64 bits. -/
def undisturbed (w : Node Wh Fun Arg) : NodeEvent Wh Fun Arg → Bool
  | .irq _ =>
      match w.call isrThread with
      | some (.wait _ _ stage _) =>
          !w.onlist isrThread || stage == .queued || (stage == .asleep && w.sched.frame isrThread == .user)
      | _ => true
  | .advance =>
      match w.call w.sched.currentThread with
      | some (.wait _ nsec .blocked _) => nsec == 0 || w.clock + nsec.toNat < 2 ^ 64
      | _ => true
  | _ => true

omit [DecidableEq Wh] in
/-- The running thread comes to the next stage of its call. -/
theorem WaitOk.moveOn (h : WaitOk w t wh nsec stage now) {stage' : WaitStage} {now' : Nat}
    (hsame : w'.onlist = w.onlist ∧ w'.serial = w.serial ∧ w'.dequeued = w.dequeued)
    (hcreated : w.sched.created ≤ w'.sched.created)
    (hframe : w'.sched.frame t = .user ∨ stage' = .asleep ∧ ∃ prev, w'.sched.frame t = .sched prev .other)
    (hsleeper : w.onlist t = true → Sleeper w' t nsec now' stage') : WaitOk w' t wh nsec stage' now' := by
  obtain ⟨honlist, hserial, hdequeued⟩ := hsame
  refine ⟨h.created.trans_le hcreated, hframe, fun hoff => ?_, fun hon => ?_⟩
  · rw [honlist] at hoff
    rw [hserial, hdequeued]
    exact h.dequeued hoff
  · rw [honlist] at hon
    exact hsleeper hon

namespace WaitInv

/-- What the running thread does inside `wait`. -/
theorem ofAdvance (h : WaitInv w) (hcond : undisturbed w .advance = true)
    (hstep : nodeStep s w .advance = some w')
    (hcall' : w'.call w.sched.currentThread = some (.wait wh nsec stage now)) :
    WaitOk w' w.sched.currentThread wh nsec stage now := by
  have hcreated := node_created_le hstep
  obtain ⟨-, henabled, rfl⟩ := nodeStep_inv hstep
  obtain ⟨hsame, stage₀, now₀, hcall, hmove⟩ := advance_inv henabled hcall'
  simp only [nodeEnabled, Bool.and_eq_true] at henabled
  have huser : w.sched.frame w.sched.currentThread = .user := of_decide_eq_true henabled.1
  have hwait := h.waits _ _ _ _ _ hcall
  have hsleeper := hwait.sleeper
  cases hmove with
  | block hafter =>
      refine hwait.moveOn hsame hcreated (.inl (hafter ▸ huser)) fun _ => ?_
      simp [Sleeper, hafter, effect, bmkSchedBlock, clearRunnable, bmkSchedSetwakeup, setFlags]
  | arm hnsec hafter =>
      simp only [undisturbed, hcall, Bool.or_eq_true, beq_iff_eq, decide_eq_true_eq] at hcond
      refine hwait.moveOn hsame hcreated (.inl (hafter ▸ huser)) fun hon => ?_
      refine ⟨?_, ?_, fun _ => hcond.resolve_left hnsec⟩
      · simpa [hafter, effect, bmkSchedSetwakeup] using (hsleeper hon).1
      · simp [hafter, effect, bmkSchedSetwakeup, sleepTime, hnsec]
  | noTimeout hnsec hafter =>
      refine hwait.moveOn hsame hcreated (.inl (hafter ▸ huser)) fun hon => ?_
      simp only [Sleeper, hafter]
      refine ⟨(hsleeper hon).1, ?_, fun hne => absurd hnsec hne⟩
      simp only [sleepTime, hnsec, if_true]
      exact (hsleeper hon).2
  | sleep hafter =>
      have hframe : (nodeEffect s w .advance).sched.frame w.sched.currentThread =
          .sched w.sched.currentThread .other := by
        rw [hafter]
        exact Function.update_self _ _ _
      refine hwait.moveOn hsame hcreated (.inr ⟨rfl, _, hframe⟩) fun hon => .inl ⟨?_, ?_⟩
      · rw [hafter]
        exact hsleeper hon
      · simp [hframe]

/-- What the running thread does. -/
theorem ofRunning (h : WaitInv w) (hcond : undisturbed w e = true) (hstep : nodeStep s w e = some w')
    (he : e.ofRunning = true) (hcall' : w'.call w.sched.currentThread = some (.wait wh nsec stage now)) :
    WaitOk w' w.sched.currentThread wh nsec stage now := by
  cases running_wait_inv hstep he hcall' with
  | enter hmay hafter =>
      subst hafter
      refine ⟨h.sched.2.current_created, .inl (mayCall_inv hmay).1, fun hoff => ?_, fun _ => trivial⟩
      simp [waitEnter] at hoff
  | goesOn => exact h.ofAdvance hcond hstep hcall'

omit [DecidableEq Wh] in
/-- An interrupt that does not find its thread asleep. -/
theorem ofInterrupt (hwait : WaitOk w isrThread wh nsec stage now) {which : Nat}
    (hcall : w.call isrThread = some (.wait wh nsec stage now))
    (hcond : undisturbed w (.irq which) = true) :
    WaitOk (bmkIsr w which) isrThread wh nsec stage now := by
  refine ⟨hwait.created, hwait.frame, hwait.dequeued, fun hon => ?_⟩
  have hon' : w.onlist isrThread = true := hon
  simp only [undisturbed, hcall, hon', Bool.not_true, Bool.false_or, Bool.or_eq_true, Bool.and_eq_true,
    beq_iff_eq] at hcond
  rcases hcond with rfl | ⟨rfl, huser⟩
  · trivial
  · -- it has run since, so its time had come
    rcases hwait.sleeper hon with ⟨-, hinside⟩ | hdue
    · exact absurd huser hinside
    · exact .inr hdue

omit [DecidableEq Wh] in
/-- The scan resumes a sleeper when its time has come. -/
theorem ofDispatch (h : WaitInv w) (hscheduling : w.sched.scheduling = true)
    (hcall : w.call t = some (.wait wh nsec stage now)) (hnext : Resumes (bmkClockNow w.clock) w.sched t) :
    WaitOk (w.does (.pass (bmkClockNow w.clock))) t wh nsec stage now := by
  have hwait := h.waits t wh nsec stage now hcall
  -- the thread that runs is inside `bmk_sched`, so this one is asleep
  have hinside : w.sched.frame t ≠ .user := by
    intro huser
    rw [h.sched.1.alone t hwait.created huser] at huser
    simp [World.scheduling, huser] at hscheduling
  obtain ⟨rfl, prev, hframe⟩ := hwait.frame.resolve_left hinside
  obtain ⟨huser, -⟩ := hnext.back (by rw [hframe]; rfl)
  refine ⟨hnext.created.symm ▸ hwait.created, .inl huser, hwait.dequeued, fun hon => .inr ⟨?_, huser⟩⟩
  rcases hwait.sleeper hon with ⟨hasleep, -⟩ | ⟨hdue, -⟩
  · exact hasleep.due_of_eligible hnext.eligible
  · exact hdue

theorem step (h : WaitInv w) (hcond : undisturbed w e = true) (hstep : nodeStep s w e = some w') :
    WaitInv w' := by
  obtain ⟨hclock, hdequeued⟩ := node_mono hstep
  refine ⟨node_lifeCycle hstep h.sched, fun t wh nsec stage now hcall => ?_, h.queues.step hstep,
    fun r hr => ?_⟩
  · by_cases hown : t = w.sched.currentThread ∧ e.ofRunning = true
    · obtain ⟨rfl, he⟩ := hown
      exact h.ofRunning hcond hstep he hcall
    · rw [node_call hstep hown] at hcall
      have hwait := h.waits t wh nsec stage now hcall
      cases node_move h.sched.1.toJoinless hwait.created hstep with
      | aside haside => exact hwait.aside haside hclock (node_created_le hstep) hdequeued
      | goesOn hrunning he => exact absurd ⟨hrunning, he⟩ hown
      | interrupted hisr hafter =>
          subst hisr hafter
          exact ofInterrupt hwait hcall hcond
      | dequeued _ hqueued htaken hafter =>
          subst hafter
          refine ⟨hwait.created, hwait.frame, fun _ => ?_,
            fun hon => absurd hon (by simp [Node.takeOff, htaken])⟩
          rw [← h.queues.site hqueued hcall]
          exact List.mem_append_left _ (List.mem_map.mpr ⟨t, htaken, rfl⟩)
      | dispatched hselected hafter =>
          subst hafter
          exact h.ofDispatch (nodeStep_inv hstep).2.1 hcall (h.sched.1.resumes hselected)
  · have hkeep : ∀ r, ReturnOk w.dequeued r → ReturnOk w'.dequeued r :=
      fun r hr => ⟨fun hoff => hdequeued (hr.1 hoff), hr.2⟩
    rcases returned_cases hstep with heq | ⟨rfl, wh, nsec, now, hcall, heq⟩
    · rw [heq] at hr
      exact hkeep r (h.returned r hr)
    · rw [heq, List.mem_cons] at hr
      rcases hr with rfl | hr
      · have hcalls := (nodeStep_inv hstep).2.1
        simp only [nodeEnabled, Bool.and_eq_true] at hcalls
        have hwait := h.waits _ _ _ _ _ hcall
        refine hkeep _ ⟨fun hoff => hwait.dequeued hoff, fun hon => ?_⟩
        rcases hwait.sleeper hon with ⟨-, hinside⟩ | ⟨hdue, -⟩
        · exact absurd (of_decide_eq_true hcalls.1) hinside
        · exact hdue
      · exact hkeep r (h.returned r hr)

omit [DecidableEq Wh] in
theorem start (intr : IntrWorld Fun Arg) (clock : Nat) :
    WaitInv (Node.start intr clock : Node Wh Fun Arg) where
  sched := ⟨detached_start, lifeCycle_start⟩
  waits := fun t wh nsec stage now hcall => absurd hcall (by simp [Node.start])
  queues := .start intr clock
  returned := fun r hr => absurd hr List.not_mem_nil

end WaitInv

/-- In every run in which no interrupt finds its thread blocked in `wait`, and no timeout overflows, every
    call of `wait` by any thread that has returned `0` was dequeued by a wakeup on its wait head, and every
    one that has returned `ETIMEDOUT` had a timeout, which was over.  A call without a timeout has been
    dequeued. -/
theorem sleepers_wake_for_a_reason {intr : IntrWorld Fun Arg} {clock : Nat}
    {events : List (NodeEvent Wh Fun Arg)}
    (hrun : run (nodeStep s) (Node.start intr clock) events = some w)
    (hmeets : Meets (nodeStep s) (fun w e => undisturbed w e = true) (Node.start intr clock) events) :
    ∀ r ∈ w.returned,
      (r.timedOut = false → (r.wh, r.serial) ∈ w.dequeued) ∧
      (r.timedOut = true → r.nsec ≠ 0 ∧ r.now + r.nsec.toNat ≤ r.clock) ∧
      (r.nsec = 0 → (r.wh, r.serial) ∈ w.dequeued) := by
  have hinv := run_invariant_of_meets (fun _ _ _ h hcond hstep => h.step hcond hstep)
    (WaitInv.start intr clock) hmeets
    hrun
  intro r hr
  obtain ⟨hzero, htimeout⟩ := hinv.returned r hr
  refine ⟨hzero, htimeout, fun hnsec => hzero ?_⟩
  by_contra hon
  exact (htimeout (Bool.not_eq_false _ ▸ hon)).1 hnsec

def noHandlers : IntrWorld Unit Unit := ⟨⟨fun _ => .empty, [], 0⟩, fun _ => [], false⟩

/-- `init` sleeps twice, until its timeout and until the interrupt thread wakes it; an interrupt comes in
    between. -/
def initSleeps : List (NodeEvent Unit Unit Unit) :=
  [.wait () 10, .advance, .advance, .advance, .pass, .tick 20, .thread .sched, .pass, .advance,
    .wait () 0, .advance, .advance, .irq 10, .advance, .pass, .wakeupOne (), .thread .sched, .pass,
    .advance]

theorem sleepers_wake_for_a_reason_two :
    ∃ w, run (nodeStep ⟨0, 0, 0, 0⟩) (Node.start noHandlers 0) initSleeps = some w ∧
      w.returned = [⟨1, (), 0, 0, false, 20⟩, ⟨0, (), 10, 0, true, 20⟩] ∧
      ∀ r ∈ w.returned,
        (r.timedOut = false → (r.wh, r.serial) ∈ w.dequeued) ∧
        (r.timedOut = true → r.nsec ≠ 0 ∧ r.now + r.nsec.toNat ≤ r.clock) ∧
        (r.nsec = 0 → (r.wh, r.serial) ∈ w.dequeued) := by
  have hreturned : (run (nodeStep ⟨0, 0, 0, 0⟩) (Node.start noHandlers 0) initSleeps).map (·.returned) =
      some [⟨1, (), 0, 0, false, 20⟩, ⟨0, (), 10, 0, true, 20⟩] := by
    decide +kernel
  have hmeets : Meets (nodeStep ⟨0, 0, 0, 0⟩) (fun w e => undisturbed w e = true) (Node.start noHandlers 0)
      initSleeps := by
    decide +kernel
  obtain ⟨w, hrun, hends⟩ := Option.map_eq_some_iff.mp hreturned
  exact ⟨w, hrun, hends, sleepers_wake_for_a_reason hrun hmeets⟩

/-- The interrupt thread is blocked in `hyp_schedule` when an interrupt arrives: `wait` without a timeout
    returns `ETIMEDOUT`, and nothing has been dequeued.  With a timeout that overflows, `wait` returns
    before its time. -/
theorem interrupt_ends_wait :
    (∃ w, run (nodeStep ⟨0, 0, 0, 0⟩) (Node.start noHandlers 0)
        [.thread .sched, .pass, .wait () 0, .advance, .advance, .advance, .pass, .irq 10, .thread .sched,
          .pass,
          .advance] = some w ∧
      w.returned = [⟨0, (), 0, 0, true, 0⟩] ∧ w.dequeued = []) ∧
    ∃ w, run (nodeStep ⟨0, 0, 0, 0⟩) (Node.start noHandlers 5)
        [.wait () 0xffffffffffffffff, .advance, .advance, .advance, .pass, .thread .sched, .pass,
          .advance] = some w ∧
      w.returned = [⟨0, (), 0xffffffffffffffff, 5, true, 5⟩] := by
  have hinterrupt : (run (nodeStep ⟨0, 0, 0, 0⟩) (Node.start noHandlers 0)
      [.thread .sched, .pass, .wait () 0, .advance, .advance, .advance, .pass, .irq 10, .thread .sched,
        .pass,
        .advance]).map (fun w => (w.returned, w.dequeued)) = some ([⟨0, (), 0, 0, true, 0⟩], []) := by
    decide +kernel
  have hoverflow : (run (nodeStep ⟨0, 0, 0, 0⟩) (Node.start noHandlers 5)
      [.wait () 0xffffffffffffffff, .advance, .advance, .advance, .pass, .thread .sched, .pass,
        .advance]).map
        (·.returned) = some [⟨0, (), 0xffffffffffffffff, 5, true, 5⟩] := by
    decide +kernel
  obtain ⟨w, hrun, hends⟩ := Option.map_eq_some_iff.mp hinterrupt
  obtain ⟨w', hrun', hends'⟩ := Option.map_eq_some_iff.mp hoverflow
  obtain ⟨hreturned, hdequeued⟩ := Prod.mk.inj hends
  exact ⟨⟨w, hrun, hreturned, hdequeued⟩, w', hrun', hends'⟩

end RumpBaremetal
