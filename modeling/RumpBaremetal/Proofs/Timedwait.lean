/-
Module: RumpBaremetal.Proofs.Timedwait
Layer: Proofs
Purpose: When a timed wait ends.  A thread that is blocked and has not been woken has the wakeup time that
  `wait` set, whatever the other threads and the interrupts do meanwhile, so a scan makes it runnable
  exactly from then on, and a call that a scan has ended returns `ETIMEDOUT`.  Zero is the exception: it
  stands for no timeout.
Trusted boundary: none (fully proved)
Main exports: nanoseconds_toInt, nanoseconds_toNat, EndsAt, endsAt_iff, InWait, ArmedInv, ReturnsTimeout,
  TimesOut, Noted, timedwait_times_out_iff, timedwait_zero_sleeps_on
-/
import RumpBaremetal.Fiber.Mutex
import RumpBaremetal.Fiber.Timed
import RumpBaremetal.Proofs.WakeReasons

namespace RumpBaremetal

open StepSystem Sched

/-! ### The arithmetic of the two hypercalls -/

/-- The number of nanoseconds is right in 64 bits. -/
theorem nanoseconds_toInt (sec nsec : Int64) :
    (nanoseconds sec nsec).toInt64.toInt = (duration sec.toInt nsec.toInt).bmod (2 ^ 64) := by
  have hproduct : (nanoseconds sec nsec).toInt64 = sec * 1000 * 1000 * 1000 + nsec := by
    simp [nanoseconds]
  have hthousand : (1000 : Int64).toInt = 1000 := by decide
  rw [hproduct]
  simp only [Int64.toInt_add, Int64.toInt_mul, hthousand, Int.bmod_mul_bmod, Int.bmod_add_bmod]
  congr 1
  unfold duration
  ring

theorem nanoseconds_toNat (sec nsec : Int64) :
    ((nanoseconds sec nsec).toNat : Int) = duration sec.toInt nsec.toInt % 2 ^ 64 := by
  have hsigned :
      (nanoseconds sec nsec).toInt64.toInt = ((nanoseconds sec nsec).toNat : Int).bmod (2 ^ 64) :=
    BitVec.toInt_eq_toNat_bmod _
  have hlt : (nanoseconds sec nsec).toNat < 2 ^ 64 := (nanoseconds sec nsec).toNat_lt
  rw [nanoseconds_toInt] at hsigned
  have hmod : duration sec.toInt nsec.toInt % (2 ^ 64 : Nat) = ((nanoseconds sec nsec).toNat : Int) %
      (2 ^ 64 : Nat) := by
    rw [← Int.bmod_emod, hsigned, Int.bmod_emod]
  omega

theorem cvTimedwait_waitNsec (sec nsec : Int64) :
    (Mutex.CvCall.cvTimedwait sec.toInt nsec.toInt).waitNsec = (nanoseconds sec nsec).toNat := by
  have h := nanoseconds_toNat sec nsec
  simp only [Mutex.CvCall.waitNsec]
  unfold duration at h
  omega

theorem bmkClockNow_range (clock : Nat) : -2 ^ 63 ≤ bmkClockNow clock ∧ bmkClockNow clock < 2 ^ 63 := by
  unfold bmkClockNow
  exact ⟨Int.le_bmod (by decide), Int.bmod_lt (by decide)⟩

/-- A 64-bit sum is stored as it is if it is in the range of the signed field. -/
theorem bmod_eq_self_iff (x : Int) : x.bmod (2 ^ 64) = x ↔ -2 ^ 63 ≤ x ∧ x < 2 ^ 63 := by
  rw [Int.bmod_def]
  split <;> omega

theorem deadline_nanoseconds (clock : Nat) (sec nsec : Int64) :
    deadline clock (nanoseconds sec nsec).toNat =
    (bmkClockNow clock + duration sec.toInt nsec.toInt).bmod (2 ^ 64) := by
  unfold deadline bmkClockNow
  rw [Int.bmod_add_bmod, Nat.cast_add, nanoseconds_toNat, Int.bmod_def, Int.bmod_def]
  have hmod : ((clock : Int) + duration sec.toInt nsec.toInt % 2 ^ 64) % (2 ^ 64 : Nat) =
      ((clock : Int) + duration sec.toInt nsec.toInt) % (2 ^ 64 : Nat) := by
    omega
  rw [hmod]

/-! ### Sleeping until a moment -/

/-- The sleep of a thread ends at `moment`: this is its wakeup time, a scan that examines it makes it
    runnable from then on and not before, and so a pass of `bmk_sched` gives it the processor if it comes to
    it from then on, and leaves it alone before. -/
structure EndsAt (w : World) (t : Tid) (moment : Int) : Prop where
  armed : (w.tcb t).wakeupTime = moment
  examined : ∀ tm, isRunnable (expire tm w.tcb t) t = true ↔ moment ≤ tm
  early : ∀ tm < moment, selected w (.pass tm) ≠ some t ∧ (pass tm w).tcb t = w.tcb t
  late : ∀ tm before after, moment ≤ tm → w.threads = before ++ t :: after →
    (∀ u ∈ before, eligible tm w.tcb u = false) → selected w (.pass tm) = some t

/-- A blocked thread sleeps until its wakeup time, unless that is negative, which stands for none. -/
theorem endsAt_iff {w : World} (hw : Joinless w) {t : Tid} (hblocked : isRunnable w.tcb t = false)
    {moment : Int} :
    EndsAt w t moment ↔ (w.tcb t).wakeupTime = moment ∧ 0 ≤ moment := by
  refine ⟨fun h => ⟨h.armed, ?_⟩, fun ⟨harmed, hset⟩ => ?_⟩
  · have helig := (h.examined moment).mpr le_rfl
    rw [isRunnable_expire_self, eligible, hblocked, h.armed] at helig
    simp only [Bool.false_or, decide_eq_true_eq] at helig
    exact helig.1
  · have helig : ∀ tm, eligible tm w.tcb t = true ↔ moment ≤ tm := by
      intro tm
      simp [eligible, hblocked, harmed, hset]
    refine ⟨harmed, fun tm => ?_, fun tm hearly => ⟨fun hselected => ?_, ?_⟩,
      fun tm before after hlate hsplit hbefore => ?_⟩
    · rw [isRunnable_expire_self]
      exact helig tm
    · rw [selected_pass] at hselected
      have := (helig tm).mp (List.find?_some hselected)
      omega
    · rcases hw.pass_cases tm with heq | ⟨next, hnext⟩
      · rw [heq]
      · have hne : t ≠ next := by
          rintro rfl
          have := (helig tm).mp hnext.eligible
          omega
        exact (hnext.others t hne).tcb
    · rw [selected_pass]
      refine List.find?_eq_some_iff_append.mpr ⟨(helig tm).mpr hlate, before, after, hsplit, fun u hu => ?_⟩
      simp [hbefore u hu]

/-- A thread has come out of `bmk_sched`. -/
structure ComesBack (w w' : World) (t : Tid) : Prop where
  running : w'.currentThread = t
  user : w'.frame t = .user
  awake : isRunnable w'.tcb t = true
  created : w'.created = w.created

/-! ### Threads inside `wait`, whatever wakes them -/

variable {Wh Fun Arg : Type*} {w w' : Node Wh Fun Arg} {t : Tid} {wh : Wh} {nsec : UInt64}
  {stage : WaitStage} {now : Nat}

/-- A thread inside `wait`.  As long as nothing has made it runnable, its record is queued, and from the
    third stage on its wakeup time is the one that was asked for. -/
structure InWait (w : Node Wh Fun Arg) (t : Tid) (nsec : UInt64) (stage : WaitStage) (now : Nat) :
    Prop where
  created : t < w.sched.created
  frame : w.sched.frame t = .user ∧ (stage = .asleep → isRunnable w.sched.tcb t = true) ∨
    stage = .asleep ∧ ∃ prev, w.sched.frame t = .sched prev .other
  queued : stage ≠ .asleep ∨ isRunnable w.sched.tcb t = false → w.onlist t = true
  unarmed : stage = .blocked → isRunnable w.sched.tcb t = false → (w.sched.tcb t).wakeupTime = -1
  armed : stage = .timed ∨ stage = .asleep → isRunnable w.sched.tcb t = false →
    (w.sched.tcb t).wakeupTime = sleepTime nsec now

namespace InWait

theorem aside (h : InWait w t nsec stage now) (haside : Aside w w' t)
    (hcreated : w.sched.created ≤ w'.sched.created) :
    InWait w' t nsec stage now := by
  obtain ⟨⟨htcb, hframe⟩, -, honlist, -⟩ := haside
  have hrun : isRunnable w'.sched.tcb t = isRunnable w.sched.tcb t := by
    simp only [isRunnable, htcb]
  refine ⟨h.created.trans_le hcreated, ?_, ?_, ?_, ?_⟩
  · rw [hframe, hrun]
    exact h.frame
  · rw [honlist, hrun]
    exact h.queued
  · rw [htcb, hrun]
    exact h.unarmed
  · rw [htcb, hrun]
    exact h.armed

/-- Once a thread has been made runnable, only its place and its record count. -/
theorem awake (hrun : isRunnable w.sched.tcb t = true) (hcreated : t < w.sched.created)
    (hframe : w.sched.frame t = .user ∨ stage = .asleep ∧ ∃ prev, w.sched.frame t = .sched prev .other)
    (hqueued : stage ≠ .asleep → w.onlist t = true) : InWait w t nsec stage now := by
  have hnot : isRunnable w.sched.tcb t ≠ false := by
    rw [hrun]
    exact Bool.noConfusion
  exact ⟨hcreated, hframe.imp (fun huser => ⟨huser, fun _ => hrun⟩) id,
    fun h => hqueued (h.resolve_right hnot),
    fun _ hblocked => absurd hblocked hnot, fun _ hblocked => absurd hblocked hnot⟩

/-- A thread that is not running is asleep. -/
theorem asleep (h : InWait w t nsec stage now) (hw : Detached w.sched)
    (hother : w.sched.frame t = .user → t ≠ w.sched.currentThread) :
    stage = .asleep ∧ ∃ prev, w.sched.frame t = .sched prev .other := by
  refine h.frame.resolve_left fun huser => ?_
  exact hother huser.1 (hw.alone t h.created huser.1)

end InWait

/-- What holds of the calls of `wait` in every run. -/
structure ArmedInv (w : Node Wh Fun Arg) : Prop where
  sched : Detached w.sched ∧ LifeCycle w.sched
  queues : QueuesOk w
  waits : ∀ t wh nsec stage now, w.call t = some (.wait wh nsec stage now) → InWait w t nsec stage now

variable [DecidableEq Wh] {s : Stubs} {e : NodeEvent Wh Fun Arg}

namespace ArmedInv

/-- What the running thread does inside `wait`. -/
theorem ofAdvance (h : ArmedInv w) (hstep : nodeStep s w .advance = some w')
    (hcall' : w'.call w.sched.currentThread = some (.wait wh nsec stage now)) :
    InWait w' w.sched.currentThread nsec stage now := by
  have hcreated := node_created_le hstep
  obtain ⟨-, henabled, rfl⟩ := nodeStep_inv hstep
  obtain ⟨⟨honlist, -, -⟩, stage₀, now₀, hcall, hmove⟩ := advance_inv henabled hcall'
  simp only [nodeEnabled, Bool.and_eq_true] at henabled
  have huser : w.sched.frame w.sched.currentThread = .user := of_decide_eq_true henabled.1
  have hwait := h.waits _ _ _ _ _ hcall
  have hthere := hwait.created.trans_le hcreated
  have hqueued : (nodeEffect s w .advance).onlist w.sched.currentThread = true := by
    rw [honlist]
    exact hwait.queued (.inl (by cases hmove <;> simp))
  cases hmove with
  | block hafter =>
      refine ⟨hthere, .inl ⟨hafter ▸ huser, by simp⟩, fun _ => hqueued, fun _ _ => ?_, by simp⟩
      simp [hafter, effect, bmkSchedBlock, clearRunnable, bmkSchedSetwakeup, setFlags]
  | arm hnsec hafter =>
      refine ⟨hthere, .inl ⟨hafter ▸ huser, by simp⟩, fun _ => hqueued, by simp, fun _ _ => ?_⟩
      simp [hafter, effect, bmkSchedSetwakeup, sleepTime, hnsec]
  | noTimeout hnsec hafter =>
      refine ⟨hthere, .inl ⟨hafter ▸ huser, by simp⟩, fun _ => hqueued, by simp, fun _ hblocked => ?_⟩
      rw [hafter] at hblocked ⊢
      rw [hwait.unarmed rfl hblocked, sleepTime, if_pos hnsec]
  | sleep hafter =>
      have hframe : (nodeEffect s w .advance).sched.frame w.sched.currentThread =
          .sched w.sched.currentThread .other := by
        rw [hafter]
        exact Function.update_self _ _ _
      refine ⟨hthere, .inr ⟨rfl, _, hframe⟩, fun _ => hqueued, by simp, fun _ hblocked => ?_⟩
      rw [hafter] at hblocked ⊢
      exact hwait.armed (.inl rfl) hblocked

omit [DecidableEq Wh] in
/-- A thread inside `wait` that the scan selects was asleep in `bmk_sched` and comes out of it. -/
theorem resumed (h : ArmedInv w) (hscheduling : w.sched.scheduling = true)
    (hcall : w.call t = some (.wait wh nsec stage now)) {tm : Int}
    (hselected : selected w.sched (.pass tm) = some t) :
    stage = .asleep ∧ (pass tm w.sched).halted = w.sched.halted ∧
    ComesBack w.sched (pass tm w.sched) t := by
  have hwait := h.waits t wh nsec stage now hcall
  obtain ⟨rfl, prev, hframe⟩ := hwait.asleep h.sched.1 fun huser heq => by
    rw [heq] at huser
    simp [World.scheduling, huser] at hscheduling
  have hnext := h.sched.1.resumes hselected
  obtain ⟨huser, htcb⟩ := hnext.back (by rw [hframe]; rfl)
  refine ⟨rfl, pass_halted hselected hframe, hnext.current, huser, ?_, hnext.created⟩
  rw [isRunnable, htcb]
  exact (isRunnable_expire_self _ _ _).trans hnext.eligible

theorem step (h : ArmedInv w) (hstep : nodeStep s w e = some w') : ArmedInv w' := by
  refine ⟨node_lifeCycle hstep h.sched, h.queues.step hstep, fun t wh nsec stage now hcall => ?_⟩
  by_cases hown : t = w.sched.currentThread ∧ e.ofRunning = true
  · obtain ⟨rfl, he⟩ := hown
    cases running_wait_inv hstep he hcall with
    | enter hmay hafter =>
        subst hafter
        refine ⟨h.sched.2.current_created, .inl ⟨(mayCall_inv hmay).1, by simp⟩, fun _ => ?_,
          by simp, by simp⟩
        exact Function.update_self _ _ _
    | goesOn => exact h.ofAdvance hstep hcall
  · rw [node_call hstep hown] at hcall
    have hwait := h.waits t wh nsec stage now hcall
    cases node_move h.sched.1.toJoinless hwait.created hstep with
    | aside haside => exact hwait.aside haside (node_created_le hstep)
    | goesOn hrunning he => exact absurd ⟨hrunning, he⟩ hown
    | interrupted hisr hafter =>
        subst hisr hafter
        exact .awake (isRunnable_wake_self _ _) hwait.created (hwait.frame.imp And.left id) fun hstage =>
          hwait.queued (.inl hstage)
    | dequeued hmay _ htaken hafter =>
        subst hafter
        obtain ⟨rfl, hframe⟩ := hwait.asleep h.sched.1 fun _ heq => by
          rw [heq, (mayCall_inv hmay).2] at hcall
          cases hcall
        have hrun := (isRunnable_foldl_wake _ w.sched.tcb t).mpr (.inl htaken)
        exact .awake hrun hwait.created (.inr ⟨rfl, hframe⟩) fun hstage => absurd rfl hstage
    | dispatched hselected hafter =>
        subst hafter
        obtain ⟨rfl, -, hback⟩ := h.resumed (nodeStep_inv hstep).2.1 hcall hselected
        exact .awake hback.awake (hback.created.symm ▸ hwait.created) (.inl hback.user) fun hstage =>
          absurd rfl hstage

omit [DecidableEq Wh] in
theorem start (intr : IntrWorld Fun Arg) (clock : Nat) :
    ArmedInv (Node.start intr clock : Node Wh Fun Arg) where
  sched := ⟨detached_start, lifeCycle_start⟩
  queues := .start intr clock
  waits := fun t wh nsec stage now hcall => absurd hcall (by simp [Node.start])

end ArmedInv

/-! ### The return of a call that has timed out -/

/-- The thread has got the processor back inside `wait`, with its record still queued. -/
structure Returning (w : Node Wh Fun Arg) (t : Tid) : Prop where
  alive : w.sched.halted = none ∧ w.intr.halted = false
  running : w.sched.currentThread = t
  user : w.sched.frame t = .user
  inside : ∃ wh nsec now, w.call t = some (.wait wh nsec .asleep now)
  queued : w.onlist t = true

/-- Whatever comes before its next statement, the call of `wait` that the thread is inside of returns
    `ETIMEDOUT`. -/
def ReturnsTimeout (s : Stubs) (w : Node Wh Fun Arg) (t : Tid) : Prop :=
  ∀ events v, .advance ∉ events → run (nodeStep s) w events = some v →
    ∃ v' r, nodeStep s v .advance = some v' ∧ v'.returned = r :: w.returned ∧ r.serial = w.serial t ∧
      r.timedOut = true

namespace Returning

/-- Nothing else can happen to the thread: it runs, and it is inside a call. -/
theorem step (h : Returning w t) (he : e ≠ .advance) (hstep : nodeStep s w e = some w') :
    Returning w' t ∧ w'.returned = w.returned ∧ w'.serial t = w.serial t := by
  obtain ⟨wh, nsec, now, hcall⟩ := h.inside
  have hmay : w.mayCall ≠ true := by
    intro hmay
    have hnone := (mayCall_inv hmay).2
    rw [h.running, hcall] at hnone
    cases hnone
  obtain ⟨-, henabled, rfl⟩ := nodeStep_inv hstep
  have hown : e.ofRunning ≠ true := by
    intro hown
    have hnone := (ofRunning_inv henabled hown).2.resolve_left he
    rw [h.running, hcall] at hnone
    cases hnone
  cases e with
  | irq which => exact ⟨⟨h.alive, h.running, h.user, h.inside, h.queued⟩, rfl, rfl⟩
  | tick cycles => exact ⟨⟨h.alive, h.running, h.user, h.inside, h.queued⟩, rfl, rfl⟩
  | wakeupOne wh => exact absurd henabled hmay
  | wakeupAll wh => exact absurd henabled hmay
  | pass =>
      have hscheduling : w.sched.scheduling = true := henabled
      simp [World.scheduling, h.running, h.user] at hscheduling
  | _ => exact absurd rfl hown

theorem timeout (h : Returning w t) : ReturnsTimeout s w t := by
  intro events v hnot hrun
  have hkept : Returning v t ∧ v.returned = w.returned ∧ v.serial t = w.serial t := by
    refine run_invariant_of_meets (C := fun _ e => e ≠ .advance)
      (I := fun v => Returning v t ∧ v.returned = w.returned ∧ v.serial t = w.serial t) ?_ ⟨h, rfl, rfl⟩
      (meets_of_mem (fun e he _ => ne_of_mem_of_not_mem he hnot) w) hrun
    intro v e v' hv he hstep
    obtain ⟨hv', hreturned, hserial⟩ := hv.1.step he hstep
    exact ⟨hv', hreturned.trans hv.2.1, hserial.trans hv.2.2⟩
  obtain ⟨hv, hreturned, hserial⟩ := hkept
  obtain ⟨wh, nsec, now, hcall⟩ := hv.inside
  have hstep : nodeStep s v .advance = some (nodeEffect s v .advance) := by
    refine nodeStep_of_enabled hv.alive ?_
    simp [nodeEnabled, World.calls, hv.running, hv.user, hcall]
  refine ⟨_, ⟨w.serial t, wh, nsec, now, true, v.clock⟩, hstep, ?_, rfl, rfl⟩
  simp only [nodeEffect, advance, hv.running, hcall, waitTimedOut, Node.fibers, hv.queued, hserial,
    hreturned]

end Returning

/-! ### Timed waits -/

/-- The time at which a timed wait is to end. -/
def Timedwait.deadline (c : Timedwait) : Int := bmkClockNow c.blockedAt + duration c.sec.toInt c.nsec.toInt

/-- A blocked thread times out at `moment`: its sleep ends then, and when a scan ends it, its call returns
    `ETIMEDOUT`. -/
structure TimesOut (s : Stubs) (w : Node Wh Fun Arg) (t : Tid) (moment : Int) : Prop where
  ends : EndsAt w.sched t moment
  returns : ∀ w', nodeStep s w .pass = some w' → selected w.sched (.pass (bmkClockNow w.clock)) = some t →
    ReturnsTimeout s w' t

theorem ArmedInv.returns (h : ArmedInv w) (hcall : w.call t = some (.wait wh nsec stage now))
    (hblocked : isRunnable w.sched.tcb t = false) (hstep : nodeStep s w .pass = some w')
    (hselected : selected w.sched (.pass (bmkClockNow w.clock)) = some t) : ReturnsTimeout s w' t := by
  have hintr := (node_alive hstep).2
  have hqueued := (h.waits t wh nsec stage now hcall).queued (.inr hblocked)
  obtain ⟨hhalted, hscheduling, rfl⟩ := nodeStep_inv hstep
  obtain ⟨rfl, halive, hback⟩ := h.resumed hscheduling hcall hselected
  have hreturning : Returning (nodeEffect s w .pass) t :=
    ⟨⟨halive.trans hhalted, hintr⟩, hback.running, hback.user, ⟨wh, nsec, now, hcall⟩, hqueued⟩
  exact hreturning.timeout

/-- The records are those of the calls that the threads are inside of. -/
def Noted (w : TimedNode Wh Fun Arg) : Prop :=
  ∀ t c wh nsec stage now, w.timedwait t = some c → w.node.call t = some (.wait wh nsec stage now) →
    nsec = nanoseconds c.sec c.nsec ∧ (stage = .timed ∨ stage = .asleep → nsec ≠ 0 → now = c.blockedAt)

omit [DecidableEq Wh] in
/-- An event that is not a step of the running thread leaves its record alone. -/
theorem note_of_not_ofRunning {w : TimedNode Wh Fun Arg} {e : TimedEvent Wh Fun Arg}
    (he : e.event.ofRunning ≠ true) :
    w.note e = w.timedwait w.node.sched.currentThread := by
  cases e with
  | timedwait cv sec nsec => exact absurd rfl he
  | other e =>
      cases e with
      | wait wh nsec => exact absurd rfl he
      | advance => exact absurd rfl he
      | _ => rfl

theorem Noted.step {w w' : TimedNode Wh Fun Arg} {e : TimedEvent Wh Fun Arg} (h : Noted w)
    (hstep : timedStep s w e = some w') : Noted w' := by
  obtain ⟨hnode, hnote⟩ := timedStep_inv hstep
  intro t c wh nsec stage now htimed hcall
  rw [hnote] at htimed
  by_cases hown : t = w.node.sched.currentThread ∧ e.event.ofRunning = true
  · obtain ⟨rfl, he⟩ := hown
    rw [Function.update_self] at htimed
    cases e with
    | timedwait cv sec nsec₁ =>
        cases running_wait_inv (e := .wait cv (nanoseconds sec nsec₁)) hnode he hcall with
        | enter =>
            obtain rfl := Option.some.inj htimed
            exact ⟨rfl, by simp⟩
    | other e =>
        cases running_wait_inv hnode he hcall with
        | enter => cases htimed
        | goesOn =>
            obtain ⟨-, henabled, hafter⟩ := nodeStep_inv hnode
            rw [hafter] at hcall
            obtain ⟨-, stage₀, now₀, hcall₀, hmove⟩ := advance_inv henabled hcall
            simp only [TimedNode.note, hcall₀] at htimed
            cases hmove with
            | block => exact ⟨(h _ c _ _ _ _ htimed hcall₀).1, by simp⟩
            | arm =>
                obtain ⟨c₀, hc₀, rfl⟩ := Option.map_eq_some_iff.mp htimed
                exact ⟨(h _ c₀ _ _ _ _ hc₀ hcall₀).1, fun _ _ => rfl⟩
            | noTimeout hnsec =>
                obtain ⟨c₀, hc₀, rfl⟩ := Option.map_eq_some_iff.mp htimed
                exact ⟨(h _ c₀ _ _ _ _ hc₀ hcall₀).1, fun _ hne => absurd hnsec hne⟩
            | sleep =>
                obtain ⟨hnsec, hnow⟩ := h _ c _ _ _ _ htimed hcall₀
                exact ⟨hnsec, fun _ => hnow (.inl rfl)⟩
  · rw [node_call hnode hown] at hcall
    refine h t c wh nsec stage now ?_ hcall
    by_cases ht : t = w.node.sched.currentThread
    · subst ht
      rw [Function.update_self, note_of_not_ofRunning fun he => hown ⟨rfl, he⟩] at htimed
      exact htimed
    · rw [Function.update_of_ne ht] at htimed
      exact htimed

theorem timed_invariant {intr : IntrWorld Fun Arg} {clock : Nat} {events : List (TimedEvent Wh Fun Arg)}
    {w : TimedNode Wh Fun Arg} (hrun : run (timedStep s) (TimedNode.start intr clock) events = some w) :
    ArmedInv w.node ∧ Noted w := by
  refine run_invariant (I := fun w => ArmedInv w.node ∧ Noted w) ?_ ⟨.start intr clock, ?_⟩ hrun
  · intro w e w' hw hstep
    exact ⟨hw.1.step (timedStep_inv hstep).1, hw.2.step hstep⟩
  · intro t c wh nsec stage now htimed
    cases htimed

/-- In every state of every run, a thread blocked in a timed wait whose deadline is below `2^63` times out
    exactly at that deadline, if and only if its timeout is not zero and its deadline is not before the
    clock's zero. -/
theorem timedwait_times_out_iff {intr : IntrWorld Fun Arg} {clock : Nat}
    {events : List (TimedEvent Wh Fun Arg)} {w : TimedNode Wh Fun Arg}
    (hrun : run (timedStep s) (TimedNode.start intr clock) events = some w) {c : Timedwait}
    (htimed : w.timedwait t = some c) (hcall : w.node.call t = some (.wait wh nsec stage now))
    (hstage : stage = .timed ∨ stage = .asleep) (hblocked : isRunnable w.node.sched.tcb t = false)
    (hsec : 0 ≤ c.sec.toInt) (hnsec : 0 ≤ c.nsec.toInt ∧ c.nsec.toInt < 10 ^ 9)
    (hsmall : c.deadline < 2 ^ 63) :
    TimesOut s w.node t c.deadline ↔ 0 < duration c.sec.toInt c.nsec.toInt ∧ 0 ≤ c.deadline := by
  obtain ⟨harmed, hnoted⟩ := timed_invariant hrun
  obtain ⟨rfl, hnow⟩ := hnoted t c wh nsec stage now htimed hcall
  have hwakeup := (harmed.waits _ _ _ _ _ hcall).armed hstage hblocked
  have hduration : 0 ≤ duration c.sec.toInt c.nsec.toInt := by
    unfold duration
    omega
  have hrange := bmkClockNow_range c.blockedAt
  have hvalue := nanoseconds_toNat c.sec c.nsec
  have hfits : duration c.sec.toInt c.nsec.toInt % 2 ^ 64 = duration c.sec.toInt c.nsec.toInt := by
    unfold Timedwait.deadline at hsmall
    omega
  have hends : EndsAt w.node.sched t c.deadline ↔ 0 < duration c.sec.toInt c.nsec.toInt ∧
      0 ≤ c.deadline := by
    rw [endsAt_iff harmed.sched.1.toJoinless hblocked, hwakeup, sleepTime]
    by_cases hzero : nanoseconds c.sec c.nsec = 0
    · rw [if_pos hzero]
      rw [hzero] at hvalue
      have hnone : duration c.sec.toInt c.nsec.toInt = 0 := by
        rw [← hfits, ← hvalue]
        rfl
      omega
    · have hpos : 0 < duration c.sec.toInt c.nsec.toInt := by
        refine lt_of_le_of_ne hduration fun heq => hzero ?_
        rw [← heq] at hvalue
        exact UInt64.toNat.inj (by simpa using hvalue)
      rw [if_neg hzero, hnow hstage hzero, deadline_nanoseconds]
      have hexact := (bmod_eq_self_iff c.deadline).mpr (by unfold Timedwait.deadline at hsmall ⊢; omega)
      unfold Timedwait.deadline at hexact ⊢
      rw [hexact]
      exact ⟨fun h => ⟨hpos, h.2⟩, fun h => ⟨rfl, h.2⟩⟩
  exact ⟨fun h => hends.mp h.ends, fun h => ⟨hends.mpr h, fun w' => harmed.returns hcall hblocked⟩⟩

/-- `init` waits for ten nanoseconds, and the interrupt thread gets the processor. -/
def initWaits (sec nsec : Int64) : List (TimedEvent Unit Unit Unit) :=
  [.timedwait () sec nsec, .other .advance, .other .advance, .other .advance, .other .pass]

theorem timedwait_times_out_iff_ten :
    ∃ w, run (timedStep ⟨0, 0, 0, 0⟩) (TimedNode.start noHandlers 5) (initWaits 0 10) = some w ∧
      w.timedwait 0 = some ⟨0, 10, 5⟩ ∧ (w.node.sched.tcb 0).wakeupTime = 15 ∧
      TimesOut ⟨0, 0, 0, 0⟩ w.node 0 15 := by
  have hends : (run (timedStep ⟨0, 0, 0, 0⟩) (TimedNode.start noHandlers 5) (initWaits 0 10)).map
      (fun w => (w.timedwait 0, w.node.call 0, isRunnable w.node.sched.tcb 0,
        (w.node.sched.tcb 0).wakeupTime)) =
        some (some ⟨0, 10, 5⟩, some (.wait () 10 .asleep 5), false, 15) := by
    decide +kernel
  obtain ⟨w, hrun, hends⟩ := Option.map_eq_some_iff.mp hends
  obtain ⟨htimed, hends⟩ := Prod.mk.inj hends
  obtain ⟨hcall, hends⟩ := Prod.mk.inj hends
  obtain ⟨hblocked, hwakeup⟩ := Prod.mk.inj hends
  refine ⟨w, hrun, htimed, hwakeup, ?_⟩
  exact (timedwait_times_out_iff hrun htimed hcall (.inr rfl) hblocked (by decide) (by decide)
    (by decide)).mpr (by decide)

/-- A timeout of zero is taken for none: `init` has no wakeup time, and ten seconds later a pass that finds
    nothing else to do before it still leaves it asleep. -/
theorem timedwait_zero_sleeps_on :
    ∃ w, run (timedStep ⟨0, 0, 0, 0⟩) (TimedNode.start noHandlers 5)
        (initWaits 0 0 ++ [.other (.tick 10000000000), .other (.thread .sched), .other .pass]) = some w ∧
      w.timedwait 0 = some ⟨0, 0, 5⟩ ∧ w.node.call 0 = some (.wait () 0 .asleep 0) ∧
      w.node.clock = 10000000005 ∧
      (w.node.sched.tcb 0).wakeupTime = -1 ∧ isRunnable w.node.sched.tcb 0 = false ∧
      w.node.sched.currentThread = 1 := by
  have hends : (run (timedStep ⟨0, 0, 0, 0⟩) (TimedNode.start noHandlers 5)
      (initWaits 0 0 ++ [.other (.tick 10000000000), .other (.thread .sched), .other .pass])).map
      (fun w => ((w.timedwait 0, w.node.call 0, w.node.clock),
        (w.node.sched.tcb 0).wakeupTime, isRunnable w.node.sched.tcb 0, w.node.sched.currentThread)) =
        some ((some ⟨0, 0, 5⟩, some (.wait () 0 .asleep 0), 10000000005), -1, false, 1) := by
    decide +kernel
  obtain ⟨w, hrun, hends⟩ := Option.map_eq_some_iff.mp hends
  obtain ⟨hcalls, hsched⟩ := Prod.mk.inj hends
  obtain ⟨htimed, hcalls⟩ := Prod.mk.inj hcalls
  obtain ⟨hcall, hclock⟩ := Prod.mk.inj hcalls
  obtain ⟨hwakeup, hsched⟩ := Prod.mk.inj hsched
  obtain ⟨hblocked, hcurrent⟩ := Prod.mk.inj hsched
  exact ⟨w, hrun, htimed, hcall, hclock, hwakeup, hblocked, hcurrent⟩

end RumpBaremetal
