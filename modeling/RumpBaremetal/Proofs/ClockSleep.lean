/-
Module: RumpBaremetal.Proofs.ClockSleep
Layer: Proofs
Purpose: When a clock sleep ends.  The hypercall does not look at the clock it is asked for: it adds what it
  is given to the clock of the moment, in 64 bits.  From there the thread is followed into `bmk_sched` and
  until it gets the processor again, which the scan alone decides, unless it is the thread that interrupts
  wake.
Trusted boundary: none (fully proved)
Main exports: gettime_moment, SleepsUntil, Napping, Napping.step, moment_iff, clock_sleep_ends_iff,
  clock_sleep_absolute_oversleeps
-/
import RumpBaremetal.Proofs.Isr
import RumpBaremetal.Proofs.Timedwait

namespace RumpBaremetal

open StepSystem Sched

/-! ### The clock -/

/-- The time that `rumpuser_clock_gettime` reports is the cycle counter, in the form that the sleep
    takes. -/
theorem gettime_moment (enumRumpclock : RumpClock) (clock : Nat) (now : Int) :
    let (sec, nsec) := rumpuserClockGettime enumRumpclock clock
    0 ≤ sec.toInt ∧ 0 ≤ nsec.toInt ∧ nsec.toInt < 10 ^ 9 ∧
      RumpClock.absmono.moment now sec nsec = clock % 2 ^ 64 := by
  have hdiv : (UInt64.ofNat clock / 1000000000).toNat = clock % 2 ^ 64 / 1000000000 := by
    rw [UInt64.toNat_div, UInt64.toNat_ofNat']
    rfl
  have hmod : (UInt64.ofNat clock % 1000000000).toUInt32.toNat = clock % 2 ^ 64 % 1000000000 := by
    rw [UInt64.toNat_toUInt32, UInt64.toNat_mod, UInt64.toNat_ofNat']
    exact Nat.mod_eq_of_lt (show _ % 1000000000 < 2 ^ 32 by omega)
  have hsec : (UInt64.ofNat clock / 1000000000).toInt64.toInt = ((clock % 2 ^ 64 / 1000000000 : Nat) :
      Int) := by
    rw [← hdiv]
    exact BitVec.toInt_eq_toNat_of_lt (show 2 * (UInt64.ofNat clock / 1000000000).toNat < 2 ^ 64 by omega)
  have hnsec : (UInt64.ofNat clock % 1000000000).toUInt32.toInt32.toInt =
      ((clock % 2 ^ 64 % 1000000000 : Nat) : Int) := by
    rw [← hmod]
    exact BitVec.toInt_eq_toNat_of_lt (show 2 * (UInt64.ofNat clock % 1000000000).toUInt32.toNat <
      2 ^ 32 by omega)
  simp only [rumpuserClockGettime, RumpClock.moment, duration, hsec, hnsec]
  omega

/-! ### A thread inside `bmk_sched_nanosleep` -/

variable {Wh Fun Arg : Type*} [DecidableEq Wh] {s : Stubs} {w w' : Node Wh Fun Arg}
  {e : NodeEvent Wh Fun Arg} {t : Tid}

/-- An event in which the scan gives the processor to a thread. -/
def Dispatches (t : Tid) (w : Node Wh Fun Arg) (e : NodeEvent Wh Fun Arg) : Prop :=
  e = .pass ∧ selected w.sched (.pass (bmkClockNow w.clock)) = some t

/-- The sleep that a thread has just asked for lasts until `moment`: its wakeup time is set to it, and
    whatever happens until the thread gets the processor, each time a scan can come to it its sleep ends at
    that moment. -/
structure SleepsUntil (s : Stubs) (w : Node Wh Fun Arg) (t : Tid) (moment : Int) : Prop where
  armed : (w.sched.tcb t).wakeupTime = moment
  ends : ∀ events v, run (nodeStep s) w events = some v →
    Meets (nodeStep s) (fun v e => ¬ Dispatches t v e) w events → v.sched.scheduling = true →
      EndsAt v.sched t moment

theorem SleepsUntil.undispatched {moment : Int} (h : SleepsUntil s w t moment)
    (events : List (NodeEvent Wh Fun Arg)) (v : Node Wh Fun Arg)
    (hrun : run (nodeStep s) w events = some v) (hnot : .pass ∉ events)
    (hscheduling : v.sched.scheduling = true) : EndsAt v.sched t moment := by
  refine h.ends events v hrun (meets_of_mem (fun e he _ => ?_) w) hscheduling
  rintro ⟨rfl, -⟩
  exact hnot he

/-- A thread inside `bmk_sched_nanosleep`: on its way into `bmk_sched`, or there. -/
structure Napping (w : Node Wh Fun Arg) (t : Tid) (moment : Int) : Prop where
  inv : ArmedInv w
  created : t < w.sched.created
  armed : (w.sched.tcb t).wakeupTime = moment
  place : w.call t = some .nanosleep ∧ w.sched.frame t = .user ∨
    w.call t = none ∧ isRunnable w.sched.tcb t = false ∧ ∃ prev, w.sched.frame t = .sched prev .other

namespace Napping

variable {moment : Int}

omit [DecidableEq Wh] in
theorem not_queued (h : Napping w t moment) (wh : Wh) : t ∉ w.waithead wh := by
  refine h.inv.queues.not_queued (fun wh nsec stage now hcall => ?_) wh
  rcases h.place with ⟨hnap, -⟩ | ⟨hnone, -⟩
  · rw [hnap] at hcall
    cases hcall
  · rw [hnone] at hcall
    cases hcall

/-- The thread clears its flag and goes into `bmk_sched`. -/
theorem goesOn (h : Napping w t moment) (hrunning : t = w.sched.currentThread) (he : e.ofRunning = true)
    (hstep : nodeStep s w e = some w') : Napping w' t moment := by
  have hinv := h.inv.step hstep
  have hcreated := node_created_le hstep
  obtain ⟨-, henabled, rfl⟩ := nodeStep_inv hstep
  obtain ⟨huser, hadvance⟩ := ofRunning_inv henabled he
  subst hrunning
  rcases h.place with ⟨hnap, -⟩ | ⟨-, -, prev, hframe⟩
  · obtain rfl := hadvance.resolve_right (by simp [hnap])
    have heffect : nodeEffect s w .advance =
        { w.setCall w.sched.currentThread none with
          sched := enterSched { w.sched with tcb := clearRunnable w.sched.tcb w.sched.currentThread }
            .other } := by
      simp only [nodeEffect, advance, hnap]
    refine ⟨hinv, h.created.trans_le hcreated, ?_, .inr ?_⟩
    · rw [heffect, ← h.armed]
      simp [enterSched, clearRunnable, setFlags]
    · rw [heffect]
      exact ⟨Function.update_self _ _ _,
        by simp [enterSched, isRunnable, clearRunnable], _, Function.update_self _ _ _⟩
  · rw [hframe] at huser
    cases huser

theorem step (h : Napping w t moment) (ht : t ≠ isrThread) (hnot : ¬ Dispatches t w e)
    (hstep : nodeStep s w e = some w') : Napping w' t moment := by
  cases node_move h.inv.sched.1.toJoinless h.created hstep with
  | aside haside =>
      obtain ⟨⟨htcb, hframe⟩, hcall, -, -⟩ := haside
      refine ⟨h.inv.step hstep, h.created.trans_le (node_created_le hstep), ?_, ?_⟩
      · rw [htcb]
        exact h.armed
      · rw [hcall, hframe, isRunnable, htcb]
        exact h.place
  | goesOn hrunning he => exact h.goesOn hrunning he hstep
  | interrupted hisr => exact absurd hisr ht
  | dequeued _ hqueued => exact absurd hqueued (h.not_queued _)
  | dispatched hselected => exact absurd ⟨rfl, hselected⟩ hnot

omit [DecidableEq Wh] in
/-- When a scan can come to it, the thread is blocked. -/
theorem blocked (h : Napping w t moment) (hscheduling : w.sched.scheduling = true) :
    isRunnable w.sched.tcb t = false := by
  rcases h.place with ⟨-, huser⟩ | ⟨-, hblocked, -⟩
  · rw [h.inv.sched.1.alone t h.created huser] at huser
    simp [World.scheduling, huser] at hscheduling
  · exact hblocked

omit [DecidableEq Wh] in
theorem user_of_call (h : Napping w t moment) (hnap : w.call t = some .nanosleep) :
    w.sched.frame t = .user := by
  rcases h.place with ⟨-, huser⟩ | ⟨hnone, -⟩
  · exact huser
  · rw [hnap] at hnone
    cases hnone

omit [DecidableEq Wh] in
/-- When a scan can come to it, its sleep ends at the moment that is set, if it is one, and at no other. -/
theorem endsAt_iff (h : Napping w t moment) (hscheduling : w.sched.scheduling = true) {moment' : Int} :
    EndsAt w.sched t moment' ↔ moment = moment' ∧ 0 ≤ moment' := by
  rw [RumpBaremetal.endsAt_iff h.inv.sched.1.toJoinless (h.blocked hscheduling), h.armed]

theorem sleepsUntil (h : Napping w t moment) (ht : t ≠ isrThread) (hset : 0 ≤ moment) :
    SleepsUntil s w t moment := by
  refine ⟨h.armed, fun events v hrun hmeets hscheduling => ?_⟩
  have hv : Napping v t moment :=
    run_invariant_of_meets (I := fun v => Napping v t moment)
      (fun _ _ _ hv hnot hstep => hv.step ht hnot hstep) h
      hmeets hrun
  exact (hv.endsAt_iff hscheduling).mpr ⟨rfl, hset⟩

/-- The next step of the thread brings it into `bmk_sched`. -/
theorem enters (h : Napping w t moment) (halive : w.sched.halted = none ∧ w.intr.halted = false)
    (hnap : w.call t = some .nanosleep) :
    ∃ v, nodeStep s w .advance = some v ∧ v.sched.scheduling = true ∧ Napping v t moment := by
  have huser := h.user_of_call hnap
  have hrunning : t = w.sched.currentThread := h.inv.sched.1.alone t h.created huser
  subst hrunning
  have hstep : nodeStep s w .advance = some (nodeEffect s w .advance) := by
    refine nodeStep_of_enabled halive ?_
    simp [nodeEnabled, World.calls, huser, hnap]
  refine ⟨_, hstep, ?_, h.goesOn rfl rfl hstep⟩
  simp [nodeEffect, advance, hnap, World.scheduling, enterSched]

/-- An interrupt that comes before takes the wakeup time of its thread away. -/
theorem interrupted (h : Napping w isrThread moment)
    (halive : w.sched.halted = none ∧ w.intr.halted = false) (hnap : w.call isrThread = some .nanosleep)
    (hopen : w.intr.board.splDepth = 0) :
    nodeStep s w (.irq 0) = some (bmkIsr w 0) ∧ Napping (bmkIsr w 0) isrThread (-1) := by
  have hstep : nodeStep s w (.irq 0) = some (bmkIsr w 0) :=
    nodeStep_of_enabled halive (by simp [nodeEnabled, hopen])
  refine ⟨hstep, h.inv.step hstep, h.created, ?_, .inl ⟨hnap, h.user_of_call hnap⟩⟩
  simp [bmkIsr, Node.does, effect, bmkSchedWake, setRunnable, setFlags, bmkSchedSetwakeup]

end Napping

/-! ### The hypercall -/

variable {enumRumpclock : RumpClock} {sec : Int64} {nanos : Int32}

theorem nanosleep_naps (h : ArmedInv w) {time : Int} (hstep : nodeStep s w (.nanosleep time) = some w') :
    w'.call w.sched.currentThread = some .nanosleep ∧
      Napping w' w.sched.currentThread ((w.clock + time).bmod (2 ^ 64)) := by
  have hinv := h.step hstep
  obtain ⟨-, hmay, rfl⟩ := nodeStep_inv hstep
  have hnap : (nodeEffect s w (.nanosleep time)).call w.sched.currentThread = some .nanosleep := by
    simp only [nodeEffect, Node.setCall, Function.update_self]
  refine ⟨hnap, hinv, h.sched.2.current_created, ?_, .inl ⟨hnap, (mayCall_inv hmay).1⟩⟩
  simp only [nodeEffect, Node.does, Node.setCall, effect, bmkSchedSetwakeup, Function.update_self]

/-- `rumpuser_clock_sleep` adds the time it is given to the clock, whichever clock was asked for. -/
theorem clockSleep_naps (h : ArmedInv w)
    (hstep : nodeStep s w (rumpuserClockSleep enumRumpclock sec nanos) = some w') :
    w'.call w.sched.currentThread = some .nanosleep ∧
      Napping w' w.sched.currentThread
        ((bmkClockNow w.clock + duration sec.toInt nanos.toInt).bmod (2 ^ 64)) := by
  have hsum : ((w.clock : Int) + (nanoseconds sec nanos.toInt64).toInt64.toInt).bmod (2 ^ 64) =
      (bmkClockNow w.clock + duration sec.toInt nanos.toInt).bmod (2 ^ 64) := by
    unfold bmkClockNow
    rw [nanoseconds_toInt, Int32.toInt_toInt64, Int.add_bmod_bmod, Int.bmod_add_bmod]
  rw [← hsum]
  exact nanosleep_naps h hstep

/-- When the sum is the moment that was asked for. -/
theorem moment_iff {now : Int} (hnow : -2 ^ 63 ≤ now ∧ now < 2 ^ 63)
    (hduration : 0 ≤ duration sec.toInt nanos.toInt) :
    (now + duration sec.toInt nanos.toInt).bmod (2 ^ 64) = enumRumpclock.moment now sec nanos ∧
        0 ≤ enumRumpclock.moment now sec nanos ↔
      enumRumpclock = .relwall ∧ 0 ≤ now + duration sec.toInt nanos.toInt ∧
      now + duration sec.toInt nanos.toInt < 2 ^ 63 ∨
        enumRumpclock = .absmono ∧ now = 0 ∧ duration sec.toInt nanos.toInt < 2 ^ 63 := by
  cases enumRumpclock with
  | relwall =>
      simp only [RumpClock.moment, bmod_eq_self_iff, true_and, reduceCtorEq, false_and, or_false]
      omega
  | absmono =>
      simp only [RumpClock.moment, true_and, reduceCtorEq, false_and, false_or]
      rw [Int.bmod_def]
      split <;> omega

omit [DecidableEq Wh] in
/-- The interrupt thread is outside the masked part of its loop when it calls out. -/
theorem open_of_mayCall (h : IsrInv w) (hmay : w.mayCall = true)
    (hisr : w.sched.currentThread = isrThread) :
    w.intr.board.splDepth = 0 := by
  have hout := IdleInv.outside_of_mayCall hmay hisr
  rw [h.depth]
  cases hpc : w.pc <;> simp_all [IsrPc.outside, IsrPc.masked]

/-- For every clock reading and all arguments, a call of `rumpuser_clock_sleep` sets the thread's wakeup
    time to exactly the moment that was asked for, before which no scan gives the thread the processor and
    from which on no scan that comes to it leaves it asleep, if and only if the caller is not the interrupt
    thread, and it asks either for a duration whose end is in the range of the clock, or for an absolute
    time in that range while the clock shows zero. -/
theorem clock_sleep_ends_iff {intr : IntrWorld Fun Arg} (hdepth : intr.board.splDepth = 0) {clock : Nat}
    {events : List (NodeEvent Wh Fun Arg)}
    (hrun : run (nodeStep s) (Node.start intr clock) events = some w) (hsec : 0 ≤ sec.toInt)
    (hnsec : 0 ≤ nanos.toInt ∧ nanos.toInt < 10 ^ 9)
    (hsleep : nodeStep s w (rumpuserClockSleep enumRumpclock sec nanos) = some w') :
    SleepsUntil s w' w.sched.currentThread (enumRumpclock.moment (bmkClockNow w.clock) sec nanos) ↔
      w.sched.currentThread ≠ isrThread ∧
        (enumRumpclock = .relwall ∧ 0 ≤ bmkClockNow w.clock + duration sec.toInt nanos.toInt ∧
            bmkClockNow w.clock + duration sec.toInt nanos.toInt < 2 ^ 63 ∨
          enumRumpclock = .absmono ∧ bmkClockNow w.clock = 0 ∧
          duration sec.toInt nanos.toInt < 2 ^ 63) := by
  obtain ⟨harmed, hisr⟩ : ArmedInv w ∧ IsrInv w :=
    run_invariant (I := fun w => ArmedInv w ∧ IsrInv w)
      (fun _ _ _ hw hstep => ⟨hw.1.step hstep, hw.2.step hstep⟩)
      ⟨.start intr clock, .start hdepth clock⟩ hrun
  have hduration : 0 ≤ duration sec.toInt nanos.toInt := by
    unfold duration
    omega
  rw [← moment_iff (bmkClockNow_range w.clock) hduration]
  obtain ⟨hnap, hnaps⟩ := clockSleep_naps harmed hsleep
  constructor
  · intro hsleeps
    have halive : w'.sched.halted = none ∧ w'.intr.halted = false := by
      have hbefore := node_alive hsleep
      obtain ⟨-, -, rfl⟩ := nodeStep_inv hsleep
      exact hbefore
    refine ⟨fun hcurrent => ?_, ?_⟩
    · have hopen : w'.intr.board.splDepth = 0 := by
        have hbefore := open_of_mayCall hisr (nodeStep_inv hsleep).2.1 hcurrent
        obtain ⟨-, -, rfl⟩ := nodeStep_inv hsleep
        exact hbefore
      rw [hcurrent] at hnap hnaps hsleeps
      obtain ⟨hirq, hwoken⟩ := hnaps.interrupted (s := s) halive hnap hopen
      obtain ⟨v, hv, hscheduling, hvnaps⟩ := hwoken.enters (s := s) halive hnap
      have hends := hsleeps.undispatched [.irq 0, .advance] v (by simp only [run, hirq, hv])
        (by simp) hscheduling
      have hnone := (hvnaps.endsAt_iff hscheduling).mp hends
      omega
    · obtain ⟨v, hv, hscheduling, hvnaps⟩ := hnaps.enters (s := s) halive hnap
      have hends := hsleeps.undispatched [.advance] v (by simp only [run, hv]) (by simp) hscheduling
      exact (hvnaps.endsAt_iff hscheduling).mp hends
  · rintro ⟨hne, hexact, hset⟩
    rw [hexact] at hnaps
    exact hnaps.sleepsUntil hne hset

/-- At clock reading 5, `init` sleeps for ten nanoseconds. -/
theorem clock_sleep_ends_iff_relwall :
    ∃ w' : Node Unit Unit Unit,
      nodeStep ⟨0, 0, 0, 0⟩ (Node.start noHandlers 5) (rumpuserClockSleep .relwall 0 10) = some w' ∧
      (w'.sched.tcb 0).wakeupTime = 15 ∧ SleepsUntil ⟨0, 0, 0, 0⟩ w' 0 15 := by
  obtain ⟨w', hsleep, hwakeup⟩ : ∃ w' : Node Unit Unit Unit,
      nodeStep ⟨0, 0, 0, 0⟩ (Node.start noHandlers 5) (rumpuserClockSleep .relwall 0 10) = some w' ∧
      (w'.sched.tcb 0).wakeupTime = 15 :=
    Option.map_eq_some_iff.mp (by decide +kernel)
  have hrun : run (nodeStep ⟨0, 0, 0, 0⟩) (Node.start noHandlers 5 : Node Unit Unit Unit) [] =
      some (Node.start noHandlers 5) := rfl
  have hmoment : RumpClock.relwall.moment (bmkClockNow 5) 0 10 = 15 := by decide
  have hsleeps : SleepsUntil ⟨0, 0, 0, 0⟩ w' 0 (RumpClock.relwall.moment (bmkClockNow 5) 0 10) :=
    (clock_sleep_ends_iff (w := Node.start noHandlers 5) rfl hrun (by decide) (by decide) hsleep).mpr
      (by decide)
  rw [hmoment] at hsleeps
  exact ⟨w', hsleep, hwakeup, hsleeps⟩

/-- An absolute time is added to the clock: at five seconds, `init` asks to sleep until ten seconds, and a
    pass at ten seconds leaves it asleep until fifteen.  A duration of `10^10` seconds is set as a negative
    wakeup time, that is, as none. -/
theorem clock_sleep_absolute_oversleeps :
    (∃ w : Node Unit Unit Unit, run (nodeStep ⟨0, 0, 0, 0⟩) (Node.start noHandlers 5000000000)
        [rumpuserClockSleep .absmono 10 0, .advance, .pass, .tick 5000000000, .thread .sched, .pass] =
        some w ∧
      RumpClock.absmono.moment 5000000000 10 0 = 10000000000 ∧ w.clock = 10000000000 ∧
      (w.sched.tcb 0).wakeupTime = 15000000000 ∧ isRunnable w.sched.tcb 0 = false) ∧
    ∃ w : Node Unit Unit Unit, run (nodeStep ⟨0, 0, 0, 0⟩) (Node.start noHandlers 5)
        [rumpuserClockSleep .relwall 10000000000 0, .advance, .pass] = some w ∧
      (w.sched.tcb 0).wakeupTime = -8446744073709551611 ∧ isRunnable w.sched.tcb 0 = false := by
  have habsolute : (run (nodeStep ⟨0, 0, 0, 0⟩) (Node.start noHandlers 5000000000 : Node Unit Unit Unit)
      [rumpuserClockSleep .absmono 10 0, .advance, .pass, .tick 5000000000, .thread .sched, .pass]).map
      (fun w => (w.clock, (w.sched.tcb 0).wakeupTime, isRunnable w.sched.tcb 0)) =
        some (10000000000, 15000000000, false) := by
    decide +kernel
  have hoverflow : (run (nodeStep ⟨0, 0, 0, 0⟩) (Node.start noHandlers 5 : Node Unit Unit Unit)
      [rumpuserClockSleep .relwall 10000000000 0, .advance, .pass]).map
      (fun w => ((w.sched.tcb 0).wakeupTime, isRunnable w.sched.tcb 0)) = some (-8446744073709551611,
        false) := by
    decide +kernel
  obtain ⟨w, hrun, hends⟩ := Option.map_eq_some_iff.mp habsolute
  obtain ⟨v, hrun', hends'⟩ := Option.map_eq_some_iff.mp hoverflow
  obtain ⟨hclock, hends⟩ := Prod.mk.inj hends
  obtain ⟨hwakeup, hblocked⟩ := Prod.mk.inj hends
  obtain ⟨hwakeup', hblocked'⟩ := Prod.mk.inj hends'
  exact ⟨⟨w, hrun, by decide, hclock, hwakeup, hblocked⟩, v, hrun', hwakeup', hblocked'⟩

end RumpBaremetal
