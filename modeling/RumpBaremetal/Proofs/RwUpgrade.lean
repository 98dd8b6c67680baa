/-
Module: RumpBaremetal.Proofs.RwUpgrade
Layer: Proofs
Purpose: What downgrades and upgrades do to the account of a reader/writer lock.  `rumpuser_rw_downgrade`
  marks the lock with a count of `-1` and leaves the writer in it; nothing but `rumpuser_rw_tryupgrade`
  knows the mark, and that call turns it into a count of one.  Both set the count and forget what it was.
Trusted boundary: none (fully proved)
Main exports: FieldsMove, fields_step, UpgradeInv, Downgraded, Upgraded, rw_downgrade_account
-/
import RumpBaremetal.Fiber.RwUpgrade
import RumpBaremetal.Proofs.Rwlock

namespace RumpBaremetal.Rwlock

open StepSystem

variable {Tid Lwp : Type*} [DecidableEq Tid] {w w' : World Tid Lwp}

/-! ### What a step does to the fields of the lock -/

/-- The ways in which one step may change fields and holds. -/
inductive FieldsMove (w w' : World Tid Lwp) : Prop
  | same (tls : w'.tls = w.tls) (rw : w'.rw = w.rw) (held : w'.held = w.held)
  | entered (lk : Rumprwlock) (free : w.rw.o = none) (tls : w'.tls = w.tls)
      (rw : w'.rw = (Rwlock.entered w lk).rw)
      (held : w'.held = (Rwlock.entered w lk).held)
  | exited (holds : w.holds = true) (tls : w'.tls = w.tls) (rw : w'.rw = (rumpuserRwExit w).rw)
      (held : w'.held = (rumpuserRwExit w).held)

theorem fields_tryenter (lk : Rumprwlock) :
    FieldsMove w ((tryenter w lk).getD w) := by
  rcases tryenter_cases w lk with ⟨heq, -⟩ | ⟨heq, ho, -⟩
  · rw [heq]
    exact .same rfl rfl rfl
  · rw [heq]
    exact .entered lk ho rfl rfl rfl

theorem fields_enterLoop (lk : Rumprwlock) (now : Nat) : FieldsMove w (enterLoop w lk now) := by
  rcases tryenter_cases w lk with ⟨heq, -⟩ | ⟨heq, ho, -⟩
  · rw [enterLoop_of_none heq]
    exact .same rfl rfl rfl
  · rw [enterLoop_of_some heq]
    exact .entered lk ho rfl rfl rfl

/-- Fields, holds, caller and lwps are all that counts. -/
theorem FieldsMove.congr {v : World Tid Lwp} (h : FieldsMove v w') (hrw : v.rw = w.rw)
    (hheld : v.held = w.held) (htls : v.tls = w.tls) (hcaller : v.fib.currentThread = w.fib.currentThread) :
    FieldsMove w w' := by
  cases h with
  | same tls rw held => exact .same (tls.trans htls) (rw.trans hrw) (held.trans hheld)
  | entered lk free tls rw held =>
      refine .entered lk (hrw ▸ free) (tls.trans htls) ?_ ?_
      · simp only [rw, Rwlock.entered, hrw, htls, hcaller]
      · simp only [held, Rwlock.entered, hheld, hcaller]
  | exited holds tls rw held =>
      refine .exited ?_ (tls.trans htls) ?_ ?_
      · rw [World.holds, hheld, hcaller] at holds
        exact holds
      · rw [rw, rumpuserRwExit, rumpuserRwExit, hrw]
      · rw [held, rumpuserRwExit, rumpuserRwExit, hheld, hcaller]

theorem fields_resume (now : Nat) : FieldsMove w (resume w now) := by
  unfold resume
  split
  · exact .same rfl rfl rfl
  · exact fields_enterLoop _ now
  · rename_i lk hpc
    exact (fields_enterLoop (w := { w with fib := waitEnd w.fib lk.queue }) lk now).congr rfl rfl rfl
      (waitEnd_currentThread w.fib lk.queue)
  · exact .same rfl rfl rfl

theorem fields_step {e : Event Tid} (hstep : step w e = some w') : FieldsMove w w' := by
  obtain ⟨henabled, rfl⟩ := step_inv hstep
  cases e with
  | enter lk =>
      simp only [effect, rumpuserRwEnter]
      rcases tryenter_cases w lk with ⟨heq, -⟩ | ⟨heq, ho, -⟩
      · rw [heq]
        exact .same rfl rfl rfl
      · rw [heq]
        exact .entered lk ho rfl rfl rfl
  | tryenter lk =>
      cases lk with
      | none => exact .same rfl rfl rfl
      | some lk => exact fields_tryenter lk
  | exit =>
      simp only [enabled, Bool.and_eq_true] at henabled
      exact .exited henabled.2 rfl rfl rfl
  | resume now => exact fields_resume now
  | cpu e => exact .same rfl rfl rfl

/-! ### The account -/

/-- Enters and exits keep the account, right or wrong. -/
theorem FieldsMove.account (h : FieldsMove w w') (bound : Bound w.tls) {drift : Int}
    (haccount : Account w drift) :
    Account w' drift := by
  cases h with
  | same tls rw held =>
      rw [Account, rw, held]
      exact haccount
  | entered lk free tls rw held =>
      rw [Account, rw, held]
      exact haccount.entered (bound.nonNull _) lk free
  | exited holds tls rw held =>
      rw [Account, rw, held]
      exact haccount.exit holds

/-- A lock with an owner is held. -/
theorem FieldsMove.owned (h : FieldsMove w w') (howned : w.held = [] → w.rw.o = none) :
    w'.held = [] → w'.rw.o = none := by
  cases h with
  | same tls rw held =>
      rw [rw, held]
      exact howned
  | entered lk free tls rw held =>
      rw [held]
      exact fun hnil => absurd hnil (List.cons_ne_nil _ _)
  | exited holds tls rw held =>
      intro _
      rw [rw]
      exact Inv.exit_owner w

theorem FieldsMove.tls_eq (h : FieldsMove w w') : w'.tls = w.tls := by
  cases h with
  | same tls rw held => exact tls
  | entered lk free tls rw held => exact tls
  | exited holds tls rw held => exact tls

/-! ### Downgrades and upgrades -/

variable [DecidableEq Lwp] {s s' : UpgradeWorld Tid Lwp}

theorem relabel_length (t : Tid) (lk : Rumprwlock) (held : List (Tid × Rumprwlock)) :
    (relabel t lk held).length = held.length := by
  induction held with
  | nil => rfl
  | cons hold held ih =>
      unfold relabel
      split
      · rfl
      · rw [List.length_cons, List.length_cons, ih]

theorem relabel_ne_nil {t : Tid} {lk : Rumprwlock} {held : List (Tid × Rumprwlock)} (h : held ≠ []) :
    relabel t lk held ≠ [] := by
  rw [← List.length_pos_iff, relabel_length]
  exact List.length_pos_iff.mpr h

omit [DecidableEq Lwp] in
theorem held_ne_nil (hholds : w.holds = true) : w.held ≠ [] := by
  intro hnil
  simp [World.holds, hnil] at hholds

/-- What the three kinds of steps are. -/
theorem upgradeStep_lock {e : Event Tid} (h : upgradeStep s (.lock e) = some s') :
    FieldsMove s.base s'.base ∧ s'.drift = s.drift := by
  obtain ⟨w, hstep, rfl⟩ := Option.map_eq_some_iff.mp h
  exact ⟨fields_step hstep, rfl⟩

theorem upgradeStep_downgrade (h : upgradeStep s .downgrade = some s') :
    s.base.held ≠ [] ∧ s.base.rw.o = s.base.tls s.base.fib.currentThread ∧
      s' = s.converted { v := -1, o := s.base.tls s.base.fib.currentThread } .reader := by
  simp only [upgradeStep] at h
  split at h
  · rename_i hcall
    obtain ⟨rw, hrw, rfl⟩ := Option.map_eq_some_iff.mp h
    unfold rumpuserRwDowngrade at hrw
    split at hrw
    · rename_i howner
      obtain rfl := Option.some.inj hrw
      exact ⟨held_ne_nil hcall.2, howner, by rw [howner]⟩
    · cases hrw
  · cases h

theorem upgradeStep_tryupgrade (h : upgradeStep s .tryupgrade = some s') :
    s.base.held ≠ [] ∧ (s.base.rw.v ≠ -1 ∧ s' = s ∨
      s.base.rw.v = -1 ∧
      s' = s.converted { v := 1, o := s.base.tls s.base.fib.currentThread } .writer) := by
  simp only [upgradeStep] at h
  split at h
  · rename_i hcall
    refine ⟨held_ne_nil hcall.2, ?_⟩
    by_cases hmark : s.base.rw.v = -1
    · simp only [rumpuserRwTryupgrade, if_pos hmark] at h
      exact .inr ⟨hmark, (Option.some.inj h).symm⟩
    · simp only [rumpuserRwTryupgrade, if_neg hmark] at h
      exact .inl ⟨hmark, (Option.some.inj h).symm⟩
  · cases h

structure UpgradeInv (s : UpgradeWorld Tid Lwp) : Prop where
  bound : Bound s.base.tls
  account : Account s.base s.drift
  owned : s.base.held = [] → s.base.rw.o = none

namespace UpgradeInv

omit [DecidableEq Lwp] in
theorem init {tls : Tid → Option Lwp} (bound : Bound tls) (tcb : Tcbs Tid) (running : Tid) :
    UpgradeInv (upgradeInit tls tcb running) := ⟨bound, rfl, fun _ => rfl⟩

omit [DecidableEq Lwp] in
theorem converted (h : UpgradeInv s) (hheld : s.base.held ≠ []) (rw : RumpuserRw Lwp) (lk : Rumprwlock) :
    UpgradeInv (s.converted rw lk) where
  bound := h.bound
  account := by
    have hback := Int32.ofInt_toInt rw.v
    simp only [Account, UpgradeWorld.converted, relabel_length]
    rw [← hback]
    congr 1
    rw [hback]
    ring
  owned := fun hnil => absurd hnil (relabel_ne_nil hheld)

theorem step {e : UpgradeEvent Tid} (h : UpgradeInv s) (hstep : upgradeStep s e = some s') :
    UpgradeInv s' := by
  cases e with
  | lock e =>
      obtain ⟨hmove, hdrift⟩ := upgradeStep_lock hstep
      refine ⟨hmove.tls_eq ▸ h.bound, ?_, hmove.owned h.owned⟩
      rw [hdrift]
      exact hmove.account h.bound h.account
  | downgrade =>
      obtain ⟨hheld, -, rfl⟩ := upgradeStep_downgrade hstep
      exact h.converted hheld _ _
  | tryupgrade =>
      obtain ⟨hheld, ⟨-, rfl⟩ | ⟨-, rfl⟩⟩ := upgradeStep_tryupgrade hstep
      · exact h
      · exact h.converted hheld _ _

omit [DecidableEq Tid] [DecidableEq Lwp] in
/-- When everybody has left, the count is what the account is off by. -/
theorem released (h : UpgradeInv s) (hnil : s.base.held = []) :
    s.base.rw.o = none ∧ s.base.rw.v = Int32.ofInt s.drift := by
  have ho := h.owned hnil
  refine ⟨ho, h.account.trans ?_⟩
  simp [hnil, RumpuserRw.owners, ho]

/-- Enters and exits alone never set the account right. -/
theorem released_after {events : List (Event Tid)} (h : UpgradeInv s)
    (hrun : run upgradeStep s (events.map .lock) = some s') (hnil : s'.base.held = []) :
    s'.base.rw.o = none ∧ s'.base.rw.v = Int32.ofInt s.drift := by
  have hkeep : UpgradeInv s' ∧ s'.drift = s.drift := by
    refine run_invariant_of_meets (C := fun _ e => ∃ e', e = .lock e')
      (I := fun u => UpgradeInv u ∧ u.drift = s.drift) ?_ ⟨h, rfl⟩ (meets_of_mem ?_ s) hrun
    · rintro u e u' ⟨hu, hdrift⟩ ⟨e', rfl⟩ hstep
      exact ⟨hu.step hstep, (upgradeStep_lock hstep).2.trans hdrift⟩
    · intro e he _
      obtain ⟨e', -, rfl⟩ := List.mem_map.mp he
      exact ⟨e', rfl⟩
  obtain ⟨ho, hv⟩ := hkeep.1.released hnil
  exact ⟨ho, by rw [hv, hkeep.2]⟩

end UpgradeInv

/-- What a call of `rumpuser_rw_downgrade` leaves.  The caller is still the writer and no reader, nobody
    gets in, and when it and everybody after it has left, the count is below zero. -/
structure Downgraded (s s' : UpgradeWorld Tid Lwp) : Prop where
  fields : s'.base.rw = { v := -1, o := s.base.tls s.base.fib.currentThread }
  heldWriter : rumpuserRwHeld s'.base.rw (s.base.tls s.base.fib.currentThread) .writer = true
  heldReader : rumpuserRwHeld s'.base.rw (s.base.tls s.base.fib.currentThread) .reader = false
  shut : ∀ wwaitEmpty l lk, rumpuserRwTryenter s'.base.rw wwaitEmpty l (some lk) = .error .EBUSY
  left : ∀ (events : List (Event Tid)) (s'' : UpgradeWorld Tid Lwp),
    run upgradeStep s' (events.map .lock) = some s'' → s''.base.held = [] →
      s''.base.rw.o = none ∧ s''.base.rw.v.toInt = -s.base.held.length ∧ s''.base.rw.v ≠ 0

/-- What a successful call of `rumpuser_rw_tryupgrade` leaves.  The caller is the writer and the lock counts
    one reader. -/
structure Upgraded (s s' : UpgradeWorld Tid Lwp) : Prop where
  fields : s'.base.rw = { v := 1, o := s.base.tls s.base.fib.currentThread }
  left : ∀ (events : List (Event Tid)) (s'' : UpgradeWorld Tid Lwp),
    run upgradeStep s' (events.map .lock) = some s'' → s''.base.held = [] →
      s''.base.rw.o = none ∧ s''.base.rw.v.toInt = 2 - s.base.held.length

theorem UpgradeInv.downgraded (h : UpgradeInv s) (hfew : s.base.held.length < 2 ^ 31)
    (hstep : upgradeStep s .downgrade = some s') : Downgraded s s' := by
  have h' := h.step hstep
  obtain ⟨hheld, -, rfl⟩ := upgradeStep_downgrade hstep
  obtain ⟨l, hl⟩ := Option.ne_none_iff_exists'.mp (h.bound.nonNull s.base.fib.currentThread)
  refine ⟨rfl, decide_eq_true rfl, rfl, fun wwaitEmpty l' lk => ?_, fun events s'' hrun hnil => ?_⟩
  · cases lk <;> simp [UpgradeWorld.converted, rumpuserRwTryenter, hl]
  · obtain ⟨ho, hv⟩ := h'.released_after hrun hnil
    have hpos := List.length_pos_iff.mpr hheld
    have hdrift : (s.converted { v := -1, o := s.base.tls s.base.fib.currentThread } .reader).drift =
        -(s.base.held.length : Int) := by
      simp [UpgradeWorld.converted, RumpuserRw.owners, hl]
    have hcount : s''.base.rw.v.toInt = -(s.base.held.length : Int) := by
      rw [hv, hdrift]
      exact Int32.toInt_ofInt_of_le (by omega) (by omega)
    refine ⟨ho, hcount, fun hzero => ?_⟩
    rw [hzero, Int32.toInt_zero] at hcount
    omega

theorem UpgradeInv.upgraded (h : UpgradeInv s) (hfew : s.base.held.length < 2 ^ 31)
    (hmark : s.base.rw.v = -1) (hstep : upgradeStep s .tryupgrade = some s') :
    Upgraded s s' := by
  have h' := h.step hstep
  obtain ⟨-, ⟨hno, -⟩ | ⟨-, rfl⟩⟩ := upgradeStep_tryupgrade hstep
  · exact absurd hmark hno
  · obtain ⟨l, hl⟩ := Option.ne_none_iff_exists'.mp (h.bound.nonNull s.base.fib.currentThread)
    refine ⟨rfl, fun events s'' hrun hnil => ?_⟩
    obtain ⟨ho, hv⟩ := h'.released_after hrun hnil
    have hdrift : (s.converted { v := 1, o := s.base.tls s.base.fib.currentThread } .writer).drift =
        2 - (s.base.held.length : Int) := by
      simp [UpgradeWorld.converted, RumpuserRw.owners, hl]
    rw [hv, hdrift]
    exact ⟨ho, Int32.toInt_ofInt_of_le (by omega) (by omega)⟩

omit [DecidableEq Tid] [DecidableEq Lwp] in
/-- While the account is even and the count shows it, there is no mark to upgrade from. -/
theorem UpgradeInv.unmarked (h : UpgradeInv s) (heven : s.drift = 0) (hfew : s.base.held.length < 2 ^ 31) :
    s.base.rw.v ≠ -1 := by
  have hcount : s.base.rw.v.toInt = s.base.held.length - s.base.rw.owners := by
    have howners : s.base.rw.owners = 0 ∨ s.base.rw.owners = 1 := by
      unfold RumpuserRw.owners
      split <;> simp
    rw [h.account, heven]
    rw [Int32.toInt_ofInt_of_le (by omega) (by omega)]
    ring
  have hnonneg : 0 ≤ s.base.rw.v.toInt := by
    rw [hcount]
    unfold RumpuserRw.owners
    split
    · rename_i ho
      have hpos : 0 < s.base.held.length := by
        refine List.length_pos_of_ne_nil fun hnil => ?_
        rw [h.owned hnil] at ho
        cases ho
      omega
    · omega
  intro hmark
  rw [hmark] at hnonneg
  exact absurd hnonneg (by decide)

/-- Before the call there are fewer than `2^31 - 1` unmatched enters. -/
def FewHolds (s : UpgradeWorld Tid Lwp) (_ : UpgradeEvent Tid) : Prop := s.base.held.length < Counter.intMax

instance (s : UpgradeWorld Tid Lwp) (e : UpgradeEvent Tid) : Decidable (FewHolds s e) :=
  inferInstanceAs (Decidable (s.base.held.length < Counter.intMax))

omit [DecidableEq Lwp] in
/-- A step adds one hold at most. -/
theorem FieldsMove.length_le (h : FieldsMove w w') : w'.held.length ≤ w.held.length + 1 := by
  cases h with
  | same tls rw held =>
      rw [held]
      omega
  | entered lk free tls rw held =>
      rw [held]
      exact le_rfl
  | exited holds tls rw held =>
      rw [held]
      exact (List.length_eraseP_le).trans (Nat.le_succ _)

theorem FewHolds.step {e : UpgradeEvent Tid} (h : FewHolds s e) (hstep : upgradeStep s e = some s') :
    s'.base.held.length < 2 ^ 31 := by
  simp only [FewHolds, Counter.intMax] at h
  cases e with
  | lock e =>
      have hle := (upgradeStep_lock hstep).1.length_le
      omega
  | downgrade =>
      obtain ⟨-, -, rfl⟩ := upgradeStep_downgrade hstep
      simp only [UpgradeWorld.converted, relabel_length]
      omega
  | tryupgrade =>
      obtain ⟨-, ⟨-, rfl⟩ | ⟨-, rfl⟩⟩ := upgradeStep_tryupgrade hstep
      · omega
      · simp only [UpgradeWorld.converted, relabel_length]
        omega

section Runs

variable {tls : Tid → Option Lwp} {tcb : Tcbs Tid} {running : Tid} {events : List (UpgradeEvent Tid)}

theorem upgradeInv_run (bound : Bound tls)
    (hfew : Meets upgradeStep FewHolds (upgradeInit tls tcb running) events)
    (hrun : run upgradeStep (upgradeInit tls tcb running) events = some s) :
    UpgradeInv s ∧ s.base.held.length < 2 ^ 31 :=
  run_invariant_of_meets (I := fun u => UpgradeInv u ∧ u.base.held.length < 2 ^ 31)
    (fun _ _ _ hu hholds hstep => ⟨hu.1.step hstep, hholds.step hstep⟩)
    ⟨UpgradeInv.init bound tcb running, by simp [upgradeInit, rumpuserRwInit]⟩ hfew hrun

/-- Without downgrades no upgrade succeeds, and the account stays even. -/
theorem even_run (bound : Bound tls)
    (hfew : Meets upgradeStep FewHolds (upgradeInit tls tcb running) events)
    (hrun : run upgradeStep (upgradeInit tls tcb running) events = some s) (hnone : .downgrade ∉ events) :
    s.drift = 0 := by
  have hboth :
      Meets upgradeStep (fun s e => FewHolds s e ∧ e ≠ .downgrade) (upgradeInit tls tcb running) events :=
    hfew.and (meets_of_mem (fun e he _ => ne_of_mem_of_not_mem he hnone) _)
  have hkeep : UpgradeInv s ∧ s.drift = 0 := by
    refine run_invariant_of_meets (I := fun u => UpgradeInv u ∧ u.drift = 0) ?_
      ⟨UpgradeInv.init bound tcb running, rfl⟩ hboth hrun
    rintro u e u' ⟨hu, heven⟩ ⟨hholds, hkind⟩ hstep
    refine ⟨hu.step hstep, ?_⟩
    cases e with
    | lock e => exact (upgradeStep_lock hstep).2.trans heven
    | downgrade => exact absurd rfl hkind
    | tryupgrade =>
        obtain ⟨-, ⟨-, rfl⟩ | ⟨hmark, -⟩⟩ := upgradeStep_tryupgrade hstep
        · exact heven
        · simp only [FewHolds, Counter.intMax] at hholds
          exact absurd hmark (hu.unmarked heven (by omega))
  exact hkeep.2

end Runs

/-- In every run of enters, exits, downgrades and upgrades with fewer than `2^31` holds at a time: as long
    as nobody has downgraded, no upgrade succeeds and the lock is free when everybody has left.  A downgrade
    never does what its name says, and leaves the lock miscounted; an upgrade from it counts the caller
    twice. -/
theorem rw_downgrade_account {tls : Tid → Option Lwp} (bound : Bound tls) {tcb : Tcbs Tid} {running : Tid}
    {events : List (UpgradeEvent Tid)}
    (hfew : Meets upgradeStep FewHolds (upgradeInit tls tcb running) events)
    (hrun : run upgradeStep (upgradeInit tls tcb running) events = some s) :
    (.downgrade ∉ events →
      (s.base.held = [] → s.base.rw.o = none ∧ s.base.rw.v = 0) ∧
      rumpuserRwTryupgrade s.base.rw (s.base.tls s.base.fib.currentThread) = .error .EBUSY) ∧
    (∀ s', upgradeStep s .downgrade = some s' → Downgraded s s') ∧
    (∀ s', upgradeStep s .tryupgrade = some s' → s.base.rw.v ≠ -1 ∧ s' = s ∨ s.base.rw.v = -1 ∧
      Upgraded s s') := by
  obtain ⟨hinv, hholds⟩ := upgradeInv_run bound hfew hrun
  refine ⟨fun hnone => ?_, fun s' hstep => hinv.downgraded hholds hstep, fun s' hstep => ?_⟩
  · have heven := even_run bound hfew hrun hnone
    refine ⟨fun hnil => ?_, if_neg (hinv.unmarked heven hholds)⟩
    obtain ⟨ho, hv⟩ := hinv.released hnil
    rw [heven] at hv
    exact ⟨ho, hv⟩
  · obtain ⟨-, ⟨hmark, heq⟩ | ⟨hmark, -⟩⟩ := upgradeStep_tryupgrade hstep
    · exact .inl ⟨hmark, heq⟩
    · exact .inr ⟨hmark, hinv.upgraded hholds hmark hstep⟩

/-- A reader asks for an upgrade, does not get it, and leaves. -/
theorem rw_downgrade_account_reader :
    ∃ s : UpgradeWorld Nat Nat,
      run upgradeStep (upgradeInit some awake 0) [.lock (.enter .reader), .tryupgrade, .lock .exit] =
      some s ∧
      s.base.held = [] ∧ s.base.rw.o = none ∧ s.base.rw.v = 0 := by
  refine ⟨_, rfl, rfl, ?_⟩
  obtain ⟨hunmarked, -⟩ := @rw_downgrade_account _ _ _ _ _ some bound_some awake 0
    [.lock (.enter .reader), .tryupgrade, .lock .exit] (by decide) rfl
  exact (hunmarked (by decide)).1 rfl

/-- A writer enters and downgrades: it is still the writer and no reader, and no reader gets in beside it.
    After its exit nobody holds the lock, and its count is `-1`. -/
theorem rw_downgrade_miscounts :
    ∃ s s' s'' : UpgradeWorld Nat Nat,
      run upgradeStep (upgradeInit some awake 0) [.lock (.enter .writer)] = some s ∧
      s.base.held = [(0, .writer)] ∧ s.base.fib.currentThread = 0 ∧ s.base.fib.waithead .wwait = [] ∧
      upgradeStep s .downgrade = some s' ∧
      rumpuserRwHeld s'.base.rw (some 0) .writer = true ∧
      rumpuserRwHeld s'.base.rw (some 0) .reader = false ∧
      rumpuserRwTryenter s'.base.rw true (some 1) (some .reader) = .error .EBUSY ∧
      upgradeStep s' (.lock .exit) = some s'' ∧ s''.base.held = [] ∧ s''.base.rw = { v := -1, o := none } :=
  ⟨_, _, _, rfl, rfl, rfl, rfl, rfl, rfl, rfl, rfl, rfl, rfl, rfl⟩

end RumpBaremetal.Rwlock
