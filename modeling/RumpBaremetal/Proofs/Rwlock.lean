/-
Module: RumpBaremetal.Proofs.Rwlock
Layer: Proofs
Purpose: The reader/writer lock.  In every run its fields count the unmatched enters modulo the word, so
  they show their number as long as it fits, and no waiter is stranded.  Exclusion is another matter: the
  admission test for a writer looks at `o` only, so a writer gets in beside readers, and the exit of such a
  reader then clears the writer's hold.  `WriterAlone` is the condition on one step under which this does
  not happen.
Trusted boundary: none (fully proved)
Main exports: Account, Inv, inv_step, NoStranded, RwNoStranded, rw_no_stranded_waiter, Reflects,
  WriterAlone, RwSound, rw_exclusion, rw_exclusion_broken
-/
import RumpBaremetal.Fiber.Rwlock
import RumpBaremetal.Proofs.Wait

namespace RumpBaremetal.Rwlock

open StepSystem

variable {Tid Lwp : Type*} [DecidableEq Tid] {w : World Tid Lwp}

/-! ### The moves of the state -/

/-- The state behind a successful attempt to enter. -/
def entered (w : World Tid Lwp) (lk : Rumprwlock) : World Tid Lwp :=
  { w with
    rw := match lk with
      | .writer => { w.rw with o := w.tls w.fib.currentThread }
      | .reader => { w.rw with v := w.rw.v + 1 }
    held := (w.fib.currentThread, lk) :: w.held }

/-- The running thread has come back from `bmk_sched` and left its wait head. -/
def awoken (w : World Tid Lwp) (lk : Rumprwlock) : World Tid Lwp :=
  { goto w .outside with fib := waitEnd w.fib lk.queue }

omit [DecidableEq Tid] in
/-- Why an attempt fails, and what is known when it succeeds. -/
theorem tryenter_cases (w : World Tid Lwp) (lk : Rumprwlock) :
    (tryenter w lk = none ∧
        (w.rw.o.isSome ∨ lk = .reader ∧ w.rw.o = none ∧ w.fib.waithead .wwait ≠ [])) ∨
      (tryenter w lk = some (entered w lk) ∧ w.rw.o = none ∧
        (lk = .reader → w.fib.waithead .wwait = [])) := by
  cases ho : w.rw.o with
  | some l =>
      refine Or.inl ⟨?_, Or.inl rfl⟩
      cases lk <;> simp [tryenter, rumpuserRwTryenter, ho]
  | none =>
      cases lk with
      | writer =>
          refine Or.inr ⟨?_, rfl, by simp⟩
          simp [tryenter, rumpuserRwTryenter, ho, entered]
      | reader =>
          cases hqueue : w.fib.waithead .wwait with
          | nil =>
              refine Or.inr ⟨?_, rfl, fun _ => rfl⟩
              simp [tryenter, rumpuserRwTryenter, ho, hqueue, entered]
          | cons who rest =>
              refine Or.inl ⟨?_, Or.inr ⟨rfl, rfl, by simp⟩⟩
              simp [tryenter, rumpuserRwTryenter, ho, hqueue]

theorem enterLoop_of_none {lk : Rumprwlock} (h : tryenter w lk = none) (now : Nat) :
    enterLoop w lk now = asleep w lk now := by
  simp only [enterLoop, retry, h]

theorem enterLoop_of_some {w' : World Tid Lwp} {lk : Rumprwlock} (h : tryenter w lk = some w') (now : Nat) :
    enterLoop w lk now = goto w' (.enterSched lk) := by
  simp only [enterLoop, retry, h]

theorem enterLoop_awoken (lk : Rumprwlock) (now : Nat) :
    enterLoop { w with fib := waitEnd w.fib lk.queue } lk now = enterLoop (awoken w lk) lk now := by
  have heq : awoken w lk = goto { w with fib := waitEnd w.fib lk.queue } .outside := by
    simp [awoken, goto]
  rw [heq]
  refine (retry_congr (fun w => goto w .outside) ?_ ?_ ?_).symm
  · simp only [tryenter, goto]
    split <;> rfl
  · exact fun w => by simp [goto]
  · simp [asleep, goto]

/-! ### The invariant -/

/-- The fields of the lock are ahead of the unmatched enters by `drift`, modulo the word. -/
def Account (w : World Tid Lwp) (drift : Int) : Prop :=
  w.rw.v = Int32.ofInt (drift + w.held.length - w.rw.owners)

structure Inv (w : World Tid Lwp) : Prop where
  bound : Bound w.tls
  queues : Queues (fun t => (w.pc t).site) w.fib
  /-- A lock with a writer in it is held. -/
  owned : w.held = [] → w.rw.o = none
  account : Account w 0

/-- The hold that an exit gives up is one. -/
theorem holds_length (hholds : w.holds = true) :
    (w.held.eraseP fun hold => hold.1 = w.fib.currentThread).length + 1 = w.held.length := by
  obtain ⟨hold, hmem, heq⟩ := List.any_eq_true.mp hholds
  have hlen := List.length_eraseP_of_mem (p := fun hold => decide (hold.1 = w.fib.currentThread))
    hmem heq
  have hpos := List.length_pos_of_mem hmem
  omega

namespace Account

variable {drift : Int}

omit [DecidableEq Tid] in
/-- An enter counts on both sides. -/
theorem entered (h : Account w drift) (hnonNull : w.tls w.fib.currentThread ≠ none) (lk : Rumprwlock)
    (ho : w.rw.o = none) : Account (entered w lk) drift := by
  have hsome := Option.ne_none_iff_isSome.mp hnonNull
  unfold Account at h ⊢
  cases lk with
  | writer =>
      simp only [Rwlock.entered, RumpuserRw.owners, ho, hsome, if_true, List.length_cons] at h ⊢
      rw [h]
      congr 1
      push_cast
      simp
      ring
  | reader =>
      simp only [Rwlock.entered, RumpuserRw.owners, ho, List.length_cons] at h ⊢
      rw [h, show (1 : Int32) = Int32.ofInt 1 from rfl, ← Int32.ofInt_add]
      congr 1
      push_cast
      ring

/-- So does an exit, whichever field it changes. -/
theorem exit (h : Account w drift) (hholds : w.holds = true) : Account (rumpuserRwExit w) drift := by
  have hlen := holds_length hholds
  unfold Account at h ⊢
  cases ho : w.rw.o with
  | some l =>
      simp only [rumpuserRwExit, RumpuserRw.owners, ho, Option.isSome_some, if_true] at h ⊢
      rw [h]
      congr 1
      simp
      omega
  | none =>
      simp only [rumpuserRwExit, RumpuserRw.owners, ho, Option.isSome_none] at h ⊢
      simp only [Bool.false_eq_true, if_false, Option.isSome_none] at h ⊢
      rw [h, show (1 : Int32) = Int32.ofInt 1 from rfl, ← Int32.ofInt_sub]
      congr 1
      omega

end Account

namespace Inv

theorem init {tls : Tid → Option Lwp} (bound : Bound tls) (tcb : Tcbs Tid) (running : Tid) :
    Inv (rumpuserRwInit tls tcb running) where
  bound := bound
  queues := by
    refine ⟨?_, ?_, ?_, ?_⟩
    · simp [rumpuserRwInit, Pc.site]
    · simp [rumpuserRwInit]
    · simp [rumpuserRwInit, Pc.site]
    · simp [rumpuserRwInit, isRunnable, setRunnable]
  owned := fun _ => rfl
  account := rfl

omit [DecidableEq Tid] in
theorem setFib (h : Inv w) {fib : Fibers Tid Wq} (hqueues : Queues (fun t => (w.pc t).site) fib) :
    Inv { w with fib := fib } :=
  ⟨h.bound, hqueues, h.owned, h.account⟩

theorem goto (h : Inv w) {p : Pc} (hfrom : (w.pc w.fib.currentThread).site = none)
    (hsite : p.site = none) : Inv (goto w p) :=
  ⟨h.bound, h.queues.moved hfrom hsite, h.owned, h.account⟩

omit [DecidableEq Tid] in
theorem entered (h : Inv w) (lk : Rumprwlock) (ho : w.rw.o = none) : Inv (entered w lk) :=
  ⟨h.bound, h.queues, fun hnil => absurd hnil (List.cons_ne_nil _ _),
    h.account.entered (h.bound.nonNull _) lk ho⟩

theorem asleep (h : Inv w) (hfrom : (w.pc w.fib.currentThread).site = none) (lk : Rumprwlock)
    (now : Nat) : Inv (asleep w lk now) :=
  ⟨h.bound, h.queues.goesToSleep hfrom rfl now 0, h.owned, h.account⟩

theorem awoken (h : Inv w) {lk : Rumprwlock} (hfrom : w.pc w.fib.currentThread = .enterWait lk) :
    Inv (awoken w lk) :=
  ⟨h.bound, h.queues.comesBack (by simp [hfrom, Pc.site]) rfl, h.owned, h.account⟩

theorem exitWakeups (h : Inv w) (o : Option Lwp) :
    Queues (fun t => (w.pc t).site) (exitWakeups w.fib o) := by
  unfold Rwlock.exitWakeups
  split
  · split
    · exact h.queues.wakeupOne .wwait
    · exact h.queues
  · split
    · exact h.queues.wakeupAll .rwait
    · exact h.queues

theorem exit_owner (w : World Tid Lwp) : (rumpuserRwExit w).rw.o = none := by
  cases ho : w.rw.o <;> simp [rumpuserRwExit, ho]

theorem exit (h : Inv w) (hholds : w.holds = true) : Inv (rumpuserRwExit w) :=
  ⟨h.bound, h.exitWakeups _, fun _ => exit_owner w, h.account.exit hholds⟩

theorem enterLoop (h : Inv w) (hfrom : (w.pc w.fib.currentThread).site = none) (lk : Rumprwlock)
    (now : Nat) : Inv (enterLoop w lk now) := by
  rcases tryenter_cases w lk with ⟨heq, -⟩ | ⟨heq, ho, -⟩
  · rw [enterLoop_of_none heq]
    exact h.asleep hfrom lk now
  · rw [enterLoop_of_some heq]
    exact (h.entered lk ho).goto hfrom rfl

theorem resume (h : Inv w) (now : Nat) : Inv (resume w now) := by
  unfold Rwlock.resume
  split
  · exact h
  · rename_i lk hpc
    exact h.enterLoop (by simp [hpc, Pc.site]) lk now
  · rename_i lk hpc
    rw [enterLoop_awoken]
    exact (h.awoken hpc).enterLoop (by simp [Rwlock.awoken, Rwlock.goto, Pc.site]) lk now
  · rename_i lk hpc
    exact h.goto (by simp [hpc, Pc.site]) rfl

end Inv

theorem inv_step {w' : World Tid Lwp} {e : Event Tid} (h : Inv w) (hstep : step w e = some w') :
    Inv w' := by
  obtain ⟨henabled, rfl⟩ := step_inv hstep
  cases e with
  | enter lk =>
      have hpc := (runsAt_inv henabled).2
      simp only [effect, rumpuserRwEnter]
      rcases tryenter_cases w lk with ⟨heq, -⟩ | ⟨heq, ho, -⟩
      · rw [heq]
        exact h.goto (by simp [hpc, Pc.site]) rfl
      · rw [heq]
        exact h.entered lk ho
  | tryenter lk =>
      cases lk with
      | none => exact h
      | some lk =>
          rcases tryenter_cases w lk with ⟨heq, -⟩ | ⟨heq, ho, -⟩
          · simp only [effect, heq, Option.getD_none]
            exact h
          · simp only [effect, heq, Option.getD_some]
            exact h.entered lk ho
  | exit =>
      simp only [enabled, Bool.and_eq_true] at henabled
      exact h.exit henabled.2
  | resume now => exact h.resume now
  | cpu e =>
      obtain ⟨hcpu, hsite⟩ := cpuAllowed_inv henabled
      exact h.setFib (h.queues.cpu hcpu fun d hd => hsite (Or.inl ⟨d, hd⟩))

/-! ### Stranded waiters -/

/-- The thread has been taken off its queue and still has to try again. -/
def Pending (w : World Tid Lwp) (t : Tid) (lk : Rumprwlock) : Prop :=
  w.pc t = .enterWait lk ∧ w.fib.onlist t = false

/-- Waiting writers have a writer before them, or one on its way. -/
def WritersServed (w : World Tid Lwp) : Prop :=
  w.fib.waithead .wwait ≠ [] → w.rw.o.isSome ∨ ∃ t, Pending w t .writer

structure NoStranded (w : World Tid Lwp) : Prop where
  writers : WritersServed w
  readers : w.fib.waithead .rwait ≠ [] → w.held ≠ [] ∨ ∃ t lk, Pending w t lk

omit [DecidableEq Tid] in
theorem Inv.held_of_writer (h : Inv w) (ho : w.rw.o.isSome = true) : w.held ≠ [] := by
  intro hnil
  rw [h.owned hnil] at ho
  cases ho

theorem lk_of_site {p : Pc} {lk : Rumprwlock} (h : p.site = some lk.queue) : p = .enterWait lk := by
  cases p with
  | enterWait lk' => cases lk <;> cases lk' <;> simp_all [Pc.site, Rumprwlock.queue]
  | outside | enterUnsched _ | enterSched _ => simp [Pc.site] at h

namespace NoStranded

omit [DecidableEq Tid] in
/-- With a writer inside nobody is stranded. -/
theorem of_writer (hinv : Inv w) (ho : w.rw.o.isSome = true) : NoStranded w :=
  ⟨fun _ => Or.inl ho, fun _ => Or.inl (hinv.held_of_writer ho)⟩

omit [DecidableEq Tid] in
theorem frame {w' : World Tid Lwp} (h : NoStranded w)
    (hqueue : w'.fib.waithead = w.fib.waithead) (ho : w'.rw = w.rw) (hheld : w'.held = w.held)
    (hpending : ∀ t lk, Pending w t lk → Pending w' t lk) : NoStranded w' := by
  constructor
  · intro hne
    rw [hqueue] at hne
    rcases h.writers hne with hsome | ⟨t, ht⟩
    · exact Or.inl (ho ▸ hsome)
    · exact Or.inr ⟨t, hpending t _ ht⟩
  · intro hne
    rw [hqueue] at hne
    rcases h.readers hne with hsome | ⟨t, lk, ht⟩
    · exact Or.inl (hheld ▸ hsome)
    · exact Or.inr ⟨t, lk, hpending t lk ht⟩

theorem goto (h : NoStranded w) (hfrom : (w.pc w.fib.currentThread).site = none) (p : Pc) :
    NoStranded (goto w p) := by
  refine h.frame rfl rfl rfl ?_
  rintro t lk ⟨hpc, hoff⟩
  have hcur : t ≠ w.fib.currentThread := by
    rintro rfl
    simp [hpc, Pc.site] at hfrom
  exact ⟨by simpa only [Rwlock.goto, Function.update_of_ne hcur] using hpc, hoff⟩

omit [DecidableEq Tid] in
theorem entered (hinv : Inv w) {lk : Rumprwlock} (ho : w.rw.o = none)
    (hempty : lk = .reader → w.fib.waithead .wwait = []) : NoStranded (entered w lk) := by
  cases lk with
  | writer =>
      apply of_writer (hinv.entered .writer ho)
      exact Option.ne_none_iff_isSome.mp (hinv.bound.nonNull w.fib.currentThread)
  | reader => exact ⟨fun hne => absurd (hempty rfl) hne, fun _ => Or.inl (by simp [Rwlock.entered])⟩

/-- The loop of `rumpuser_rw_enter`.  A reader that is kept out by waiting writers alone relies on the
    writer that is on its way. -/
theorem enterLoop (hinv : Inv w) (hfrom : (w.pc w.fib.currentThread).site = none) {lk : Rumprwlock}
    (hserved : lk = .reader → WritersServed w) (now : Nat) : NoStranded (enterLoop w lk now) := by
  rcases tryenter_cases w lk with ⟨heq, hwhy⟩ | ⟨heq, ho, hempty⟩
  · rw [enterLoop_of_none heq]
    have hsleep := hinv.asleep hfrom lk now
    rcases hwhy with ho | ⟨rfl, hnone, hne⟩
    · exact of_writer hsleep ho
    · rcases hserved rfl hne with hsome | ⟨t, hpc, hoff⟩
      · rw [hnone] at hsome
        cases hsome
      · have hcur : t ≠ w.fib.currentThread := by
          rintro rfl
          simp [hpc, Pc.site] at hfrom
        have hpending : Pending (asleep w .reader now) t .writer :=
          ⟨by simpa only [asleep, Rwlock.goto, Function.update_of_ne hcur] using hpc,
            by simpa only [asleep, waitBegin, Function.update_of_ne hcur] using hoff⟩
        exact ⟨fun _ => Or.inr ⟨t, hpending⟩, fun _ => Or.inr ⟨t, .writer, hpending⟩⟩
  · rw [enterLoop_of_some heq]
    exact (entered hinv ho hempty).goto hfrom _

/-- An exit passes the lock on: to the first writer, or else to all readers. -/
theorem exit (hinv : Inv w) : NoStranded (rumpuserRwExit w) := by
  have ho := Inv.exit_owner w
  have hfib : (rumpuserRwExit w).fib = exitWakeups w.fib (none : Option Lwp) := by
    rw [← ho]
    rfl
  have hpc : (rumpuserRwExit w).pc = w.pc := rfl
  cases hwriters : w.fib.waithead .wwait with
  | cons who rest =>
      have hone : (rumpuserRwExit w).fib = wakeupOne w.fib .wwait := by
        simp [hfib, exitWakeups, hwriters]
      have hsite := ((hinv.queues.member .wwait who).mp (by simp [hwriters])).1
      have hpending : Pending (rumpuserRwExit w) who .writer := by
        refine ⟨?_, ?_⟩
        · rw [hpc]
          exact @lk_of_site _ .writer hsite
        · rw [hone]
          simp [wakeupOne, hwriters]
      exact ⟨fun _ => Or.inr ⟨who, hpending⟩, fun _ => Or.inr ⟨who, .writer, hpending⟩⟩
  | nil =>
      cases hreaders : w.fib.waithead .rwait with
      | cons who rest =>
          have hall : (rumpuserRwExit w).fib = wakeupAll w.fib .rwait := by
            simp [hfib, exitWakeups, hwriters, hreaders]
          constructor
          · intro hne
            simp [hall, wakeupAll_eq, hwriters] at hne
          · intro hne
            simp [hall, wakeupAll_eq] at hne
      | nil =>
          have hsame : (rumpuserRwExit w).fib = w.fib := by
            simp [hfib, exitWakeups, hwriters, hreaders]
          constructor
          · intro hne
            simp [hsame, hwriters] at hne
          · intro hne
            simp [hsame, hreaders] at hne

/-- A reader that comes back leaves the writers as they were. -/
theorem writersServed_awoken (h : WritersServed w)
    (hfrom : w.pc w.fib.currentThread = .enterWait .reader) : WritersServed (awoken w .reader) := by
  intro hne
  have hqueue : (awoken w .reader).fib.waithead .wwait = w.fib.waithead .wwait := by
    simp only [awoken, waitEnd]
    split <;> simp [Rumprwlock.queue]
  rw [hqueue] at hne
  rcases h hne with hsome | ⟨t, hpc, hoff⟩
  · exact Or.inl hsome
  · have hcur : t ≠ w.fib.currentThread := by
      rintro rfl
      rw [hfrom] at hpc
      cases hpc
    refine Or.inr ⟨t, by simpa only [awoken, Rwlock.goto, Function.update_of_ne hcur] using hpc, ?_⟩
    simp only [awoken, waitEnd]
    split <;> exact hoff

theorem resume (h : NoStranded w) (hinv : Inv w) (now : Nat) : NoStranded (resume w now) := by
  unfold Rwlock.resume
  split
  · exact h
  · rename_i lk hpc
    exact enterLoop hinv (by simp [hpc, Pc.site]) (fun _ => h.writers) now
  · rename_i lk hpc
    rw [enterLoop_awoken]
    refine enterLoop (hinv.awoken hpc) (by simp [awoken, Rwlock.goto, Pc.site]) ?_ now
    rintro rfl
    exact writersServed_awoken h.writers hpc
  · rename_i lk hpc
    exact h.goto (by simp [hpc, Pc.site]) _

end NoStranded

theorem noStranded_step {w' : World Tid Lwp} {e : Event Tid} (hinv : Inv w) (h : NoStranded w)
    (hstep : step w e = some w') : NoStranded w' := by
  obtain ⟨henabled, rfl⟩ := step_inv hstep
  cases e with
  | enter lk =>
      have hpc := (runsAt_inv henabled).2
      simp only [effect, rumpuserRwEnter]
      rcases tryenter_cases w lk with ⟨heq, -⟩ | ⟨heq, ho, hempty⟩
      · rw [heq]
        exact h.goto (by simp [hpc, Pc.site]) _
      · rw [heq]
        exact .entered hinv ho hempty
  | tryenter lk =>
      cases lk with
      | none => exact h
      | some lk =>
          rcases tryenter_cases w lk with ⟨heq, -⟩ | ⟨heq, ho, hempty⟩
          · simp only [effect, heq, Option.getD_none]
            exact h
          · simp only [effect, heq, Option.getD_some]
            exact .entered hinv ho hempty
  | exit => exact .exit hinv
  | resume now => exact h.resume hinv now
  | cpu e => cases e <;> exact h.frame rfl rfl rfl fun _ _ ht => ht

/-- What the waiters of the lock rely on. -/
structure RwNoStranded (w : World Tid Lwp) : Prop where
  count : w.rw.v.toInt + w.rw.owners = w.held.length
  waiters : w.fib.waithead .rwait ≠ [] ∨ w.fib.waithead .wwait ≠ [] → 0 < w.held.length ∨
    ∃ t lk, w.pc t = .enterWait lk ∧ t ∉ w.fib.waithead lk.queue ∧ isRunnable w.fib.tcb t = true
  writers : w.fib.waithead .wwait ≠ [] → w.rw.o ≠ none ∨
    ∃ t, w.pc t = .enterWait .writer ∧ t ∉ w.fib.waithead .wwait ∧ isRunnable w.fib.tcb t = true

omit [DecidableEq Tid] in
theorem Inv.pending_runnable (h : Inv w) {t : Tid} {lk : Rumprwlock} (ht : Pending w t lk) :
    t ∉ w.fib.waithead lk.queue ∧ isRunnable w.fib.tcb t = true := by
  obtain ⟨hpc, hoff⟩ := ht
  refine ⟨fun hmem => ?_, h.queues.woken t (by simp [hpc, Pc.site]) hoff⟩
  have hon := ((h.queues.member lk.queue t).mp hmem).2
  rw [hoff] at hon
  cases hon

omit [DecidableEq Tid] in
/-- The fields show the number of unmatched enters exactly where it fits. -/
theorem Inv.count_iff (h : Inv w) :
    w.rw.v.toInt + w.rw.owners = w.held.length ↔ w.held.length < 2 ^ 31 + w.rw.owners := by
  have hnonneg : 0 ≤ (0 : Int) + w.held.length - w.rw.owners := by
    unfold RumpuserRw.owners
    split
    · rename_i ho
      have hpos := List.length_pos_of_ne_nil (h.held_of_writer ho)
      omega
    · omega
  have hshown := Counter.toInt_ofInt_eq_iff (0 + w.held.length - w.rw.owners)
  rw [← h.account] at hshown
  constructor
  · intro hcount
    have hfits := hshown.mp (by omega)
    omega
  · intro hfew
    have hv := hshown.mpr (by omega)
    omega

omit [DecidableEq Tid] in
theorem NoStranded.sound_iff (h : NoStranded w) (hinv : Inv w) :
    RwNoStranded w ↔ w.held.length < 2 ^ 31 + w.rw.owners := by
  have hwriters : w.fib.waithead .wwait ≠ [] → w.held ≠ [] ∨ ∃ t lk, Pending w t lk := by
    intro hne
    rcases h.writers hne with ho | ⟨t, ht⟩
    · exact Or.inl (hinv.held_of_writer ho)
    · exact Or.inr ⟨t, .writer, ht⟩
  refine ⟨fun hsound => hinv.count_iff.mp hsound.count, fun hfew => ⟨hinv.count_iff.mpr hfew, ?_, ?_⟩⟩
  · intro hne
    have hserved : w.held ≠ [] ∨ ∃ t lk, Pending w t lk := by
      rcases hne with hne | hne
      · exact h.readers hne
      · exact hwriters hne
    rcases hserved with hheld | ⟨t, lk, ht⟩
    · exact Or.inl (List.length_pos_of_ne_nil hheld)
    · exact Or.inr ⟨t, lk, ht.1, hinv.pending_runnable ht⟩
  · intro hne
    rcases h.writers hne with ho | ⟨t, ht⟩
    · exact Or.inl (Option.ne_none_iff_isSome.mpr ho)
    · exact Or.inr ⟨t, ht.1, hinv.pending_runnable ht⟩

theorem noStranded_run {tls : Tid → Option Lwp} (bound : Bound tls) {tcb : Tcbs Tid} {running : Tid}
    {events : List (Event Tid)} (hrun : run step (rumpuserRwInit tls tcb running) events = some w) :
    Inv w ∧ NoStranded w :=
  run_invariant (I := fun w => Inv w ∧ NoStranded w)
    (fun _ _ _ h hstep => ⟨inv_step h.1 hstep, noStranded_step h.1 h.2 hstep⟩)
    ⟨Inv.init bound tcb running, ⟨fun hne => absurd rfl hne, fun hne => absurd rfl hne⟩⟩ hrun

/-- In every run, with wakeups from anywhere at any time, no waiter sleeps without a holder or a thread on
    its way and the fields of the lock count the unmatched enters, exactly as long as there are fewer than
    `2^31` of them beside that of a marked writer. -/
theorem rw_no_stranded_waiter {tls : Tid → Option Lwp} (bound : Bound tls) {tcb : Tcbs Tid}
    {running : Tid} {events : List (Event Tid)} {w : World Tid Lwp}
    (hrun : run step (rumpuserRwInit tls tcb running) events = some w) :
    RwNoStranded w ↔ w.held.length < 2 ^ 31 + w.rw.owners := by
  obtain ⟨hinv, hserved⟩ := noStranded_run bound hrun
  exact hserved.sound_iff hinv

/-- A writer and a reader wait for a writer; its exit wakes the waiting writer, and the reader sleeps
    on. -/
theorem rw_no_stranded_waiter_two :
    ∃ w : World Nat Nat, run step (rumpuserRwInit some awake 0)
        [.enter .writer, .cpu .yield, .cpu (.dispatch 1), .enter .writer, .resume 0,
          .cpu (.dispatch 2), .enter .reader, .resume 0, .cpu (.dispatch 0), .exit] = some w ∧
      w.rw.o = none ∧ w.fib.waithead .wwait = [] ∧ w.fib.waithead .rwait = [2] ∧ RwNoStranded w := by
  refine ⟨_, rfl, rfl, rfl, rfl, (@rw_no_stranded_waiter _ _ _ some bound_some awake 0
    [.enter .writer, .cpu .yield, .cpu (.dispatch 1), .enter .writer, .resume 0,
      .cpu (.dispatch 2), .enter .reader, .resume 0, .cpu (.dispatch 0), .exit] _ rfl).mpr ?_⟩
  decide

/-- Any number of readers, one after the other in one thread. -/
theorem readers_run (n : Nat) : ∀ w : World Tid Lwp, w.calls = true → w.rw.o = none →
    w.fib.waithead .wwait = [] →
    ∃ w', run step w (List.replicate n (.tryenter (some .reader))) = some w' ∧
      w'.held.length = w.held.length + n ∧ w'.rw.o = none := by
  induction n with
  | zero => exact fun w _ ho _ => ⟨w, rfl, rfl, ho⟩
  | succ n ih =>
      intro w hcalls ho hempty
      have hstep : step w (.tryenter (some .reader)) = some (entered w .reader) := by
        rcases tryenter_cases w .reader with ⟨-, hsome | ⟨-, -, hne⟩⟩ | ⟨heq, -⟩
        · rw [ho] at hsome
          cases hsome
        · exact absurd hempty hne
        · simp [step, enabled, hcalls, effect, heq]
      obtain ⟨w', hrun, hlength, ho'⟩ := ih (entered w .reader) hcalls ho hempty
      refine ⟨w', ?_, ?_, ho'⟩
      · simp only [List.replicate_succ, run, hstep]
        exact hrun
      · rw [hlength]
        simp only [entered, List.length_cons]
        omega

/-- With `2^31` read holds the count has wrapped. -/
theorem rw_reader_count_wraps :
    ¬ ∀ (events : List (Event Nat)) (w : World Nat Nat),
      run step (rumpuserRwInit some awake 0) events = some w → RwNoStranded w := by
  intro always
  obtain ⟨w, hrun, hlength, ho⟩ := readers_run (2 ^ 31) (rumpuserRwInit some awake 0) rfl rfl rfl
  obtain ⟨hinv, -⟩ := noStranded_run bound_some hrun
  have hfew := hinv.count_iff.mp (always _ w hrun).count
  simp only [hlength, RumpuserRw.owners, ho] at hfew
  exact absurd hfew (by decide)

/-! ### Exclusion -/

/-- The fields of the lock tell exactly who holds it. -/
inductive Reflects (tls : Tid → Option Lwp) (rw : RumpuserRw Lwp) (held : List (Tid × Rumprwlock)) :
    Prop where
  | readers (free : rw.o = none) (all : ∀ hold ∈ held, hold.2 = .reader)
  | writer (t : Tid) (rest : List (Tid × Rumprwlock)) (first : held = (t, .writer) :: rest)
      (owner : rw.o = tls t) (own : ∀ hold ∈ rest, hold = (t, .reader))

/-- The event tests whether a writer may enter. -/
def TestsWriter (w : World Tid Lwp) : Event Tid → Prop
  | .enter lk => lk = .writer
  | .tryenter lk => lk = some .writer
  | .resume _ =>
      w.pc w.fib.currentThread = .enterUnsched .writer ∨
        w.pc w.fib.currentThread = .enterWait .writer
  | _ => False

/-- A writer does not come to the test while the lock has no writer and another thread reads. -/
def WriterAlone (w : World Tid Lwp) (e : Event Tid) : Prop :=
  TestsWriter w e → w.rw.o = none → ∀ t, (t, .reader) ∈ w.held → t = w.fib.currentThread

namespace Reflects

omit [DecidableEq Tid] in
theorem entered (hinv : Inv w) (h : Reflects w.tls w.rw w.held) {lk : Rumprwlock} (ho : w.rw.o = none)
    (halone : lk = .writer → ∀ t, (t, .reader) ∈ w.held → t = w.fib.currentThread) :
    Reflects (entered w lk).tls (entered w lk).rw (entered w lk).held := by
  cases h with
  | writer t rest first owner own =>
      rw [ho] at owner
      exact absurd owner.symm (hinv.bound.nonNull t)
  | readers free all =>
      cases lk with
      | writer =>
          refine .writer w.fib.currentThread w.held rfl rfl ?_
          rintro ⟨t, lk⟩ hmem
          have hreader : lk = .reader := all _ hmem
          subst hreader
          rw [halone rfl t hmem]
      | reader =>
          refine .readers free fun hold hmem => ?_
          rcases List.mem_cons.mp hmem with rfl | hold'
          · rfl
          · exact all _ hold'

/-- An exit releases a hold of its caller and no other. -/
theorem exit (h : Reflects w.tls w.rw w.held) (hholds : w.holds = true) :
    Reflects (rumpuserRwExit w).tls (rumpuserRwExit w).rw (rumpuserRwExit w).held := by
  cases h with
  | writer t rest first owner own =>
      -- all holds are those of the writer, so it is the caller, and its latest hold is the write hold
      have hcaller : t = w.fib.currentThread := by
        obtain ⟨hold, hmem, heq⟩ := List.any_eq_true.mp hholds
        rw [first] at hmem
        rcases List.mem_cons.mp hmem with rfl | hmem
        · simpa using heq
        · rw [own hold hmem] at heq
          simpa using heq
      have hrest : (rumpuserRwExit w).held = rest := by
        simp [rumpuserRwExit, first, hcaller]
      rw [hrest]
      refine .readers (Inv.exit_owner w) fun hold hmem => ?_
      rw [own hold hmem]
  | readers free all =>
      exact .readers (Inv.exit_owner w) fun hold hmem => all hold (List.mem_of_mem_eraseP hmem)

theorem enterLoop (hinv : Inv w) (h : Reflects w.tls w.rw w.held) {lk : Rumprwlock}
    (halone : lk = .writer → w.rw.o = none → ∀ t, (t, .reader) ∈ w.held → t = w.fib.currentThread)
    (now : Nat) :
    Reflects (enterLoop w lk now).tls (enterLoop w lk now).rw (enterLoop w lk now).held := by
  rcases tryenter_cases w lk with ⟨heq, -⟩ | ⟨heq, ho, -⟩
  · rw [enterLoop_of_none heq]
    exact h
  · rw [enterLoop_of_some heq]
    exact entered hinv h ho fun hlk => halone hlk ho

theorem resume (hinv : Inv w) (h : Reflects w.tls w.rw w.held) {now : Nat}
    (halone : WriterAlone w (.resume now)) :
    Reflects (resume w now).tls (resume w now).rw (resume w now).held := by
  unfold Rwlock.resume
  split
  · exact h
  · rename_i lk hpc
    apply enterLoop hinv h
    rintro rfl
    exact halone (Or.inl hpc)
  · rename_i lk hpc
    rw [enterLoop_awoken]
    apply enterLoop (hinv.awoken hpc) h
    rintro rfl
    simpa [awoken, Rwlock.goto] using halone (Or.inr hpc)
  · exact h

end Reflects

theorem reflects_step {w' : World Tid Lwp} {e : Event Tid} (hinv : Inv w)
    (h : Reflects w.tls w.rw w.held) (halone : WriterAlone w e) (hstep : step w e = some w') :
    Reflects w'.tls w'.rw w'.held := by
  obtain ⟨henabled, rfl⟩ := step_inv hstep
  cases e with
  | enter lk =>
      simp only [effect, rumpuserRwEnter]
      rcases tryenter_cases w lk with ⟨heq, -⟩ | ⟨heq, ho, -⟩
      · rw [heq]
        exact h
      · rw [heq]
        exact h.entered hinv ho fun hlk => halone hlk ho
  | tryenter lk =>
      cases lk with
      | none => exact h
      | some lk =>
          rcases tryenter_cases w lk with ⟨heq, -⟩ | ⟨heq, ho, -⟩
          · simp only [effect, heq, Option.getD_none]
            exact h
          · simp only [effect, heq, Option.getD_some]
            exact h.entered hinv ho fun hlk => halone (congrArg some hlk) ho
  | exit =>
      simp only [enabled, Bool.and_eq_true] at henabled
      exact h.exit henabled.2
  | resume now => exact h.resume hinv halone
  | cpu e => exact h

/-- Exclusion as the holders see it.  The last two fields say that every hold which no exit of its own
    thread has given up is still in the lock: no exit has released the hold of another thread.  The readers
    are counted in a word, so `v` shows their number as long as it is below `2^31`. -/
structure RwSound (w : World Tid Lwp) : Prop where
  exclusive : ∀ t u lk, (t, .writer) ∈ w.held → (u, lk) ∈ w.held → u = t
  readersCounted : w.rw.v = Int32.ofNat (w.held.filter fun hold => hold.2 = .reader).length
  writerOwns : ∀ t, (t, .writer) ∈ w.held ↔ w.rw.o = w.tls t

omit [DecidableEq Tid] in
theorem Reflects.sound (hinv : Inv w) (h : Reflects w.tls w.rw w.held) : RwSound w := by
  cases h with
  | readers free all =>
      have hnone : ∀ t, (t, .writer) ∉ w.held := fun t hmem => by simpa using all _ hmem
      refine ⟨fun t u lk hmem => absurd hmem (hnone t), ?_, fun t => ?_⟩
      · rw [List.filter_eq_self.mpr (by simpa using all), hinv.account]
        simp [RumpuserRw.owners, free, Int32.ofInt_eq_ofNat]
      · refine ⟨fun hmem => absurd hmem (hnone t), fun ho => ?_⟩
        rw [free] at ho
        exact absurd ho.symm (hinv.bound.nonNull t)
  | writer t rest first owner own =>
      have hall : ∀ hold ∈ w.held, hold.1 = t := by
        intro hold hmem
        rw [first] at hmem
        rcases List.mem_cons.mp hmem with rfl | hmem
        · rfl
        · rw [own hold hmem]
      refine ⟨?_, ?_, ?_⟩
      · intro a b lk ha hb
        exact (hall _ hb).trans (hall _ ha).symm
      · rw [first, List.filter_cons_of_neg (by simp),
          List.filter_eq_self.mpr (fun hold hmem => by simp [own hold hmem]), hinv.account]
        have hsome := Option.ne_none_iff_isSome.mp (hinv.bound.nonNull t)
        simp [RumpuserRw.owners, owner, hsome, first, Int32.ofInt_eq_ofNat]
      · intro a
        constructor
        · intro ha
          rw [owner, show a = t from hall _ ha]
        · intro ho
          rw [owner] at ho
          rw [first, hinv.bound.distinct t a ho]
          exact List.mem_cons_self

/-- A writer that is tested beside a reader is let in, and exclusion is lost at once. -/
theorem not_alone_unsound {w' : World Tid Lwp} {e : Event Tid} (hstep : step w e = some w')
    (hnot : ¬ WriterAlone w e) : ¬ RwSound w' := by
  obtain ⟨-, rfl⟩ := step_inv hstep
  simp only [WriterAlone, Classical.not_imp, not_forall] at hnot
  obtain ⟨htests, ho, t, hmem, hne⟩ := hnot
  have hunsound : ∀ w' : World Tid Lwp, w'.held = (w.fib.currentThread, .writer) :: w.held →
      ¬ RwSound w' := by
    intro w' hheld h
    refine hne (h.exclusive w.fib.currentThread t .reader ?_ ?_)
    · rw [hheld]
      exact List.mem_cons_self
    · rw [hheld]
      exact List.mem_cons_of_mem _ hmem
  have hin : ∀ w : World Tid Lwp, w.rw.o = none → tryenter w .writer = some (entered w .writer) := by
    intro w ho
    rcases tryenter_cases w .writer with ⟨-, hsome | ⟨hlk, -⟩⟩ | ⟨heq, -⟩
    · rw [ho] at hsome
      cases hsome
    · cases hlk
    · exact heq
  cases e with
  | enter lk =>
      obtain rfl : lk = .writer := htests
      apply hunsound
      simp only [effect, rumpuserRwEnter, hin w ho]
      rfl
  | tryenter lk =>
      obtain rfl : lk = some .writer := htests
      apply hunsound
      simp only [effect, hin w ho, Option.getD_some]
      rfl
  | resume now =>
      apply hunsound
      rcases htests with hpc | hpc
      · simp only [effect, resume, hpc, enterLoop_of_some (hin w ho)]
        rfl
      · simp only [effect, resume, hpc]
        rw [enterLoop_awoken]
        simp only [enterLoop_of_some (hin (awoken w .writer) ho)]
        simp [goto, entered, awoken]
  | exit | cpu _ => exact htests.elim

/-- In every run in which no writer is tested beside another thread's read hold, writers are alone and
    exits release only the caller's own hold; and the first such test breaks exclusion. -/
theorem rw_exclusion {tls : Tid → Option Lwp} (bound : Bound tls) {tcb : Tcbs Tid} {running : Tid}
    {events : List (Event Tid)} {w : World Tid Lwp}
    (hmeets : Meets step WriterAlone (rumpuserRwInit tls tcb running) events)
    (hrun : run step (rumpuserRwInit tls tcb running) events = some w) :
    RwSound w ∧ ∀ e w', step w e = some w' → ¬ WriterAlone w e → ¬ RwSound w' := by
  have hboth : Inv w ∧ Reflects w.tls w.rw w.held :=
    run_invariant_of_meets (I := fun w => Inv w ∧ Reflects w.tls w.rw w.held)
      (fun _ _ _ h halone hstep => ⟨inv_step h.1 hstep, reflects_step h.1 h.2 halone hstep⟩)
      ⟨Inv.init bound tcb running, .readers rfl (by simp [rumpuserRwInit])⟩ hmeets hrun
  exact ⟨hboth.2.sound hboth.1, fun e w' => not_alone_unsound⟩

/-- Two readers share the lock; when both have left it, a writer comes in. -/
theorem rw_exclusion_two :
    ∃ w : World Nat Nat, run step (rumpuserRwInit some awake 0)
        [.enter .reader, .cpu .yield, .cpu (.dispatch 1), .enter .reader, .exit, .cpu .yield,
          .cpu (.dispatch 0), .exit, .enter .writer] = some w ∧
      w.rw.o = some 0 ∧ RwSound w ∧ ∀ e w', step w e = some w' → ¬ WriterAlone w e → ¬ RwSound w' := by
  have hquiet : ∀ {w : World Nat Nat} {e}, ¬ TestsWriter w e → WriterAlone w e :=
    fun hnot htests => absurd htests hnot
  refine ⟨_, rfl, rfl, @rw_exclusion _ _ _ some bound_some awake 0
    [.enter .reader, .cpu .yield, .cpu (.dispatch 1), .enter .reader, .exit, .cpu .yield,
      .cpu (.dispatch 0), .exit, .enter .writer] _ ?_ rfl⟩
  refine .cons (hquiet (by simp [TestsWriter])) rfl ?_
  refine .cons (hquiet id) rfl ?_
  refine .cons (hquiet id) rfl ?_
  refine .cons (hquiet (by simp [TestsWriter])) rfl ?_
  refine .cons (hquiet id) rfl ?_
  refine .cons (hquiet id) rfl ?_
  refine .cons (hquiet id) rfl ?_
  refine .cons (hquiet id) rfl ?_
  refine .cons (fun _ _ t hmem => ?_) rfl trivial
  cases hmem

/-- A writer enters beside a reader, and the reader's exit clears the writer's hold. -/
theorem rw_exclusion_broken :
    ¬ ∀ (events : List (Event Nat)) (w : World Nat Nat),
      run step (rumpuserRwInit some awake 0) events = some w → RwSound w := by
  intro always
  have hsound := always [.enter .reader, .cpu .yield, .cpu (.dispatch 1), .enter .writer, .cpu .yield,
    .cpu (.dispatch 0), .exit] _ rfl
  exact absurd ((hsound.writerOwns 1).mp (by decide)) (by decide)

end RumpBaremetal.Rwlock
