/-
Module: RumpBaremetal.Proofs.WaitLinks
Layer: Proofs
Purpose: The sleep queues over records on stacks go step by step with the sleep queues over lists.  The
  accounting of the queues supplies what the macros ask for, and says that a queue never leads to the record
  of a call that has returned, so whatever is written there afterwards changes nothing.
Trusted boundary: none (fully proved)
Main exports: Shows, Shows.waitBegin, Shows.waitEnd, Shows.wakeupOne, Shows.wakeupAll, Shows.overwrite,
  Follows, linked_sleepers_follow
-/
import RumpBaremetal.Fiber.WaitLinks
import RumpBaremetal.Proofs.Queue
import RumpBaremetal.Proofs.Wait

namespace RumpBaremetal

namespace WaitLinks

open StepSystem

variable {Tid Wh : Type*} [DecidableEq Tid] [DecidableEq Wh]

/-- The records show the queues; the fields of a record count while its thread is inside `wait`. -/
structure Shows (site : Tid → Option Wh) (fib : Fibers Tid Wh) (w : Waiters Tid Wh) : Prop where
  currentThread : w.currentThread = fib.currentThread
  scheduling : w.scheduling = fib.scheduling
  tcb : w.tcb = fib.tcb
  queues : ∀ wh, Holds w.entries wh (fib.waithead wh)
  onlist : ∀ t, (site t).isSome → w.onlist t = fib.onlist t
  who : ∀ t, (site t).isSome → w.who t = t

variable {site : Tid → Option Wh} {fib : Fibers Tid Wh} {w : Waiters Tid Wh}

namespace Shows

theorem waitBegin (hq : Queues site fib) (h : Shows site fib w) (hout : site fib.currentThread = none)
    (wh : Wh) (now nsec : Nat) :
    Shows (Function.update site fib.currentThread (some wh)) (RumpBaremetal.waitBegin fib wh now nsec)
      (WaitLinks.waitBegin w wh now nsec) := by
  obtain ⟨hcurrent, -, htcb, hqueues, honlist, hwho⟩ := h
  have hnot := hq.not_mem_of_outside hout
  have hentries :
      (WaitLinks.waitBegin w wh now nsec).entries = tailqInsertTail w.entries wh fib.currentThread := by
    simp only [WaitLinks.waitBegin, hcurrent]
    split <;> rfl
  refine ⟨?_, ?_, ?_, ?_, ?_, ?_⟩
  · simp only [WaitLinks.waitBegin, RumpBaremetal.waitBegin, ← hcurrent]
    split <;> rfl
  · simp [WaitLinks.waitBegin, RumpBaremetal.waitBegin]
  · simp only [WaitLinks.waitBegin, RumpBaremetal.waitBegin, hcurrent, htcb, Function.update_self]
    split <;> rfl
  · rw [hentries]
    intro other
    refine holds_update ((hqueues wh).insertTail (hnot wh)) fun hne => ?_
    exact (hqueues wh).insertTail_other (hqueues other) hne (hnot other)
  · intro t ht
    by_cases heq : t = fib.currentThread
    · subst heq
      simp only [WaitLinks.waitBegin, RumpBaremetal.waitBegin, hcurrent]
      split <;> simp
    · rw [Function.update_of_ne heq] at ht
      simp only [WaitLinks.waitBegin, RumpBaremetal.waitBegin, hcurrent]
      split <;> simpa [heq] using honlist t ht
  · intro t ht
    by_cases heq : t = fib.currentThread
    · subst heq
      simp only [WaitLinks.waitBegin, hcurrent]
      split <;> simp
    · rw [Function.update_of_ne heq] at ht
      simp only [WaitLinks.waitBegin, hcurrent]
      split <;> simpa [heq] using hwho t ht

theorem waitEnd (hq : Queues site fib) (h : Shows site fib w) {wh : Wh}
    (hin : site fib.currentThread = some wh) :
    Shows (Function.update site fib.currentThread none) (RumpBaremetal.waitEnd fib wh)
      (WaitLinks.waitEnd w wh) := by
  have honlist := h.onlist fib.currentThread (by simp [hin])
  have hless : ∀ t, (Function.update site fib.currentThread none t).isSome → (site t).isSome := by
    intro t ht
    by_cases heq : t = fib.currentThread
    · simp [heq] at ht
    · rwa [Function.update_of_ne heq] at ht
  simp only [WaitLinks.waitEnd, RumpBaremetal.waitEnd, h.currentThread, honlist]
  split
  · rename_i hlisted
    have hmem : fib.currentThread ∈ fib.waithead wh := (hq.member wh _).mpr ⟨hin, hlisted⟩
    refine ⟨rfl, h.scheduling, h.tcb, ?_, fun t ht => h.onlist t (hless t ht),
      fun t ht => h.who t (hless t ht)⟩
    intro other
    refine holds_update ((h.queues wh).erase hmem) fun hne => ?_
    exact (h.queues wh).erase_other hmem (h.queues other) hne
  · exact ⟨h.currentThread, h.scheduling, h.tcb, h.queues, fun t ht => h.onlist t (hless t ht),
      fun t ht => h.who t (hless t ht)⟩

/-- Taking off the first record. -/
theorem wakeRecord (hq : Queues site fib) (h : Shows site fib w) {wh : Wh} {t : Tid} {rest : List Tid}
    (hqueue : fib.waithead wh = t :: rest) :
    Shows site (RumpBaremetal.wakeupOne fib wh) (WaitLinks.wakeRecord w wh t) := by
  have hmem : t ∈ fib.waithead wh := by simp [hqueue]
  have hsite : (site t).isSome := by simp [((hq.member wh t).mp hmem).1]
  have hrest : (fib.waithead wh).erase t = rest := by simp [hqueue]
  simp only [RumpBaremetal.wakeupOne, hqueue, WaitLinks.wakeRecord]
  refine ⟨h.currentThread, h.scheduling, ?_, ?_, ?_, h.who⟩
  · rw [h.who t hsite, h.tcb]
  · rw [← hrest]
    intro other
    refine holds_update ((h.queues wh).erase hmem) fun hne => ?_
    exact (h.queues wh).erase_other hmem (h.queues other) hne
  · intro u hu
    by_cases heq : u = t
    · simp [heq]
    · simpa [heq] using h.onlist u hu

theorem wakeupOne (hq : Queues site fib) (h : Shows site fib w) (wh : Wh) :
    Shows site (RumpBaremetal.wakeupOne fib wh) (WaitLinks.wakeupOne w wh) := by
  cases hqueue : fib.waithead wh with
  | nil =>
      have hfirst : tailqFirst w.entries wh = none := by simp [(h.queues wh).first_eq, hqueue]
      simpa [WaitLinks.wakeupOne, hfirst, RumpBaremetal.wakeupOne, hqueue] using h
  | cons t rest =>
      have hfirst : tailqFirst w.entries wh = some t := by simp [(h.queues wh).first_eq, hqueue]
      simpa only [WaitLinks.wakeupOne, hfirst] using h.wakeRecord hq hqueue

/-- The loop ends after as many rounds as there are records. -/
theorem wakeupLoop (wh : Wh) :
    ∀ {queue : List Tid} {fib : Fibers Tid Wh} {w : Waiters Tid Wh} {rounds : Nat},
    Queues site fib → Shows site fib w → fib.waithead wh = queue → queue.length ≤ rounds →
      ∃ w', WaitLinks.wakeupLoop wh rounds w = some w' ∧
        Shows site (queue.foldl (fun s _ => RumpBaremetal.wakeupOne s wh) fib) w' := by
  intro queue
  induction queue with
  | nil =>
      intro fib w rounds _ h hqueue _
      have hfirst : tailqFirst w.entries wh = none := by simp [(h.queues wh).first_eq, hqueue]
      refine ⟨w, ?_, h⟩
      rw [WaitLinks.wakeupLoop, hfirst]
  | cons t rest ih =>
      intro fib w rounds hq h hqueue hlen
      have hfirst : tailqFirst w.entries wh = some t := by simp [(h.queues wh).first_eq, hqueue]
      obtain ⟨rounds, rfl⟩ : ∃ n, rounds = n + 1 :=
        Nat.exists_eq_add_one.mpr (Nat.lt_of_lt_of_le (by simp) hlen)
      have hnext : (RumpBaremetal.wakeupOne fib wh).waithead wh = rest := by
        simp [RumpBaremetal.wakeupOne, hqueue]
      obtain ⟨w', hloop, hw'⟩ := ih (hq.wakeupOne wh) (h.wakeRecord hq hqueue) hnext (by simpa using hlen)
      refine ⟨w', ?_, hw'⟩
      rw [WaitLinks.wakeupLoop, hfirst]
      exact hloop

theorem wakeupAll [Fintype Tid] (hq : Queues site fib) (h : Shows site fib w) (wh : Wh) :
    ∃ w', WaitLinks.wakeupAll w wh = some w' ∧ Shows site (RumpBaremetal.wakeupAll fib wh) w' :=
  wakeupLoop wh hq h rfl (hq.once wh).length_le_card

/-- A record that is out of use is on no queue. -/
theorem overwrite (hq : Queues site fib) (h : Shows site fib w) {t : Tid} (hout : site t = none)
    (next : Option Tid) (prev : Link Wh Tid) (who : Tid) (onlist : Bool) :
    Shows site fib (w.overwrite t next prev who onlist) := by
  have hnot := hq.not_mem_of_outside hout
  have hne : ∀ u, (site u).isSome → u ≠ t := by
    rintro u hu rfl
    simp [hout] at hu
  refine ⟨h.currentThread, h.scheduling, h.tcb, ?_, ?_, ?_⟩
  · intro wh
    have hwh := h.queues wh
    exact (hwh.setTarget (hwh.back_ne_next (hnot wh)) (hwh.last_ne_next (hnot wh)) next).setPrev
      (hnot wh) prev
  · intro u hu
    simpa [Waiters.overwrite, hne u hu] using h.onlist u hu
  · intro u hu
    simpa [Waiters.overwrite, hne u hu] using h.who u hu

omit [DecidableEq Tid] [DecidableEq Wh] in
theorem processor_enabled (h : Shows site fib w) (e : CpuEvent Tid) :
    cpuEnabled w.processor e = cpuEnabled fib e := by
  cases e <;> simp [cpuEnabled, Waiters.processor, h.scheduling, h.tcb]

omit [DecidableEq Wh] in
theorem processor (h : Shows site fib w) (e : CpuEvent Tid) :
    Shows site (cpuEffect fib e) (w.setProcessor (cpuEffect w.processor e)) := by
  obtain ⟨hcurrent, hscheduling, htcb, hqueues, honlist, hwho⟩ := h
  refine ⟨?_, ?_, ?_, ?_, ?_, hwho⟩
  · cases e <;> simp [cpuEffect, Waiters.setProcessor, Waiters.processor, hcurrent]
  · cases e <;> simp [cpuEffect, Waiters.setProcessor, Waiters.processor, hscheduling]
  · cases e <;> simp [cpuEffect, Waiters.setProcessor, Waiters.processor, hcurrent, htcb]
  · intro wh
    cases e <;> exact hqueues wh
  · intro t ht
    cases e <;> exact honlist t ht

end Shows

/-! ### Runs -/

/-- The two machines side by side, with the accounting of the queues. -/
structure Beside (s : Sleepers Tid Wh) (l : LinkedSleepers Tid Wh) : Prop where
  site : l.site = s.site
  accounts : Queues s.site s.fib
  shown : Shows s.site s.fib l.waiters

omit [DecidableEq Tid] [DecidableEq Wh] in
theorem Beside.enabled {s : Sleepers Tid Wh} {l : LinkedSleepers Tid Wh} (h : Beside s l)
    (e : WaitEvent Tid Wh) :
    waitEnabled l.waiters.currentThread l.waiters.scheduling l.site e =
      waitEnabled s.fib.currentThread s.fib.scheduling s.site e := by
  rw [h.site, h.shown.currentThread, h.shown.scheduling]

theorem beside_step [Fintype Tid] {s : Sleepers Tid Wh} {l : LinkedSleepers Tid Wh} (h : Beside s l)
    (e : WaitEvent Tid Wh) : Option.Rel Beside (sleepersStep s e) (linkedStep l e) := by
  unfold sleepersStep linkedStep
  rw [h.enabled e]
  split
  · rename_i henabled
    obtain ⟨hsite, hq, hshows⟩ := h
    cases e with
    | wait wh now nsec =>
        simp only [waitEnabled, Bool.and_eq_true, Option.isNone_iff_eq_none] at henabled
        rw [hsite, hshows.currentThread]
        exact .some ⟨rfl, hq.waitBegin henabled.2 wh now nsec, hshows.waitBegin hq henabled.2 wh now nsec⟩
    | resume =>
        simp only [waitEnabled, Bool.and_eq_true, Option.isSome_iff_exists] at henabled
        obtain ⟨-, wh, hin⟩ := henabled
        simp only [hsite, hshows.currentThread, hin, Option.map_some]
        exact .some ⟨rfl, hq.waitEnd hin, hshows.waitEnd hq hin⟩
    | wakeupOne wh => exact .some ⟨hsite, hq.wakeupOne wh, hshows.wakeupOne hq wh⟩
    | wakeupAll wh =>
        obtain ⟨w', hall, hw'⟩ := hshows.wakeupAll hq wh
        simp only [hall, Option.map_some]
        exact .some ⟨hsite, hq.wakeupAll wh, hw'⟩
    | reuse t next prev who onlist =>
        simp only [waitEnabled, Option.isNone_iff_eq_none] at henabled
        exact .some ⟨hsite, hq, hshows.overwrite hq henabled next prev who onlist⟩
    | cpu e =>
        simp only [cpuStep, hshows.processor_enabled]
        split
        · rename_i hcan
          refine .some ⟨hsite, hq.cpu hcan fun wakeupTime heq => ?_, hshows.processor e⟩
          subst heq
          simpa [waitEnabled] using henabled
        · exact .none
  · exact .none

/-- What the records amount to: they show the lists, and whatever is met on a queue is the record of a
    thread that is still inside `wait` on that head. -/
structure Follows (s : Sleepers Tid Wh) (l : LinkedSleepers Tid Wh) : Prop where
  shown : Shows s.site s.fib l.waiters
  inside : ∀ wh records, Holds l.waiters.entries wh records → ∀ t ∈ records, l.site t = some wh

omit [DecidableEq Tid] [DecidableEq Wh] in
theorem Beside.follows {s : Sleepers Tid Wh} {l : LinkedSleepers Tid Wh} (h : Beside s l) :
    Follows s l where
  shown := h.shown
  inside := by
    intro wh records hholds t ht
    rw [hholds.unique (h.shown.queues wh)] at ht
    rw [h.site]
    exact ((h.accounts.member wh t).mp ht).1

/-- In every interleaving of calls and of writes to stacks that are out of use, the sleep queues over
    records do what those over lists do, and never lead to a dead record. -/
theorem linked_sleepers_follow [Fintype Tid] {s : Sleepers Tid Wh} {l : LinkedSleepers Tid Wh}
    (site : l.site = s.site) (accounts : Queues s.site s.fib) (start : Shows s.site s.fib l.waiters)
    (events : List (WaitEvent Tid Wh)) :
    Option.Rel Follows (run sleepersStep s events) (run linkedStep l events) := by
  have hsim : Option.Rel Beside (run sleepersStep s events) (run linkedStep l events) :=
    run_simulation (C := fun _ _ => True) (fun _ _ e h _ => beside_step h e) ⟨site, accounts, start⟩
      (meets_of_mem (fun _ _ _ => trivial) s)
  exact rel_mono (fun _ _ h => h.follows) hsim

/-- Two queues in memory that held anything before. -/
def emptyQueues : Tailqs Bool (Fin 2) :=
  tailqInit (tailqInit ⟨⟨fun _ => some 1, fun _ => .next 0⟩, fun _ => .next 1⟩ true) false

def sampleSleepers : Sleepers (Fin 2) Bool :=
  ⟨⟨0, false, fun _ => { flags := { runnable := true } }, fun _ => [], fun _ => false⟩, fun _ => none⟩

def sampleLinked : LinkedSleepers (Fin 2) Bool :=
  ⟨⟨0, false, fun _ => { flags := { runnable := true } }, emptyQueues, fun _ => 1, fun _ => true⟩,
    fun _ => none⟩

/-- One thread sleeps and the other wakes all; the sleeper returns, its stack is used for something else,
    and it sleeps on the other head. -/
def sampleEvents : List (WaitEvent (Fin 2) Bool) :=
  [.wait true 0 0, .cpu (.dispatch 1), .wakeupAll true, .cpu .yield, .cpu (.dispatch 0), .resume,
    .reuse 0 (some 1) (.next 0) 1 true, .wait false 0 0]

theorem linked_sleepers_follow_reused :
    ∃ s l, run sleepersStep sampleSleepers sampleEvents = some s ∧
      run linkedStep sampleLinked sampleEvents = some l ∧
      Follows s l ∧ s.fib.waithead false = [0] := by
  have hheld : ∀ wh : Bool, Holds emptyQueues wh [] := by
    intro wh
    cases wh with
    | false => exact Holds.init _ false
    | true => exact (Holds.init _ true).init_other (by simp)
  have hfollow := linked_sleepers_follow (s := sampleSleepers) (l := sampleLinked) rfl
    ⟨by simp [sampleSleepers], by simp [sampleSleepers], by simp [sampleSleepers], fun _ => rfl⟩
    ⟨rfl, rfl, rfl, hheld, by simp [sampleSleepers], by simp [sampleSleepers]⟩ sampleEvents
  have hrun : run sleepersStep sampleSleepers sampleEvents = some _ := rfl
  rw [hrun] at hfollow
  obtain ⟨l, hl, hfollows⟩ := rel_of_some hfollow
  exact ⟨_, l, hrun, hl, hfollows, rfl⟩

end WaitLinks

end RumpBaremetal
