/-
Module: RumpBaremetal.Proofs.Sleep
Layer: Proofs
Purpose: What becomes of every call of `wait`.  The record of a call leaves its queue once, by the hand of a
  wakeup or by its own, and which of the two it was is what the call returns; the queues are in the order of
  the calls.  The counter of a condition variable counts the condition waits that threads are inside of.
Trusted boundary: none (fully proved)
Main exports: Tally, tally, wakeAll_eq, Calls, CvCount, Inv, Accounts, sleep_queues_account
-/
import RumpBaremetal.Fiber.Sleep
import RumpBaremetal.Proofs.Wait

namespace RumpBaremetal.Sleep

open StepSystem
open Mutex (MtxFlags CvCall)

/-! ### What is on record about a call -/

/-- How often a call of `wait` was dequeued by a wakeup, took itself off the queue, returned 0 and returned
    `ETIMEDOUT`. -/
structure Tally where
  dequeued : Nat
  withdrew : Nat
  returnedZero : Nat
  returnedEtimedout : Nat
deriving DecidableEq, Repr

def tally (log : List Mark) (n : Nat) : Tally where
  dequeued := log.count (.dequeued n)
  withdrew := log.count (.withdrew n)
  returnedZero := log.count (.returned n false)
  returnedEtimedout := log.count (.returned n true)

/-- A call in progress: its record is still on the queue, or a wakeup has taken it off. -/
def Tally.inProgress : Bool → Tally
  | true => ⟨0, 0, 0, 0⟩
  | false => ⟨1, 0, 0, 0⟩

/-- Marks of other calls do not count. -/
theorem tally_append_of_ne {log marks : List Mark} {n : Nat} (h : ∀ k ∈ marks, k.call ≠ n) :
    tally (log ++ marks) n = tally log n := by
  have habsent : ∀ k : Mark, k.call = n → marks.count k = 0 := by
    intro k hk
    exact List.count_eq_zero.mpr fun hmem => h k hmem hk
  simp [tally, List.count_append, habsent (.dequeued n) rfl, habsent (.withdrew n) rfl,
    habsent (.returned n false) rfl, habsent (.returned n true) rfl]

theorem tally_dequeued {log : List Mark} {n : Nat} (h : tally log n = .inProgress true) :
    tally (log ++ [.dequeued n]) n = .inProgress false := by
  simp only [tally, Tally.inProgress, Tally.mk.injEq] at h
  simp [tally, Tally.inProgress, List.count_append, h]

/-- The record of a call is complete when it returns what its `onlist` says. -/
theorem tally_returned {log : List Mark} {n : Nat} {onlist : Bool} (h : tally log n = .inProgress onlist) :
    tally (log ++ returnMarks n onlist) n = ⟨1, 0, 1, 0⟩ ∨
    tally (log ++ returnMarks n onlist) n = ⟨0, 1, 0, 1⟩ := by
  cases onlist with
  | false =>
      simp only [tally, Tally.inProgress, Tally.mk.injEq] at h
      exact .inl (by simp [tally, returnMarks, List.count_append, h])
  | true =>
      simp only [tally, Tally.inProgress, Tally.mk.injEq] at h
      exact .inr (by simp [tally, returnMarks, List.count_append, h])

theorem call_of_mem_returnMarks {n : Nat} {timedOut : Bool} {k : Mark} (hk : k ∈ returnMarks n timedOut) :
    k.call = n := by
  cases timedOut <;> simp only [returnMarks, List.mem_cons, List.not_mem_nil, or_false] at hk
  · rw [hk]
    rfl
  · rcases hk with rfl | rfl <;> rfl

variable {Tid Lwp Mtx Cv Head : Type*} [DecidableEq Tid] [DecidableEq Mtx] [DecidableEq Cv]
  [DecidableEq Head] {w : World Tid Lwp Mtx Cv Head}

/-- The calls of `wait`, those in progress and those that are over. -/
structure Calls (w : World Tid Lwp Mtx Cv Head) : Prop where
  queues : Queues w.site w.fib
  order : ∀ wh, (w.fib.waithead wh).Pairwise fun t u => w.serial t < w.serial u
  known : ∀ t, (w.site t).isSome → w.serial t < w.calls
  distinct : ∀ t u, (w.site t).isSome → (w.site u).isSome → w.serial t = w.serial u → t = u
  waiting : ∀ t, (w.site t).isSome →
    tally w.log (w.serial t) = .inProgress (w.fib.onlist t)
  finished : ∀ n, n < w.calls → (∀ t, (w.site t).isSome → w.serial t ≠ n) →
    tally w.log n = ⟨1, 0, 1, 0⟩ ∨ tally w.log n = ⟨0, 1, 0, 1⟩
  ahead : ∀ n, w.calls ≤ n → tally w.log n = ⟨0, 0, 0, 0⟩

/-! ### Wakeups and single steps -/

/-- `wakeup_all` takes off one call after the other, the oldest first. -/
theorem wakeAll_eq (w : World Tid Lwp Mtx Cv Head) (wh : Wh Mtx Cv Head) :
    wakeAll w wh = { w with
      fib := wakeupAll w.fib wh
      log := w.log ++ (w.fib.waithead wh).map fun who => .dequeued (w.serial who) } := by
  unfold wakeAll wakeupAll
  generalize hqueue : w.fib.waithead wh = queue
  induction queue generalizing w with
  | nil => simp only [List.foldl_nil, List.map_nil, List.append_nil]
  | cons who rest ih =>
      have hrest : (wakeOne w wh).fib.waithead wh = rest := by
        simp [wakeOne, wakeupOne, hqueue]
      rw [List.foldl_cons, ih _ hrest]
      simp [wakeOne, hqueue]

theorem run_one [DecidableEq Lwp] {w' : World Tid Lwp Mtx Cv Head} {e : Event Tid Lwp Mtx Cv Head}
    (henabled : enabled w e = true) (heffect : effect w e = some w') : run step w [e] = some w' := by
  simp only [run, step, henabled, heffect, if_true]

/-! ### The innermost call -/

omit [DecidableEq Mtx] [DecidableEq Cv] [DecidableEq Head] in
theorem site_setFrames (frames : List (Frame Mtx Cv Head)) :
    (w.setFrames frames).site =
      Function.update w.site w.fib.currentThread (frames.head?.bind Frame.site) := by
  funext t
  by_cases ht : t = w.fib.currentThread
  · subst ht
    simp [World.site, World.setFrames]
  · simp [World.site, World.setFrames, ht]

omit [DecidableEq Mtx] [DecidableEq Cv] [DecidableEq Head] in
/-- Outside `wait` before and after. -/
theorem site_setFrames_of_none {frames : List (Frame Mtx Cv Head)}
    (hfrom : w.site w.fib.currentThread = none) (hnone : frames.head?.bind Frame.site = none) :
    (w.setFrames frames).site = w.site := by
  rw [site_setFrames, hnone, ← hfrom, Function.update_eq_self]

omit [DecidableEq Mtx] [DecidableEq Cv] [DecidableEq Head] in
theorem isSome_update {site : Tid → Option (Wh Mtx Cv Head)} {cur t : Tid} {o : Option (Wh Mtx Cv Head)}
    (ht : t ≠ cur) : (Function.update site cur o t).isSome ↔ (site t).isSome := by
  rw [Function.update_of_ne ht]

namespace Calls

omit [DecidableEq Tid] [DecidableEq Mtx] [DecidableEq Cv] [DecidableEq Head] in
/-- Only what the accounting reads matters. -/
theorem congr {w' : World Tid Lwp Mtx Cv Head} (h : Calls w) (hsite : w'.site = w.site)
    (hfib : w'.fib = w.fib) (hcalls : w'.calls = w.calls) (hserial : w'.serial = w.serial)
    (hlog : w'.log = w.log) : Calls w' := by
  obtain ⟨queues, order, known, distinct, waiting, finished, ahead⟩ := h
  constructor
  · rw [hsite, hfib]
    exact queues
  · rw [hserial, hfib]
    exact order
  · rw [hsite, hserial, hcalls]
    exact known
  · rw [hsite, hserial]
    exact distinct
  · rw [hsite, hserial, hlog, hfib]
    exact waiting
  · rw [hsite, hserial, hlog, hcalls]
    exact finished
  · rw [hlog, hcalls]
    exact ahead

/-- A wakeup is on record with the call at the head of the queue. -/
theorem wakeOne (h : Calls w) (wh : Wh Mtx Cv Head) : Calls (wakeOne w wh) := by
  have hqueues := h.queues.wakeupOne wh
  unfold Sleep.wakeOne
  cases hqueue : w.fib.waithead wh with
  | nil =>
      have hsame : wakeupOne w.fib wh = w.fib := by simp [wakeupOne, hqueue]
      refine h.congr rfl hsame rfl rfl ?_
      simp
  | cons who rest =>
      have hin : w.site who = some wh ∧ w.fib.onlist who = true :=
        (h.queues.member wh who).mp (by rw [hqueue]; exact List.mem_cons_self)
      have hsome : (w.site who).isSome := by rw [hin.1]; rfl
      have hother : ∀ n, w.serial who ≠ n →
          tally (w.log ++ [.dequeued (w.serial who)]) n = tally w.log n := by
        intro n hne
        refine tally_append_of_ne fun k hk => ?_
        rw [List.mem_singleton.mp hk]
        exact hne
      simp only [List.head?_cons, Option.map_some, Option.toList_some]
      constructor
      · exact hqueues
      · intro wh'
        simp only [wakeupOne, hqueue]
        by_cases hwh : wh' = wh
        · subst hwh
          have hold := h.order wh'
          rw [hqueue] at hold
          rw [Function.update_self]
          exact (List.pairwise_cons.mp hold).2
        · rw [Function.update_of_ne hwh]
          exact h.order wh'
      · exact h.known
      · exact h.distinct
      · intro t ht
        have ht' : (w.site t).isSome := ht
        by_cases hwho : t = who
        · subst hwho
          have hold := h.waiting t hsome
          rw [hin.2] at hold
          simp only [wakeupOne, hqueue, Function.update_self]
          exact tally_dequeued hold
        · have hne : w.serial who ≠ w.serial t := fun heq => hwho (h.distinct t who ht' hsome heq.symm)
          simp only [wakeupOne, hqueue, Function.update_of_ne hwho]
          rw [hother _ hne]
          exact h.waiting t ht'
      · intro n hn hgone
        rw [hother n (hgone who hsome)]
        exact h.finished n hn hgone
      · intro n hn
        have hn' : w.calls ≤ n := hn
        have hlt := h.known who hsome
        rw [hother n (by omega)]
        exact h.ahead n hn'

/-- A new call goes to the end of its queue, behind all earlier ones. -/
theorem sleepOn (h : Calls w) (hfrom : w.site w.fib.currentThread = none) {wh : Wh Mtx Cv Head}
    {frames : List (Frame Mtx Cv Head)} (hsite : frames.head?.bind Frame.site = some wh) (now nsec : Nat) :
    Calls (sleepOn w wh frames now nsec) := by
  have hsites : (Sleep.sleepOn w wh frames now nsec).site =
      Function.update w.site w.fib.currentThread (some wh) := by
    rw [← hsite]
    exact site_setFrames frames
  have hinside : ∀ t, (w.site t).isSome → t ≠ w.fib.currentThread := by
    rintro t ht rfl
    rw [hfrom] at ht
    cases ht
  -- the members of the queues keep their numbers
  have horder : ∀ wh', (w.fib.waithead wh').Pairwise fun t u =>
      Function.update w.serial w.fib.currentThread w.calls t <
        Function.update w.serial w.fib.currentThread w.calls u := by
    intro wh'
    refine (h.order wh').imp_of_mem fun {t u} ht hu hlt => ?_
    have hout := h.queues.not_mem_of_outside hfrom wh'
    have htcur : t ≠ w.fib.currentThread := fun heq => hout (heq ▸ ht)
    have hucur : u ≠ w.fib.currentThread := fun heq => hout (heq ▸ hu)
    rw [Function.update_of_ne htcur, Function.update_of_ne hucur]
    exact hlt
  constructor
  · rw [hsites]
    exact h.queues.waitBegin hfrom wh now nsec
  · intro wh'
    simp only [Sleep.sleepOn, RumpBaremetal.waitBegin]
    by_cases hwh : wh' = wh
    · subst hwh
      rw [Function.update_self]
      refine List.pairwise_append.mpr ⟨horder wh', List.pairwise_singleton _ _, ?_⟩
      intro t ht u hu
      have hin := ((h.queues.member wh' t).mp ht).1
      have hlt := h.known t (by rw [hin]; rfl)
      rw [List.mem_singleton.mp hu, Function.update_self,
        Function.update_of_ne (hinside t (by rw [hin]; rfl))]
      exact hlt
    · rw [Function.update_of_ne hwh]
      exact horder wh'
  · intro t ht
    rw [hsites] at ht
    simp only [Sleep.sleepOn]
    by_cases hcur : t = w.fib.currentThread
    · subst hcur
      rw [Function.update_self]
      exact Nat.lt_succ_self _
    · rw [Function.update_of_ne hcur]
      exact Nat.lt_succ_of_lt (h.known t ((isSome_update hcur).mp ht))
  · intro t u ht hu heq
    rw [hsites] at ht hu
    simp only [Sleep.sleepOn] at heq
    by_cases htcur : t = w.fib.currentThread
    · by_cases hucur : u = w.fib.currentThread
      · rw [htcur, hucur]
      · have hlt := h.known u ((isSome_update hucur).mp hu)
        rw [htcur, Function.update_self, Function.update_of_ne hucur] at heq
        omega
    · have hlt := h.known t ((isSome_update htcur).mp ht)
      by_cases hucur : u = w.fib.currentThread
      · rw [hucur, Function.update_self, Function.update_of_ne htcur] at heq
        omega
      · rw [Function.update_of_ne htcur, Function.update_of_ne hucur] at heq
        exact h.distinct t u ((isSome_update htcur).mp ht) ((isSome_update hucur).mp hu) heq
  · intro t ht
    rw [hsites] at ht
    simp only [Sleep.sleepOn, RumpBaremetal.waitBegin, World.setFrames]
    by_cases hcur : t = w.fib.currentThread
    · subst hcur
      rw [Function.update_self, Function.update_self]
      exact h.ahead w.calls (Nat.le_refl _)
    · rw [Function.update_of_ne hcur, Function.update_of_ne hcur]
      exact h.waiting t ((isSome_update hcur).mp ht)
  · intro n hn hgone
    have hn' : n < w.calls + 1 := hn
    have hnew := hgone w.fib.currentThread (by rw [hsites]; simp)
    simp only [Sleep.sleepOn, Function.update_self] at hnew
    refine h.finished n (by omega) fun t ht => ?_
    have hcur := hinside t ht
    have hold := hgone t (by rw [hsites]; exact (isSome_update hcur).mpr ht)
    simp only [Sleep.sleepOn, Function.update_of_ne hcur] at hold
    exact hold
  · intro n hn
    have hn' : w.calls + 1 ≤ n := hn
    exact h.ahead n (by omega)

/-- A call returns: what it finds in `onlist` is what has been put on record about it. -/
theorem endWait (h : Calls w) {wh : Wh Mtx Cv Head} (hin : w.site w.fib.currentThread = some wh)
    {frames : List (Frame Mtx Cv Head)} (hnone : frames.head?.bind Frame.site = none) :
    Calls (endWait w wh frames) := by
  have hsites : (Sleep.endWait w wh frames).site = Function.update w.site w.fib.currentThread none := by
    rw [← hnone]
    exact site_setFrames frames
  have hsome : (w.site w.fib.currentThread).isSome := by rw [hin]; rfl
  have hinside : ∀ t, ((Sleep.endWait w wh frames).site t).isSome → t ≠ w.fib.currentThread ∧
      (w.site t).isSome := by
    intro t ht
    rw [hsites] at ht
    have hcur : t ≠ w.fib.currentThread := by
      rintro rfl
      simp at ht
    exact ⟨hcur, (isSome_update hcur).mp ht⟩
  have hother : ∀ n, w.serial w.fib.currentThread ≠ n →
      tally (Sleep.endWait w wh frames).log n = tally w.log n := by
    intro n hne
    refine tally_append_of_ne fun k hk => ?_
    rw [call_of_mem_returnMarks hk]
    exact hne
  have honlist : (waitEnd w.fib wh).onlist = w.fib.onlist := by
    unfold RumpBaremetal.waitEnd
    split <;> rfl
  constructor
  · rw [hsites]
    exact h.queues.waitEnd hin
  · intro wh'
    have hsub : ((waitEnd w.fib wh).waithead wh').Sublist (w.fib.waithead wh') := by
      unfold RumpBaremetal.waitEnd
      split
      · by_cases hwh : wh' = wh
        · subst hwh
          simp only [Function.update_self]
          exact List.erase_sublist
        · simp only [Function.update_of_ne hwh]
          exact List.Sublist.refl _
      · exact List.Sublist.refl _
    exact (h.order wh').sublist hsub
  · intro t ht
    exact h.known t (hinside t ht).2
  · intro t u ht hu heq
    exact h.distinct t u (hinside t ht).2 (hinside u hu).2 heq
  · intro t ht
    obtain ⟨hcur, hold⟩ := hinside t ht
    have hne : w.serial w.fib.currentThread ≠ w.serial t :=
      fun heq => hcur (h.distinct t _ hold hsome heq.symm)
    have hmark : tally (Sleep.endWait w wh frames).log (w.serial t) = tally w.log (w.serial t) :=
      hother _ hne
    have hflag : (Sleep.endWait w wh frames).fib.onlist t = w.fib.onlist t := congrFun honlist t
    rw [hflag]
    exact hmark.trans (h.waiting t hold)
  · intro n hn hgone
    by_cases hself : w.serial w.fib.currentThread = n
    · subst hself
      exact tally_returned (h.waiting _ hsome)
    · rw [hother n hself]
      refine h.finished n hn fun t ht => ?_
      by_cases hcur : t = w.fib.currentThread
      · rw [hcur]
        exact hself
      · exact hgone t (by rw [hsites]; exact (isSome_update hcur).mpr ht)
  · intro n hn
    have hlt := h.known _ hsome
    have hn' : w.calls ≤ n := hn
    rw [hother n (by omega)]
    exact h.ahead n hn'

omit [DecidableEq Mtx] [DecidableEq Cv] [DecidableEq Head] in
/-- The scheduler and stray wakes do not touch the queues. -/
theorem cpu (h : Calls w) {e : CpuEvent Tid} (henabled : cpuEnabled w.fib e = true)
    (hout : ∀ wakeupTime, e = .sleep wakeupTime → w.site w.fib.currentThread = none) :
    Calls { w with fib := cpuEffect w.fib e } := by
  have hkeep : (cpuEffect w.fib e).waithead = w.fib.waithead ∧
      (cpuEffect w.fib e).onlist = w.fib.onlist := by
    cases e <;> exact ⟨rfl, rfl⟩
  refine ⟨h.queues.cpu henabled hout, ?_, h.known, h.distinct, ?_, h.finished, h.ahead⟩
  · rw [hkeep.1]
    exact h.order
  · rw [hkeep.2]
    exact h.waiting

end Calls

/-! ### The condition variables -/

/-- How many of the calls are condition waits on `c`. -/
def cvFrames (c : Cv) (frames : List (Frame Mtx Cv Head)) : Nat := frames.countP fun f => f.cv = some c

/-- `nwaiters` counts the condition waits in progress: `inside` lists the threads with one entry for each
    condition wait that they are inside of. -/
def CvCount (w : World Tid Lwp Mtx Cv Head) : Prop :=
  ∀ c, ∃ inside : List Tid, w.nwaiters c = inside.length ∧ ∀ t, inside.count t = w.cvCalls c t

omit [DecidableEq Mtx] [DecidableEq Head] in
theorem cvFrames_cons (c : Cv) (f : Frame Mtx Cv Head) (frames : List (Frame Mtx Cv Head)) :
    cvFrames c (f :: frames) = cvFrames c frames + if f.cv = some c then 1 else 0 := by
  simp only [cvFrames, List.countP_cons, decide_eq_true_eq]

omit [DecidableEq Mtx] [DecidableEq Head] in
theorem cvCalls_setFrames (frames : List (Frame Mtx Cv Head)) (c : Cv) :
    (w.setFrames frames).cvCalls c = Function.update (w.cvCalls c) w.fib.currentThread
    (cvFrames c frames) := by
  funext t
  by_cases ht : t = w.fib.currentThread
  · subst ht
    simp [World.cvCalls, World.setFrames, cvFrames]
  · simp [World.cvCalls, World.setFrames, ht]

namespace CvCount

omit [DecidableEq Mtx] [DecidableEq Head] in
theorem setFrames (h : CvCount w) {frames : List (Frame Mtx Cv Head)}
    (hsame : ∀ c, cvFrames c frames = cvFrames c w.frames) : CvCount (w.setFrames frames) := by
  intro c
  have hcalls : (w.setFrames frames).cvCalls c = w.cvCalls c := by
    rw [cvCalls_setFrames, hsame c]
    exact Function.update_eq_self _ _
  rw [hcalls]
  exact h c

omit [DecidableEq Mtx] [DecidableEq Head] in
/-- A thread goes into a condition wait. -/
theorem enter (h : CvCount w) {f : Frame Mtx Cv Head} {c : Cv} (hf : f.cv = some c) :
    CvCount { w.setFrames (f :: w.frames) with
      nwaiters := Function.update w.nwaiters c (w.nwaiters c + 1) } := by
  intro d
  obtain ⟨inside, hlen, hcount⟩ := h d
  have hcalls : ∀ t, (w.setFrames (f :: w.frames)).cvCalls d t =
      w.cvCalls d t + if t = w.fib.currentThread ∧ c = d then 1 else 0 := by
    intro t
    rw [cvCalls_setFrames, cvFrames_cons, hf]
    by_cases ht : t = w.fib.currentThread
    · subst ht
      simp [cvFrames, World.cvCalls, World.frames]
    · simp [ht]
  by_cases hd : c = d
  · subst hd
    refine ⟨w.fib.currentThread :: inside, ?_, fun t => ?_⟩
    · simp [hlen]
    · refine Eq.trans ?_ (hcalls t).symm
      rw [List.count_cons, hcount]
      by_cases ht : t = w.fib.currentThread
      · simp [ht]
      · simp [ht, Ne.symm ht]
  · refine ⟨inside, ?_, fun t => ?_⟩
    · simpa [Ne.symm hd] using hlen
    · refine Eq.trans ?_ (hcalls t).symm
      simp [hcount, hd]

omit [DecidableEq Mtx] [DecidableEq Head] in
/-- A thread comes back from a condition wait. -/
theorem leave (h : CvCount w) {f : Frame Mtx Cv Head} {rest : List (Frame Mtx Cv Head)} {c : Cv}
    (hframes : w.frames = f :: rest) (hf : f.cv = some c) : CvCount (cvReturn w c) := by
  intro d
  obtain ⟨inside, hlen, hcount⟩ := h d
  have hcalls : ∀ t, w.cvCalls d t =
      (w.setFrames w.frames.tail).cvCalls d t + if t = w.fib.currentThread ∧ c = d then 1 else 0 := by
    intro t
    rw [cvCalls_setFrames, hframes]
    by_cases ht : t = w.fib.currentThread
    · subst ht
      have hself : w.cvCalls d w.fib.currentThread = cvFrames d (f :: rest) := by rw [← hframes]; rfl
      rw [hself, cvFrames_cons, hf]
      simp
    · simp [ht]
  by_cases hd : c = d
  · subst hd
    have hmem : w.fib.currentThread ∈ inside := by
      refine List.count_pos_iff.mp ?_
      rw [hcount, hcalls]
      simp
    refine ⟨inside.erase w.fib.currentThread, ?_, fun t => ?_⟩
    · have hpos := List.length_pos_of_mem hmem
      simp only [cvReturn, Function.update_self, hlen, List.length_erase_of_mem hmem]
      omega
    · have hone := hcalls t
      rw [← hcount] at hone
      show _ = (w.setFrames w.frames.tail).cvCalls c t
      rw [List.count_erase, hone]
      by_cases ht : t = w.fib.currentThread
      · simp [ht]
      · simp [ht, Ne.symm ht]
  · refine ⟨inside, ?_, fun t => ?_⟩
    · simpa [cvReturn, Ne.symm hd] using hlen
    · show _ = (w.setFrames w.frames.tail).cvCalls d t
      rw [hcount, hcalls t]
      simp [hd]

end CvCount

/-! ### The invariant -/

structure Inv (w : World Tid Lwp Mtx Cv Head) : Prop where
  calls : Calls w
  /-- Only an innermost call is a call of `wait`. -/
  below : ∀ t, ∀ f ∈ (w.stack t).tail, f.site = none
  cvs : CvCount w

namespace Inv

omit [DecidableEq Mtx] [DecidableEq Head] in
theorem init (flags : Mtx → MtxFlags) (tls : Tid → Option Lwp) (tcb : Tcbs Tid) (running : Tid) :
    Inv (World.start flags tls tcb running : World Tid Lwp Mtx Cv Head) := by
  have hsite : ∀ t, (World.start flags tls tcb running : World Tid Lwp Mtx Cv Head).site t = none :=
    fun _ => rfl
  refine ⟨⟨⟨?_, ?_, ?_, ?_⟩, ?_, ?_, ?_, ?_, ?_, ?_⟩, ?_, ?_⟩
  · simp [World.start]
  · simp [World.start]
  · simp [hsite]
  · simp [World.start, isRunnable, setRunnable]
  · simp [World.start]
  · simp [hsite]
  · simp [hsite]
  · simp [hsite]
  · simp [World.start]
  · simp [World.start, tally]
  · simp [World.start]
  · intro c
    exact ⟨[], by simp [World.start, World.cvCalls]⟩

omit [DecidableEq Mtx] [DecidableEq Head] in
theorem below_setFrames (h : Inv w) {frames : List (Frame Mtx Cv Head)}
    (htail : ∀ f ∈ frames.tail, f.site = none) :
    ∀ t, ∀ f ∈ ((w.setFrames frames).stack t).tail, f.site = none := by
  intro t
  by_cases ht : t = w.fib.currentThread
  · subst ht
    simpa [World.setFrames] using htail
  · simpa [World.setFrames, ht] using h.below t

omit [DecidableEq Mtx] [DecidableEq Head] in
theorem tail_quiet (h : Inv w) : ∀ f ∈ w.frames.tail, f.site = none := h.below _

omit [DecidableEq Mtx] [DecidableEq Head] in
/-- A thread outside `wait` has no call of `wait` among its calls. -/
theorem frames_quiet (h : Inv w) (hfrom : w.site w.fib.currentThread = none) :
    ∀ f ∈ w.frames, f.site = none := by
  have htail := h.tail_quiet
  unfold World.site at hfrom
  unfold World.frames at htail ⊢
  cases hstack : w.stack w.fib.currentThread with
  | nil => simp
  | cons top rest =>
      rw [hstack] at hfrom htail
      intro f hf
      rcases List.mem_cons.mp hf with rfl | hrest
      · exact hfrom
      · exact htail f hrest

omit [DecidableEq Mtx] [DecidableEq Head] in
theorem setMtx (h : Inv w) (mtx : Mtx → Mutex.RumpuserMtx Lwp) : Inv { w with mtx := mtx } :=
  ⟨h.calls.congr rfl rfl rfl rfl rfl, h.below, h.cvs⟩

theorem wakeOne (h : Inv w) (wh : Wh Mtx Cv Head) : Inv (wakeOne w wh) :=
  ⟨h.calls.wakeOne wh, h.below, h.cvs⟩

theorem wakeAll (h : Inv w) (wh : Wh Mtx Cv Head) : Inv (wakeAll w wh) := by
  unfold Sleep.wakeAll
  generalize w.fib.waithead wh = queue
  induction queue generalizing w with
  | nil => exact h
  | cons who rest ih => exact ih (h.wakeOne wh)

theorem sleepOn (h : Inv w) (hfrom : w.site w.fib.currentThread = none) {wh : Wh Mtx Cv Head}
    {frames : List (Frame Mtx Cv Head)} (hsite : frames.head?.bind Frame.site = some wh)
    (htail : ∀ f ∈ frames.tail, f.site = none) (hcv : ∀ c, cvFrames c frames = cvFrames c w.frames)
    (now nsec : Nat) : Inv (sleepOn w wh frames now nsec) :=
  ⟨h.calls.sleepOn hfrom hsite now nsec, h.below_setFrames htail, h.cvs.setFrames hcv⟩

theorem endWait (h : Inv w) {wh : Wh Mtx Cv Head} (hin : w.site w.fib.currentThread = some wh)
    {frames : List (Frame Mtx Cv Head)} (hquiet : ∀ f ∈ frames, f.site = none)
    (hcv : ∀ c, cvFrames c frames = cvFrames c w.frames) : Inv (endWait w wh frames) := by
  have hnone : frames.head?.bind Frame.site = none := by
    cases frames with
    | nil => rfl
    | cons top rest => exact hquiet top List.mem_cons_self
  exact ⟨h.calls.endWait hin hnone, h.below_setFrames fun f hf => hquiet f (List.mem_of_mem_tail hf),
    h.cvs.setFrames hcv⟩

omit [DecidableEq Mtx] [DecidableEq Head] in
/-- From one place outside `wait` to another within the same condition wait. -/
theorem move (h : Inv w) {f g : Frame Mtx Cv Head} {rest : List (Frame Mtx Cv Head)}
    (hframes : w.frames = f :: rest) (hf : f.site = none) (hg : g.site = none) (hcv : g.cv = f.cv) :
    Inv (w.setFrames (g :: rest)) := by
  have hfrom : w.site w.fib.currentThread = none := by
    show w.frames.head?.bind Frame.site = none
    rw [hframes]
    exact hf
  have htail := h.tail_quiet
  rw [hframes] at htail
  refine ⟨h.calls.congr (site_setFrames_of_none hfrom hg) rfl rfl rfl rfl, h.below_setFrames htail,
    h.cvs.setFrames ?_⟩
  intro c
  rw [hframes, cvFrames_cons, cvFrames_cons, hcv]

omit [DecidableEq Mtx] [DecidableEq Head] in
theorem enterCv (h : Inv w) (hfrom : w.site w.fib.currentThread = none) {f : Frame Mtx Cv Head} {c : Cv}
    (hsite : f.site = none) (hcv : f.cv = some c) :
    Inv { w.setFrames (f :: w.frames) with nwaiters := Function.update w.nwaiters c (w.nwaiters c + 1) } :=
  ⟨h.calls.congr (site_setFrames_of_none hfrom hsite) rfl rfl rfl rfl,
    h.below_setFrames (h.frames_quiet hfrom), h.cvs.enter hcv⟩

omit [DecidableEq Mtx] [DecidableEq Head] in
theorem cvReturn (h : Inv w) {f : Frame Mtx Cv Head} {rest : List (Frame Mtx Cv Head)} {c : Cv}
    (hframes : w.frames = f :: rest) (hsite : f.site = none) (hcv : f.cv = some c) :
    Inv (cvReturn w c) := by
  have hfrom : w.site w.fib.currentThread = none := by
    show w.frames.head?.bind Frame.site = none
    rw [hframes]
    exact hsite
  have hquiet := h.tail_quiet
  have hnone : w.frames.tail.head?.bind Frame.site = none := by
    cases htail : w.frames.tail with
    | nil => rfl
    | cons top more => exact hquiet top (by rw [htail]; exact List.mem_cons_self)
  exact ⟨h.calls.congr (site_setFrames_of_none hfrom hnone) rfl rfl rfl rfl,
    h.below_setFrames fun f hf => hquiet f (List.mem_of_mem_tail hf), h.cvs.leave hframes hcv⟩

end Inv

/-! ### The steps -/

section Steps

variable [DecidableEq Lwp] {w' : World Tid Lwp Mtx Cv Head}

omit [DecidableEq Tid] [DecidableEq Cv] [DecidableEq Head] in
theorem tryenter_inv {m : Mtx} (h : tryenter w m = some w') : ∃ mtx, w' = { w with mtx := mtx } := by
  obtain ⟨mtx, -, heq⟩ := Option.map_eq_some_iff.mp h
  exact ⟨_, heq.symm⟩

omit [DecidableEq Lwp] in
theorem exit_inv {m : Mtx} (h : rumpuserMutexExit w m = some w') :
    ∃ mtx, w' = { wakeOne w (.lock (.mtx m)) with mtx := mtx } ∨ w' = { w with mtx := mtx } := by
  unfold rumpuserMutexExit at h
  dsimp only at h
  split at h
  · split at h
    · exact ⟨_, .inl (Option.some.inj h).symm⟩
    · exact ⟨_, .inr (Option.some.inj h).symm⟩
  · cases h

namespace Inv

omit [DecidableEq Head] in
theorem tryenter (h : Inv w) {m : Mtx} (hstep : tryenter w m = some w') : Inv w' := by
  obtain ⟨mtx, rfl⟩ := tryenter_inv hstep
  exact h.setMtx mtx

omit [DecidableEq Lwp] in
theorem exit (h : Inv w) {m : Mtx} (hstep : rumpuserMutexExit w m = some w') : Inv w' := by
  obtain ⟨mtx, rfl | rfl⟩ := exit_inv hstep
  · exact (h.wakeOne _).setMtx mtx
  · exact h.setMtx mtx

omit [DecidableEq Lwp] in
theorem cvSleep (h : Inv w) {c : Cv} {m : Mtx} {call : CvCall} {rest : List (Frame Mtx Cv Head)}
    (hframes : w.frames = .cvRelease c m call :: rest) {now : Nat}
    (hstep : cvSleep w c m call now = some w') :
    Inv w' := by
  obtain ⟨v, hexit, rfl⟩ := Option.map_eq_some_iff.mp hstep
  have hv := h.exit hexit
  have hsame : v.frames = w.frames := by
    obtain ⟨mtx, rfl | rfl⟩ := exit_inv hexit
    · simp [World.frames, Sleep.wakeOne]
    · rfl
  rw [hframes] at hsame
  have hfrom : v.site v.fib.currentThread = none := by
    show v.frames.head?.bind Frame.site = none
    rw [hsame]
    rfl
  have hsite : (Frame.cvWait c m call :: v.frames.tail).head?.bind Frame.site = some (.cv c) := rfl
  refine hv.sleepOn hfrom hsite hv.tail_quiet ?_ now call.waitNsec
  intro d
  rw [hsame, List.tail_cons, cvFrames_cons, cvFrames_cons]
  rfl

theorem cvWoken (h : Inv w) {c : Cv} {m : Mtx} {call : CvCall} {rest : List (Frame Mtx Cv Head)}
    (hframes : w.frames = .cvWait c m call :: rest) (hstep : cvWoken w c m call = some w') : Inv w' := by
  have hin : w.site w.fib.currentThread = some (.cv c) := by
    show w.frames.head?.bind Frame.site = some (.cv c)
    rw [hframes]
    rfl
  have hquiet : ∀ f ∈ Frame.cvSchedFirst c m :: w.frames.tail, f.site = none := by
    intro f hf
    rcases List.mem_cons.mp hf with rfl | hrest
    · rfl
    · exact h.tail_quiet f hrest
  have hback : Inv (Sleep.endWait w (.cv c) (.cvSchedFirst c m :: w.frames.tail)) := by
    refine h.endWait hin hquiet fun d => ?_
    rw [hframes, List.tail_cons, cvFrames_cons, cvFrames_cons]
    rfl
  have hat : (Sleep.endWait w (.cv c) (.cvSchedFirst c m :: w.frames.tail)).frames =
      .cvSchedFirst c m :: w.frames.tail := by
    simp [World.frames, Sleep.endWait, World.setFrames]
  -- the mutex taken back, the thread is still at the same place
  have htaken :
    ∀ {v}, Sleep.tryenter (Sleep.endWait w (.cv c) (.cvSchedFirst c m :: w.frames.tail)) m = some v →
      Inv v ∧ v.frames = .cvSchedFirst c m :: w.frames.tail := by
    intro v hv
    refine ⟨hback.tryenter hv, ?_⟩
    obtain ⟨mtx, rfl⟩ := tryenter_inv hv
    exact hat
  have hresched :
    ∀ {v}, Sleep.tryenter (Sleep.endWait w (.cv c) (.cvSchedFirst c m :: w.frames.tail)) m = some v →
      Inv (v.setFrames (.cvSchedLast c :: v.frames.tail)) := by
    intro v hv
    obtain ⟨hinv, hvat⟩ := htaken hv
    rw [hvat, List.tail_cons]
    exact hinv.move hvat rfl rfl rfl
  unfold Sleep.cvWoken at hstep
  dsimp only at hstep
  cases call with
  | cvWaitNowrap =>
      obtain ⟨v, hv, rfl⟩ := Option.map_eq_some_iff.mp hstep
      obtain ⟨hinv, hvat⟩ := htaken hv
      exact hinv.cvReturn hvat rfl rfl
  | cvWait | cvTimedwait sec nsec =>
      dsimp only at hstep
      split at hstep
      · cases hstep
        exact hback
      · obtain ⟨v, hv, rfl⟩ := Option.map_eq_some_iff.mp hstep
        exact hresched hv

omit [DecidableEq Lwp] in
theorem cvCall (h : Inv w) (hfrom : w.site w.fib.currentThread = none) {c : Cv} {m : Mtx} {call : CvCall}
    {now : Nat} (hstep : cvCall w c m call now = some w') : Inv w' := by
  have hin := h.enterCv hfrom (f := .cvRelease c m call) rfl rfl
  unfold Sleep.cvCall at hstep
  dsimp only at hstep
  cases call with
  | cvWaitNowrap =>
      have hat : World.frames { w.setFrames (.cvRelease c m .cvWaitNowrap :: w.frames) with
          nwaiters := Function.update w.nwaiters c (w.nwaiters c + 1) } = .cvRelease c m .cvWaitNowrap ::
            w.frames := by
        simp [World.frames, World.setFrames]
      exact hin.cvSleep hat hstep
  | cvWait | cvTimedwait sec nsec =>
      cases hstep
      exact hin

theorem resume (h : Inv w) {now : Nat} (hstep : resume w now = some w') : Inv w' := by
  unfold Sleep.resume at hstep
  split at hstep
  · cases hstep
  · rename_i l rest hframes
    cases hstep
    have hin : w.site w.fib.currentThread = some (.lock l) := by
      show w.frames.head?.bind Frame.site = some (.lock l)
      rw [hframes]
      rfl
    have hquiet := h.tail_quiet
    rw [hframes] at hquiet
    refine h.endWait hin hquiet fun c => ?_
    rw [hframes, cvFrames_cons]
    rfl
  · rename_i c m call rest hframes
    exact h.cvSleep hframes hstep
  · rename_i c m call rest hframes
    exact h.cvWoken hframes hstep
  · rename_i c m rest hframes
    obtain ⟨v, hv, rfl⟩ := Option.map_eq_some_iff.mp hstep
    obtain ⟨mtx, rfl⟩ := tryenter_inv hv
    exact (h.setMtx mtx).cvReturn hframes rfl rfl
  · rename_i c rest hframes
    cases hstep
    exact h.cvReturn hframes rfl rfl

end Inv

omit [DecidableEq Tid] [DecidableEq Mtx] [DecidableEq Cv] [DecidableEq Head] [DecidableEq Lwp] in
theorem mayCall_inv (h : w.mayCall = true) : w.site w.fib.currentThread = none := by
  simp only [World.mayCall, Bool.and_eq_true, Option.isNone_iff_eq_none] at h
  exact h.2

theorem inv_step {e : Event Tid Lwp Mtx Cv Head} (h : Inv w) (hstep : step w e = some w') : Inv w' := by
  obtain ⟨henabled, heffect⟩ := step_inv hstep
  cases e with
  | wait l nsec now =>
      cases heffect
      have hfrom := mayCall_inv henabled
      have hsite : (Frame.wait l :: w.frames).head?.bind Frame.site = some (.lock l) := rfl
      refine h.sleepOn hfrom hsite (h.frames_quiet hfrom) (fun c => ?_) now nsec
      rw [cvFrames_cons]
      rfl
  | wakeupOne wh =>
      cases heffect
      exact h.wakeOne wh
  | wakeupAll wh =>
      cases heffect
      exact h.wakeAll wh
  | tryenter m =>
      cases heffect
      cases hm : tryenter w m with
      | none => exact h
      | some v => exact h.tryenter hm
  | enterNowrap m => exact h.tryenter heffect
  | exit m => exact h.exit heffect
  | cvCall c m call now => exact h.cvCall (mayCall_inv henabled) heffect
  | curlwp l =>
      cases heffect
      exact ⟨h.calls.congr rfl rfl rfl rfl rfl, h.below, h.cvs⟩
  | resume now => exact h.resume heffect
  | cpu e =>
      cases heffect
      obtain ⟨hcpu, hout⟩ := cpuAllowed_inv henabled
      exact ⟨h.calls.cpu hcpu fun d hd => hout (.inl ⟨d, hd⟩), h.below, h.cvs⟩

end Steps

/-! ### Runs -/

/-- The accounts of the sleep queues. -/
structure Accounts (w : World Tid Lwp Mtx Cv Head) : Prop where
  /-- The records on a wait head are those of the threads inside `wait` on it that nobody has dequeued. -/
  queued : ∀ wh t, t ∈ w.fib.waithead wh ↔ w.site t = some wh ∧ w.fib.onlist t = true
  once : ∀ wh, (w.fib.waithead wh).Nodup
  /-- A thread inside `wait` has a call of its own, which has not left the queue, or has left it once by a
      wakeup; then the thread is runnable. -/
  inProgress : ∀ t, (w.site t).isSome → w.serial t < w.calls ∧
    (∀ u, (w.site u).isSome → w.serial u = w.serial t → u = t) ∧
    tally w.log (w.serial t) = .inProgress (w.fib.onlist t) ∧
    (w.fib.onlist t = false → isRunnable w.fib.tcb t = true)
  /-- Every other call has left its queue once: a wakeup took it off and it returned 0, or it took itself
      off and returned `ETIMEDOUT`. -/
  finished : ∀ n, n < w.calls → (∀ t, (w.site t).isSome → w.serial t ≠ n) →
    tally w.log n = ⟨1, 0, 1, 0⟩ ∨ tally w.log n = ⟨0, 1, 0, 1⟩
  /-- `wakeup_one` on a queue that is not empty takes off one call, the oldest. -/
  wakeup : ∀ wh who rest, w.fib.waithead wh = who :: rest →
    (wakeOne w wh).log = w.log ++ [.dequeued (w.serial who)] ∧ ∀ t ∈ rest, w.serial who < w.serial t
  /-- `nwaiters` is the number of threads inside the condition waits, and no less than the length of the
      queue. -/
  nwaiters : ∀ c, (w.fib.waithead (.cv c)).length ≤ w.nwaiters c ∧ ∃ inside : List Tid,
    w.nwaiters c = inside.length ∧ (∀ t, inside.count t = w.cvCalls c t) ∧
    ((∀ t, w.cvCalls c t ≤ 1) → inside.Nodup)
  hasWaiters : ∀ c, rumpuserCvHasWaiters w c = true ↔ ∃ t, 0 < w.cvCalls c t

omit [DecidableEq Tid] [DecidableEq Mtx] [DecidableEq Head] in
/-- A thread inside `wait` on a condition variable is inside a condition wait on it. -/
theorem cvCalls_pos_of_site {c : Cv} {t : Tid} (hsite : w.site t = some (.cv c)) : 0 < w.cvCalls c t := by
  unfold World.site at hsite
  unfold World.cvCalls
  cases hstack : w.stack t with
  | nil =>
      rw [hstack] at hsite
      cases hsite
  | cons top rest =>
      rw [hstack] at hsite
      refine List.countP_pos_iff.mpr ⟨top, List.mem_cons_self, ?_⟩
      cases top with
      | cvWait d m call =>
          cases hsite
          simp [Frame.cv]
      | wait _ | cvRelease _ _ _ | cvSchedFirst _ _ | cvSchedLast _ => cases hsite

namespace Inv

omit [DecidableEq Mtx] [DecidableEq Head] in
theorem queue_le_nwaiters (h : Inv w) (c : Cv) :
    ((w.fib.waithead (.cv c)).length : Int) ≤ w.nwaiters c := by
  obtain ⟨inside, hlen, hcount⟩ := h.cvs c
  have hsub : w.fib.waithead (.cv c) ⊆ inside := by
    intro t ht
    refine List.count_pos_iff.mp ?_
    rw [hcount]
    exact cvCalls_pos_of_site ((h.calls.queues.member _ t).mp ht).1
  have hle := ((h.calls.queues.once (.cv c)).subperm hsub).length_le
  rw [hlen]
  exact_mod_cast hle

omit [DecidableEq Mtx] [DecidableEq Head] in
theorem hasWaiters (h : Inv w) (c : Cv) : rumpuserCvHasWaiters w c = true ↔ ∃ t, 0 < w.cvCalls c t := by
  obtain ⟨inside, hlen, hcount⟩ := h.cvs c
  simp only [rumpuserCvHasWaiters, hlen, decide_eq_true_eq]
  constructor
  · intro hne
    obtain ⟨t, ht⟩ := List.exists_mem_of_ne_nil inside (by rintro rfl; exact hne rfl)
    exact ⟨t, by rw [← hcount]; exact List.count_pos_iff.mpr ht⟩
  · rintro ⟨t, ht⟩
    rw [← hcount] at ht
    have hpos := List.length_pos_of_mem (List.count_pos_iff.mp ht)
    omega

theorem accounts (h : Inv w) : Accounts w where
  queued := h.calls.queues.member
  once := h.calls.queues.once
  inProgress := by
    intro t ht
    exact ⟨h.calls.known t ht, fun u hu heq => h.calls.distinct u t hu ht heq, h.calls.waiting t ht,
      h.calls.queues.woken t ht⟩
  finished := h.calls.finished
  wakeup := by
    intro wh who rest hqueue
    have horder := h.calls.order wh
    rw [hqueue] at horder
    exact ⟨by simp [Sleep.wakeOne, hqueue], (List.pairwise_cons.mp horder).1⟩
  nwaiters := by
    intro c
    obtain ⟨inside, hlen, hcount⟩ := h.cvs c
    refine ⟨h.queue_le_nwaiters c, inside, hlen, hcount, fun hone => ?_⟩
    refine List.nodup_iff_count_le_one.mpr fun t => ?_
    rw [hcount]
    exact hone t
  hasWaiters := h.hasWaiters

end Inv

/-- Whatever the threads do with the wait heads and condition variables, and however timeouts and stray
    wakes fall, the accounts of the sleep queues are in order. -/
theorem sleep_queues_account [DecidableEq Lwp] {flags : Mtx → MtxFlags} {tls : Tid → Option Lwp}
    {tcb : Tcbs Tid} {running : Tid} {events : List (Event Tid Lwp Mtx Cv Head)}
    {w : World Tid Lwp Mtx Cv Head} (hrun : run step (World.start flags tls tcb running) events = some w) :
    Accounts w :=
  (run_invariant (fun _ _ _ h hstep => inv_step h hstep) (Inv.init flags tls tcb running) hrun).accounts

/-- Thread 0 waits on a condition variable and thread 1 elsewhere, both with a timeout; thread 2 signals
    thread 0.  Both timeouts expire before the two run again: thread 1 times out and thread 0 does not. -/
theorem sleep_queues_account_two :
    ∃ w : World Nat Nat Unit Unit Unit, run step (World.start (fun _ => ⟨false, false⟩) some awake 0)
        [.tryenter (), .cvCall () () (.cvTimedwait 0 5) 0, .resume 0, .cpu (.dispatch 1),
          .wait (.other ()) 3 0,
          .cpu (.dispatch 2), .wakeupOne (.cv ()), .cpu .yield, .cpu (.expire 10 0), .cpu (.expire 10 1),
          .cpu (.dispatch 1), .resume 10, .cpu .yield, .cpu (.dispatch 0), .resume 10] = some w ∧
      w.log = [.dequeued 0, .withdrew 1, .returned 1 true, .returned 0 false] ∧ w.nwaiters () = 1 ∧
      Accounts w := by
  have h : (run step (World.start (fun _ => ⟨false, false⟩) some awake 0 : World Nat Nat Unit Unit Unit)
      [.tryenter (), .cvCall () () (.cvTimedwait 0 5) 0, .resume 0, .cpu (.dispatch 1),
        .wait (.other ()) 3 0,
        .cpu (.dispatch 2), .wakeupOne (.cv ()), .cpu .yield, .cpu (.expire 10 0), .cpu (.expire 10 1),
        .cpu (.dispatch 1), .resume 10, .cpu .yield, .cpu (.dispatch 0), .resume 10]).map
        (fun w => (w.log, w.nwaiters ())) =
      some ([.dequeued 0, .withdrew 1, .returned 1 true, .returned 0 false], 1) := by decide +kernel
  obtain ⟨w, hrun, hends⟩ := Option.map_eq_some_iff.mp h
  obtain ⟨hlog, hcount⟩ := Prod.mk.inj hends
  exact ⟨w, hrun, hlog, hcount, sleep_queues_account hrun⟩

end RumpBaremetal.Sleep
