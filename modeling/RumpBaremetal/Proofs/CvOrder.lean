/-
Module: RumpBaremetal.Proofs.CvOrder
Layer: Proofs
Purpose: The order of the condition waits.  Each wait gets a number when it is called.  A thread that has
  called a wait and is not on the queue yet still holds the mutex, so nobody else gets the mutex, or begins
  to wait, before it is queued: the queue is in the order of the calls, and a signal takes the wait that was
  called first.
Trusted boundary: none (fully proved)
Main exports: Ticketed, departed, ticketStep, tickets, signalled, withdrawn, queue_step, QueuedOrGone,
  TicketInv, CvOrdered, cv_waits_served_in_order
-/
import RumpBaremetal.Proofs.Mutex
import RumpBaremetal.Lib.Fifo

namespace RumpBaremetal.Mutex

open StepSystem

variable {Tid Lwp Cv : Type*} [DecidableEq Tid] [DecidableEq Lwp] [DecidableEq Cv]

/-- The machine with a number for each condition wait, in the order of the calls: `next` is the number of
    the next call, `ticket` that of the latest call of each thread.  `gone` is a record of the waits that
    have left a queue, taken off it by a signal or a broadcast or by themselves. -/
structure Ticketed (Tid Lwp Cv : Type*) where
  world : World Tid Lwp Cv
  next : Nat
  ticket : Tid → Nat
  gone : List Nat

def ticketInit (flags : MtxFlags) (tls : Tid → Option Lwp) (tcb : Tcbs Tid) (running : Tid) :
    Ticketed Tid Lwp Cv :=
  ⟨rumpuserMutexInit flags tls tcb running, 0, fun _ => 0, []⟩

/-- The waits that are queued on a condition variable. -/
def tickets (c : Cv) (x : Ticketed Tid Lwp Cv) : List Nat := (x.world.fib.waithead (.cv c)).map x.ticket

/-- The waits that leave a queue with an event. -/
def departed (x : Ticketed Tid Lwp Cv) : Event Tid Cv → List Nat
  | .cvSignal c => (tickets c x).head?.toList
  | .cvBroadcast c => tickets c x
  | .resume _ =>
      match x.world.pc x.world.fib.currentThread with
      | .cvWait _ _ =>
          if x.world.fib.onlist x.world.fib.currentThread then [x.ticket x.world.fib.currentThread] else []
      | _ => []
  | _ => []

/-- A thread with `2^31 - 1` unmatched enters does not ask for one more. -/
def TicketNests (x : Ticketed Tid Lwp Cv) (e : Event Tid Cv) : Prop := Nests x.world e

instance (x : Ticketed Tid Lwp Cv) (e : Event Tid Cv) : Decidable (TicketNests x e) :=
  inferInstanceAs (Decidable (Nests x.world e))

def ticketStep (x : Ticketed Tid Lwp Cv) (e : Event Tid Cv) : Option (Ticketed Tid Lwp Cv) :=
  (step x.world e).map fun w =>
    match e with
    | .cvCall _ _ _ => ⟨w, x.next + 1, Function.update x.ticket x.world.fib.currentThread x.next, x.gone⟩
    | _ => { x with world := w, gone := departed x e ++ x.gone }

/-- The wait that a signal takes off the queue. -/
def signalled (c : Cv) (x : Ticketed Tid Lwp Cv) (e : Event Tid Cv) : List Nat :=
  if e = .cvSignal c then (tickets c x).head?.toList else []

/-- The event makes the running thread take itself off the queue. -/
def leaves (c : Cv) (w : World Tid Lwp Cv) : Event Tid Cv → Bool
  | .resume _ =>
      match w.pc w.fib.currentThread with
      | .cvWait c' _ => decide (c' = c) && w.fib.onlist w.fib.currentThread
      | _ => false
  | _ => false

/-- The event puts the running thread on the queue. -/
def joins (c : Cv) (w : World Tid Lwp Cv) : Event Tid Cv → Bool
  | .cvCall c' .cvWaitNowrap _ => decide (c' = c)
  | .resume _ =>
      match w.pc w.fib.currentThread with
      | .cvUnsched c' _ => decide (c' = c)
      | _ => false
  | _ => false

/-- The wait that ends because the thread took itself off the queue: it was not woken by a wakeup. -/
def withdrawn (c : Cv) (x : Ticketed Tid Lwp Cv) (e : Event Tid Cv) : List Nat :=
  if leaves c x.world e then [x.ticket x.world.fib.currentThread] else []

variable {w w' : World Tid Lwp Cv} {x x' : Ticketed Tid Lwp Cv} {e : Event Tid Cv}

/-- The condition variable of the condition wait that a thread is inside of. -/
def Pc.cvOf : Pc Cv → Option Cv
  | .cvUnsched c _ | .cvWait c _ | .cvSchedFirst c | .cvSchedLast c => some c
  | _ => none

/-! ### The queue of a condition variable -/

omit [DecidableEq Cv] in
theorem tryenter_fib (h : tryenter w = some w') : w'.fib = w.fib ∧ w'.pc = w.pc := by
  unfold tryenter at h
  obtain ⟨mtx, -, rfl⟩ := Option.map_eq_some_iff.mp h
  exact ⟨rfl, rfl⟩

omit [DecidableEq Cv] in
theorem enterNowrap_fib (w : World Tid Lwp Cv) (failed : Halt) :
    (rumpuserMutexEnterNowrap w failed).fib = w.fib ∧ (rumpuserMutexEnterNowrap w failed).pc = w.pc := by
  unfold rumpuserMutexEnterNowrap
  split
  · rename_i w' h
    exact tryenter_fib h
  · exact ⟨rfl, rfl⟩

theorem wakeupOne_waithead_of_ne (s : Fibers Tid (Wh Cv)) {wh wh' : Wh Cv} (h : wh' ≠ wh) :
    (wakeupOne s wh).waithead wh' = s.waithead wh' := by
  unfold wakeupOne
  split
  · rfl
  · simp [h]

theorem wakeupOne_waithead_self (s : Fibers Tid (Wh Cv)) (wh : Wh Cv) :
    (wakeupOne s wh).waithead wh = (s.waithead wh).tail := by
  unfold wakeupOne
  split
  · rename_i h
    rw [h]
    rfl
  · rename_i h
    simp [h]

omit [DecidableEq Lwp] in
/-- An exit of the mutex leaves the condition variables alone. -/
theorem exit_queue (w : World Tid Lwp Cv) (c : Cv) :
    (rumpuserMutexExit w).fib.waithead (.cv c) = w.fib.waithead (.cv c) ∧
      (rumpuserMutexExit w).fib.currentThread = w.fib.currentThread ∧ (rumpuserMutexExit w).pc = w.pc := by
  unfold rumpuserMutexExit
  split
  · dsimp only
    split
    · exact ⟨wakeupOne_waithead_of_ne w.fib (by simp), wakeupOne_currentThread w.fib _, rfl⟩
    · exact ⟨rfl, rfl, rfl⟩
  · exact ⟨rfl, rfl, rfl⟩

omit [DecidableEq Lwp] in
theorem cvSleep_queue (w : World Tid Lwp Cv) (c c' : Cv) (call : CvCall) (now : Nat) :
    (cvSleep w c' call now).fib.waithead (.cv c) =
      if c' = c then w.fib.waithead (.cv c) ++ [w.fib.currentThread] else w.fib.waithead (.cv c) := by
  obtain ⟨hqueue, hcur, -⟩ := exit_queue w c
  simp only [cvSleep, asleep, waitBegin, goto]
  by_cases hc : c' = c
  · subst hc
    rw [Function.update_self, hqueue, hcur, if_pos rfl]
  · rw [Function.update_of_ne (by simp [Ne.symm hc]), hqueue, if_neg hc]

theorem cvWoken_queue (w : World Tid Lwp Cv) (c c' : Cv) (call : CvCall) :
    (cvWoken w c' call).fib.waithead (.cv c) = (waitEnd w.fib (.cv c')).waithead (.cv c) := by
  unfold cvWoken
  dsimp only
  split
  · simp only [cvReturn, goto, (enterNowrap_fib _ _).1]
  · split
    · rfl
    · simp only [goto, (enterNowrap_fib _ _).1]

theorem enterLoop_queue (w : World Tid Lwp Cv) (now : Nat) (c : Cv) :
    (enterLoop w now).fib.waithead (.cv c) = w.fib.waithead (.cv c) := by
  unfold enterLoop retry
  split
  · rename_i w' h
    simp only [goto, (tryenter_fib h).1]
  · simp [asleep, waitBegin]

/-- What an event does to the queue of a condition variable, a broadcast on it aside. -/
theorem queue_step (h : step w e = some w') {c : Cv} (hbroadcast : e ≠ .cvBroadcast c) :
    w'.fib.waithead (.cv c) =
      if e = .cvSignal c then (w.fib.waithead (.cv c)).tail
      else if leaves c w e then (w.fib.waithead (.cv c)).erase w.fib.currentThread
      else if joins c w e then w.fib.waithead (.cv c) ++ [w.fib.currentThread]
      else w.fib.waithead (.cv c) := by
  obtain ⟨-, -, rfl⟩ := step_inv h
  cases e with
  | enter =>
      simp only [effect, rumpuserMutexEnter, leaves, joins]
      split
      · rename_i w' hw'
        rw [(tryenter_fib hw').1]
        simp
      · simp [goto]
  | tryenter =>
      simp only [effect, leaves, joins]
      cases hw' : tryenter w with
      | none => simp
      | some w' => simp [(tryenter_fib hw').1]
  | enterNowrap => simp [effect, leaves, joins, (enterNowrap_fib _ _).1]
  | exit => simp [effect, leaves, joins, (exit_queue w c).1]
  | cvCall c' call now =>
      cases call with
      | cvWaitNowrap => simp [effect, cvCall, leaves, joins, cvSleep_queue]
      | cvWait => simp [effect, cvCall, leaves, joins, goto]
      | cvTimedwait sec nsec => simp [effect, cvCall, leaves, joins, goto]
  | cvSignal c' =>
      by_cases hc : c' = c
      · subst hc
        simp [effect, wakeupOne_waithead_self]
      · have hne : (Wh.cv c : Wh Cv) ≠ .cv c' := by simpa using Ne.symm hc
        rw [if_neg (by simpa using hc)]
        simp [effect, leaves, joins, wakeupOne_waithead_of_ne w.fib hne]
  | cvBroadcast c' =>
      have hc : (Wh.cv c : Wh Cv) ≠ .cv c' := by
        rintro ⟨⟩
        exact hbroadcast rfl
      simp [effect, leaves, joins, wakeupAll_eq, Function.update_of_ne hc]
  | resume now =>
      cases hpc : w.pc w.fib.currentThread with
      | outside => simp [effect, resume, leaves, joins, hpc]
      | enterUnsched => simp [effect, resume, leaves, joins, hpc, enterLoop_queue]
      | enterWait => simp [effect, resume, leaves, joins, hpc, enterLoop_queue, waitEnd_waithead]
      | enterSched => simp [effect, resume, leaves, joins, hpc, goto]
      | cvUnsched c' call => simp [effect, resume, leaves, joins, hpc, cvSleep_queue]
      | cvWait c' call => simp [effect, resume, leaves, joins, hpc, cvWoken_queue, waitEnd_waithead]
      | cvSchedFirst c' => simp [effect, resume, leaves, joins, hpc, cvReturn, goto, enterNowrap_fib]
      | cvSchedLast c' => simp [effect, resume, leaves, joins, hpc, cvReturn, goto]
  | cpu e => cases e <;> simp [effect, cpuEffect, leaves, joins]

/-! ### Where the threads are -/

omit [DecidableEq Lwp] in
theorem cvSleep_pc (w : World Tid Lwp Cv) (c : Cv) (call : CvCall) (now : Nat) :
    (cvSleep w c call now).pc = Function.update w.pc w.fib.currentThread (.cvWait c call) := by
  obtain ⟨-, hcur, hpc⟩ := exit_queue w c
  simp only [cvSleep, asleep, goto, hcur, hpc]

theorem cvWoken_pc (w : World Tid Lwp Cv) (c : Cv) (call : CvCall) :
    ∃ p, (cvWoken w c call).pc = Function.update w.pc w.fib.currentThread p ∧
      (∀ c call, p ≠ .cvUnsched c call) ∧ ∀ c', p.cvOf = some c' → c' = c := by
  unfold cvWoken
  dsimp only
  split
  · exact ⟨.outside, by simp [cvReturn, goto, enterNowrap_fib], by simp, by simp [Pc.cvOf]⟩
  · split
    · exact ⟨.cvSchedFirst c, by simp [goto], by simp, by simp [Pc.cvOf, eq_comm]⟩
    · exact ⟨.cvSchedLast c, by simp [goto, enterNowrap_fib], by simp, by simp [Pc.cvOf, eq_comm]⟩

theorem enterLoop_pc (w : World Tid Lwp Cv) (now : Nat) :
    ∃ p, (enterLoop w now).pc = Function.update w.pc w.fib.currentThread p ∧ p.cvOf = none := by
  unfold enterLoop retry
  split
  · rename_i w' h
    exact ⟨.enterSched, by simp [goto, tryenter_fib h], rfl⟩
  · exact ⟨.enterWait, by simp [asleep, goto], rfl⟩

/-- Where an event may take the running thread: into a condition wait only by a call of it or from inside of
    it, and to `rumpkern_unsched` there only by a call. -/
structure Reaches (w : World Tid Lwp Cv) (e : Event Tid Cv) (p : Pc Cv) : Prop where
  unsched : ∀ c call, p = .cvUnsched c call → ∃ now, e = .cvCall c call now ∧ call ≠ .cvWaitNowrap
  inside : ∀ c, p.cvOf = some c → (∃ call now, e = .cvCall c call now) ∨
    (w.pc w.fib.currentThread).cvOf = some c ∧ ∃ now, e = .resume now

omit [DecidableEq Tid] [DecidableEq Lwp] [DecidableEq Cv] in
theorem Reaches.of_none {p : Pc Cv} (h : p.cvOf = none) : Reaches w e p where
  unsched := by
    rintro c call rfl
    cases h
  inside := by
    intro c hc
    rw [h] at hc
    cases hc

/-- Only the running thread moves. -/
theorem pc_step (h : step w e = some w') :
    (w'.pc = w.pc ∧ ∀ now, e ≠ .resume now) ∨
    ∃ p, w'.pc = Function.update w.pc w.fib.currentThread p ∧ Reaches w e p := by
  obtain ⟨-, henabled, rfl⟩ := step_inv h
  cases e with
  | enter =>
      simp only [effect, rumpuserMutexEnter]
      split
      · rename_i w' hw'
        exact .inl ⟨(tryenter_fib hw').2, by simp⟩
      · exact .inr ⟨.enterUnsched, rfl, .of_none rfl⟩
  | tryenter =>
      refine .inl ⟨?_, by simp⟩
      cases hw' : tryenter w with
      | none => simp [effect, hw']
      | some w' => simp [effect, hw', (tryenter_fib hw').2]
  | enterNowrap => exact .inl ⟨(enterNowrap_fib _ _).2, by simp⟩
  | exit =>
      refine .inl ⟨?_, by simp⟩
      simp only [effect, rumpuserMutexExit]
      split
      · split <;> rfl
      · rfl
  | cvCall c call now =>
      refine .inr ?_
      cases call with
      | cvWaitNowrap => exact ⟨_, cvSleep_pc _ _ _ _, ⟨by simp, by simp [Pc.cvOf]⟩⟩
      | cvWait => exact ⟨.cvUnsched c .cvWait, rfl, ⟨by simp, by simp [Pc.cvOf]⟩⟩
      | cvTimedwait sec nsec =>
          exact ⟨.cvUnsched c (.cvTimedwait sec nsec), rfl, ⟨by simp, by simp [Pc.cvOf]⟩⟩
  | cvSignal c => exact .inl ⟨rfl, by simp⟩
  | cvBroadcast c => exact .inl ⟨rfl, by simp⟩
  | resume now =>
      refine .inr ?_
      cases hpc : w.pc w.fib.currentThread with
      | outside => simp [enabled, hpc] at henabled
      | enterUnsched =>
          obtain ⟨p, heq, hnone⟩ := enterLoop_pc w now
          exact ⟨p, by simp only [effect, resume, hpc, heq], .of_none hnone⟩
      | enterWait =>
          obtain ⟨p, heq, hnone⟩ := enterLoop_pc { w with fib := waitEnd w.fib .mtx } now
          refine ⟨p, ?_, .of_none hnone⟩
          simp only [effect, resume, hpc, heq, waitEnd_currentThread]
      | enterSched => exact ⟨.outside, by simp only [effect, resume, hpc, goto], .of_none rfl⟩
      | cvUnsched c call =>
          exact ⟨.cvWait c call, by simp only [effect, resume, hpc, cvSleep_pc], by simp, by simp [Pc.cvOf,
            hpc]⟩
      | cvWait c call =>
          obtain ⟨p, heq, hne, hsame⟩ := cvWoken_pc w c call
          refine ⟨p, by simp only [effect, resume, hpc, heq], fun c' call' h => absurd h (hne c' call'), ?_⟩
          intro c' hc'
          obtain rfl := hsame c' hc'
          exact .inr ⟨by rw [hpc]; rfl, now, rfl⟩
      | cvSchedFirst c =>
          exact ⟨.outside, by simp [effect, resume, hpc, cvReturn, goto, enterNowrap_fib], .of_none rfl⟩
      | cvSchedLast c => exact ⟨.outside, by simp only [effect, resume, hpc, cvReturn, goto], .of_none rfl⟩
  | cpu e => exact .inl ⟨by cases e <;> rfl, by simp⟩

/-! ### The numbers are in order -/

/-- The thread has called a wait on `c` and has not returned from it. -/
def Waits (w : World Tid Lwp Cv) (t : Tid) (c : Cv) : Prop := (w.pc t).cvOf = some c

/-- The wait of the thread is on the queue, or on record as having left it. -/
def QueuedOrGone (x : Ticketed Tid Lwp Cv) (t : Tid) (c : Cv) : Prop :=
  t ∈ x.world.fib.waithead (.cv c) ∨ x.ticket t ∈ x.gone

structure TicketInv (x : Ticketed Tid Lwp Cv) : Prop where
  inv : Inv x.world
  sorted : ∀ c, (tickets c x).Pairwise (· < ·)
  below : ∀ c, ∀ n ∈ tickets c x, n < x.next
  /-- A thread that has called a wait and is not queued yet has called after all that are queued. -/
  latest : ∀ t c call, x.world.pc t = .cvUnsched c call →
    x.ticket t < x.next ∧ ∀ c', ∀ n ∈ tickets c' x, n < x.ticket t
  /-- A thread inside a wait that is not in front of the queue is on it, or has left it. -/
  queued : ∀ t c, Waits x.world t c → (∃ call, x.world.pc t = .cvUnsched c call) ∨ QueuedOrGone x t c

theorem ticketStep_inv (h : ticketStep x e = some x') :
    step x.world e = some x'.world ∧
      ((∃ c call now, e = .cvCall c call now ∧ x'.next = x.next + 1 ∧
        x'.ticket = Function.update x.ticket x.world.fib.currentThread x.next) ∨
      ((∀ c call now, e ≠ .cvCall c call now) ∧ x'.next = x.next ∧ x'.ticket = x.ticket)) := by
  unfold ticketStep at h
  obtain ⟨w, hstep, rfl⟩ := Option.map_eq_some_iff.mp h
  cases e with
  | cvCall c call now => exact ⟨hstep, .inl ⟨c, call, now, rfl, rfl, rfl⟩⟩
  | _ => exact ⟨hstep, .inr ⟨by simp, rfl, rfl⟩⟩

theorem ticketStep_gone (h : ticketStep x e = some x') : x'.gone = departed x e ++ x.gone := by
  unfold ticketStep at h
  obtain ⟨w, -, rfl⟩ := Option.map_eq_some_iff.mp h
  cases e <;> rfl

/-- The number of the running thread's wait behind the event. -/
def callNumber (x : Ticketed Tid Lwp Cv) : Event Tid Cv → Nat
  | .cvCall _ _ _ => x.next
  | _ => x.ticket x.world.fib.currentThread

theorem ticketStep_number (h : ticketStep x e = some x') :
    x'.ticket x.world.fib.currentThread = callNumber x e := by
  obtain ⟨-, ⟨c, call, now, rfl, -, hupdate⟩ | ⟨hcall, -, hsame⟩⟩ := ticketStep_inv h
  · rw [hupdate, Function.update_self]
    rfl
  · rw [hsame]
    cases e with
    | cvCall c call now => exact absurd rfl (hcall c call now)
    | _ => rfl

/-- What an event does to the numbers on a queue, as operations of a queue. -/
def queueOps (c : Cv) (x : Ticketed Tid Lwp Cv) (e : Event Tid Cv) : List (Fifo.Op Nat) :=
  if e = .cvSignal c then [.pop]
  else if leaves c x.world e then [.remove (x.ticket x.world.fib.currentThread)]
  else if joins c x.world e then [.push (callNumber x e)]
  else []

omit [DecidableEq Tid] [DecidableEq Lwp] in
theorem leaves_inv {c : Cv} (h : leaves c w e = true) :
    ∃ call now, e = .resume now ∧ w.pc w.fib.currentThread = .cvWait c call ∧
      w.fib.onlist w.fib.currentThread = true := by
  cases e with
  | resume now =>
      cases hpc : w.pc w.fib.currentThread with
      | cvWait c' call =>
          simp only [leaves, hpc, Bool.and_eq_true, decide_eq_true_eq] at h
          obtain ⟨rfl, hon⟩ := h
          exact ⟨call, now, rfl, rfl, hon⟩
      | _ => simp [leaves, hpc] at h
  | _ => cases h

omit [DecidableEq Tid] [DecidableEq Lwp] in
theorem callNumber_of_leaves {c : Cv} (h : leaves c x.world e = true) :
    callNumber x e = x.ticket x.world.fib.currentThread := by
  obtain ⟨_, _, rfl, -⟩ := leaves_inv h
  rfl

theorem map_erase_of_sorted {l : List Tid} {f : Tid → Nat} {t : Tid} (ht : t ∈ l)
    (hsorted : (l.map f).Pairwise (· < ·)) : (l.erase t).map f = (l.map f).erase (f t) := by
  have hnodup : (l.map f).Nodup := hsorted.imp fun hlt => hlt.ne
  obtain ⟨l₁, l₂, hnot, rfl, herase⟩ := List.exists_erase_eq ht
  rw [List.map_append, List.map_cons] at hnodup
  rw [herase, List.map_append, List.map_append, List.map_cons, List.erase_append_right,
    List.erase_cons_head]
  intro hmem
  exact (List.nodup_append.mp hnodup).2.2 _ hmem _ List.mem_cons_self rfl

namespace TicketInv

omit [DecidableEq Tid] [DecidableEq Lwp] [DecidableEq Cv] in
/-- Two threads are not both between their calls and the queue, for both would hold the mutex. -/
theorem alone (h : TicketInv x) (hok : x.world.halted = none) {t u : Tid} {c : Cv} {call : CvCall}
    (ht : x.world.pc t = .cvUnsched c call) (hu : 0 < x.world.depth u) : t = u :=
  h.inv.owned.alone t u (h.inv.within hok t (by simp [ht, Pc.mustHold])) hu

omit [DecidableEq Tid] [DecidableEq Lwp] [DecidableEq Cv] in
theorem not_queued (h : TicketInv x) {t : Tid} (hout : (x.world.pc t).site = none) (c : Cv) :
    t ∉ x.world.fib.waithead (.cv c) :=
  h.inv.queues.not_mem_of_outside hout (.cv c)

omit [DecidableEq Tid] [DecidableEq Lwp] in
/-- Who takes itself off the queue is on it. -/
theorem leaves_mem (h : TicketInv x) {c : Cv} (hleaves : leaves c x.world e = true) :
    x.world.fib.currentThread ∈ x.world.fib.waithead (.cv c) := by
  obtain ⟨call, now, -, hpc, hon⟩ := leaves_inv hleaves
  exact (h.inv.queues.member _ _).mpr ⟨by simp [hpc, Pc.site], hon⟩

omit [DecidableEq Lwp] [DecidableEq Cv] in
/-- A new call leaves the numbers on the queues alone. -/
theorem tickets_update (h : TicketInv x) {t : Tid} (hout : (x.world.pc t).site = none) (c : Cv) (n : Nat) :
    (x.world.fib.waithead (.cv c)).map (Function.update x.ticket t n) = tickets c x := by
  refine List.map_congr_left fun u hu => ?_
  have hne : u ≠ t := by
    rintro rfl
    exact h.not_queued hout c hu
  rw [Function.update_of_ne hne]

/-- The numbers on a queue change as those of a queue do, a broadcast aside. -/
theorem tickets_eq (h : TicketInv x) (hstep : ticketStep x e = some x') {c : Cv}
    (hbroadcast : e ≠ .cvBroadcast c) :
    tickets c x' = (queueOps c x e).foldl Fifo.apply (tickets c x) := by
  obtain ⟨hworld, hticket⟩ := ticketStep_inv hstep
  obtain ⟨-, henabled, -⟩ := step_inv hworld
  have hmap : (x.world.fib.waithead (.cv c)).map x'.ticket = tickets c x := by
    rcases hticket with ⟨c', call, now, rfl, -, hupdate⟩ | ⟨-, -, hsame⟩
    · rw [hupdate]
      exact h.tickets_update (by rw [(holds_inv henabled).2.1]; rfl) c _
    · rw [hsame]
      rfl
  rw [show tickets c x' = (x'.world.fib.waithead (.cv c)).map x'.ticket from rfl,
    queue_step hworld hbroadcast]
  unfold queueOps
  split
  · rw [List.map_tail, hmap]
    rfl
  · split
    · rename_i hleaves
      have hmem := h.leaves_mem hleaves
      have hsorted := h.sorted c
      rw [← hmap] at hsorted
      rw [map_erase_of_sorted hmem hsorted, hmap, ticketStep_number hstep, callNumber_of_leaves hleaves]
      rfl
    · split
      · rw [List.map_append, hmap, List.map_singleton, ticketStep_number hstep]
        rfl
      · exact hmap

theorem tickets_step (h : TicketInv x) (hstep : ticketStep x e = some x') (c : Cv) :
    (tickets c x').Sublist (tickets c x) ∨
      (joins c x.world e = true ∧ tickets c x' = tickets c x ++ [x'.ticket x.world.fib.currentThread]) := by
  by_cases hbroadcast : e = .cvBroadcast c
  · refine .inl ?_
    subst hbroadcast
    have hempty : x'.world.fib.waithead (.cv c) = [] := by
      rw [(step_inv (ticketStep_inv hstep).1).2.2]
      simp [effect, wakeupAll_eq]
    simp [tickets, hempty]
  · rw [h.tickets_eq hstep hbroadcast]
    unfold queueOps
    split
    · exact .inl (List.tail_sublist _)
    · split
      · exact .inl List.erase_sublist
      · split
        · rename_i hjoins
          exact .inr ⟨hjoins, by rw [ticketStep_number hstep]; rfl⟩
        · exact .inl (List.Sublist.refl _)

/-- The thread that joins a queue has called after all that are queued. -/
theorem joins_latest (h : TicketInv x) (hstep : ticketStep x e = some x') {c : Cv}
    (hjoins : joins c x.world e = true) :
    x'.ticket x.world.fib.currentThread < x'.next ∧
      ∀ c', ∀ n ∈ tickets c' x, n < x'.ticket x.world.fib.currentThread := by
  obtain ⟨-, ⟨c₀, call, now, rfl, hnext, hupdate⟩ | ⟨hcall, hnext, hsame⟩⟩ := ticketStep_inv hstep
  · rw [hupdate, hnext, Function.update_self]
    exact ⟨Nat.lt_succ_self _, h.below⟩
  · rw [hsame, hnext]
    cases e with
    | cvCall c₀ call now => exact absurd rfl (hcall c₀ call now)
    | resume now =>
        cases hpc : x.world.pc x.world.fib.currentThread with
        | cvUnsched c₀ call => exact h.latest _ c₀ call hpc
        | _ => simp [joins, hpc] at hjoins
    | _ => simp [joins] at hjoins

/-- A thread on its way to the queue was on its way before, with nobody else joining a queue meanwhile, or
    has just made the call. -/
theorem unsched_step (h : TicketInv x) (hstep : ticketStep x e = some x') {t : Tid} {c : Cv} {call : CvCall}
    (hpc : x'.world.pc t = .cvUnsched c call) :
    (x.world.pc t = .cvUnsched c call ∧ (∀ c' call now, e ≠ .cvCall c' call now) ∧
      ∀ c', joins c' x.world e = false) ∨
    (t = x.world.fib.currentThread ∧ ∃ now, e = .cvCall c call now ∧ call ≠ .cvWaitNowrap) := by
  obtain ⟨hworld, -⟩ := ticketStep_inv hstep
  obtain ⟨hok, henabled, -⟩ := step_inv hworld
  have hbefore : x.world.pc t = .cvUnsched c call →
    (t = x.world.fib.currentThread → ∀ now, e ≠ .resume now) →
      (∀ c' call now, e ≠ .cvCall c' call now) ∧ ∀ c', joins c' x.world e = false := by
    intro ht hresume
    have hcall : ∀ c' call now, e ≠ .cvCall c' call now := by
      rintro c' call' now rfl
      obtain ⟨-, hout, hholds⟩ := holds_inv henabled
      have hcur := h.alone hok ht hholds
      rw [← hcur, ht] at hout
      cases hout
    refine ⟨hcall, fun c' => ?_⟩
    cases e with
    | cvCall c₀ call now => exact absurd rfl (hcall c₀ call now)
    | resume now =>
        cases hcur : x.world.pc x.world.fib.currentThread with
        | cvUnsched c₀ call₀ =>
            have hholds := h.inv.within hok x.world.fib.currentThread (by simp [hcur, Pc.mustHold])
            exact absurd rfl (hresume (h.alone hok ht hholds) now)
        | _ => simp [joins, hcur]
    | _ => rfl
  obtain ⟨hsame, hresume⟩ | ⟨p, hupdate, hp⟩ := pc_step hworld
  · rw [hsame] at hpc
    exact .inl ⟨hpc, hbefore hpc fun _ => hresume⟩
  · rw [hupdate] at hpc
    by_cases ht : t = x.world.fib.currentThread
    · subst ht
      rw [Function.update_self] at hpc
      exact .inr ⟨rfl, hp.unsched c call hpc⟩
    · rw [Function.update_of_ne ht] at hpc
      exact .inl ⟨hpc, hbefore hpc fun heq => absurd heq ht⟩

/-- A thread that was on a queue is still on it, or has left it with this event. -/
theorem leaves_departed (hstep : ticketStep x e = some x') {t : Tid} {c : Cv}
    (hmem : t ∈ x.world.fib.waithead (.cv c)) :
    t ∈ x'.world.fib.waithead (.cv c) ∨ x.ticket t ∈ departed x e := by
  obtain ⟨hworld, -⟩ := ticketStep_inv hstep
  by_cases hbroadcast : e = .cvBroadcast c
  · subst hbroadcast
    exact .inr (List.mem_map_of_mem hmem)
  · rw [queue_step hworld hbroadcast]
    split
    · rename_i hsignal
      subst hsignal
      cases hqueue : x.world.fib.waithead (.cv c) with
      | nil =>
          rw [hqueue] at hmem
          cases hmem
      | cons who rest =>
          rw [hqueue] at hmem
          rcases List.mem_cons.mp hmem with rfl | hrest
          · exact .inr (by simp [departed, tickets, hqueue])
          · exact .inl hrest
    · split
      · rename_i hleaves
        by_cases ht : t = x.world.fib.currentThread
        · obtain ⟨call, now, rfl, hpc, hon⟩ := leaves_inv hleaves
          exact .inr (by simp [departed, hpc, hon, ht])
        · exact .inl ((List.mem_erase_of_ne ht).mpr hmem)
      · split
        · exact .inl (List.mem_append_left _ hmem)
        · exact .inl hmem

/-- What was queued or gone stays so as long as the thread makes no new call. -/
theorem queuedOrGone_step (hstep : ticketStep x e = some x') {t : Tid} {c : Cv}
    (hsame : x'.ticket t = x.ticket t) (hbefore : QueuedOrGone x t c) : QueuedOrGone x' t c := by
  rw [QueuedOrGone, hsame, ticketStep_gone hstep, List.mem_append]
  rcases hbefore with hmem | hgone
  · rcases leaves_departed hstep hmem with hstill | hleft
    · exact .inl hstill
    · exact .inr (.inl hleft)
  · exact .inr (.inr hgone)

/-- The running thread inside a condition wait, behind an event. -/
theorem queued_current (h : TicketInv x) (hstep : ticketStep x e = some x') {p : Pc Cv} {c : Cv}
    (hreaches : Reaches x.world e p) (hinside : p.cvOf = some c) :
    (∃ call, x'.world.pc x.world.fib.currentThread = .cvUnsched c call) ∨
      QueuedOrGone x' x.world.fib.currentThread c := by
  obtain ⟨hworld, -⟩ := ticketStep_inv hstep
  have hjoined : joins c x.world e = true → (∀ c, e ≠ .cvSignal c) → (∀ c, e ≠ .cvBroadcast c) →
      leaves c x.world e = false → QueuedOrGone x' x.world.fib.currentThread c := by
    intro hjoins hsignal hbroadcast hleaves
    refine .inl ?_
    rw [queue_step hworld (hbroadcast c), if_neg (hsignal c), if_neg (by simp [hleaves]), if_pos hjoins]
    exact List.mem_append_right _ List.mem_cons_self
  obtain ⟨call, now, rfl⟩ | ⟨hwas, now, rfl⟩ := hreaches.inside c hinside
  · cases call with
    | cvWaitNowrap => exact .inr (hjoined (by simp [joins]) (by simp) (by simp) rfl)
    | cvWait =>
        refine .inl ⟨.cvWait, ?_⟩
        rw [(step_inv hworld).2.2]
        simp only [effect, cvCall, goto, Function.update_self]
    | cvTimedwait sec nsec =>
        refine .inl ⟨.cvTimedwait sec nsec, ?_⟩
        rw [(step_inv hworld).2.2]
        simp only [effect, cvCall, goto, Function.update_self]
  · refine .inr ?_
    have hticket : x'.ticket x.world.fib.currentThread = x.ticket x.world.fib.currentThread :=
      ticketStep_number hstep
    cases hpc : x.world.pc x.world.fib.currentThread with
    | cvUnsched c' call =>
        rw [hpc] at hwas
        obtain rfl : c' = c := Option.some.inj hwas
        exact hjoined (by simp [joins, hpc]) (by simp) (by simp) (by simp [leaves, hpc])
    | cvWait c' call | cvSchedFirst c' | cvSchedLast c' =>
        refine queuedOrGone_step hstep hticket ?_
        obtain ⟨call', hunsched⟩ | hbefore := h.queued x.world.fib.currentThread c hwas
        · rw [hpc] at hunsched
          cases hunsched
        · exact hbefore
    | outside | enterUnsched | enterWait | enterSched =>
        rw [hpc] at hwas
        cases hwas

theorem queued_step (h : TicketInv x) (hstep : ticketStep x e = some x') {t : Tid} {c : Cv}
    (hwaits : Waits x'.world t c) :
    (∃ call, x'.world.pc t = .cvUnsched c call) ∨ QueuedOrGone x' t c := by
  obtain ⟨hworld, hticket⟩ := ticketStep_inv hstep
  -- a thread that did not move is where it was, with the number it had
  have hkept : x'.world.pc t = x.world.pc t → x'.ticket t = x.ticket t →
      (∃ call, x'.world.pc t = .cvUnsched c call) ∨ QueuedOrGone x' t c := by
    intro hpc hsame
    rw [Waits, hpc] at hwaits
    rw [hpc]
    exact (h.queued t c hwaits).imp_right (queuedOrGone_step hstep hsame)
  have hother : t ≠ x.world.fib.currentThread → x'.ticket t = x.ticket t := by
    intro hne
    rcases hticket with ⟨_, _, _, _, _, hupdate⟩ | ⟨_, _, hsame⟩
    · rw [hupdate, Function.update_of_ne hne]
    · rw [hsame]
  obtain ⟨hsame, -⟩ | ⟨p, hupdate, hreaches⟩ := pc_step hworld
  · refine hkept (by rw [hsame]) ?_
    rcases hticket with ⟨c', call, now, rfl, -, -⟩ | ⟨_, _, hticket⟩
    · by_cases hne : t = x.world.fib.currentThread
      · subst hne
        rw [Waits, hsame, (holds_inv (step_inv hworld).2.1).2.1] at hwaits
        cases hwaits
      · exact hother hne
    · rw [hticket]
  · by_cases hne : t = x.world.fib.currentThread
    · subst hne
      rw [Waits, hupdate, Function.update_self] at hwaits
      exact h.queued_current hstep hreaches hwaits
    · exact hkept (by rw [hupdate, Function.update_of_ne hne]) (hother hne)

theorem step (h : TicketInv x) (hnests : Nests x.world e) (hstep : ticketStep x e = some x') :
    TicketInv x' := by
  obtain ⟨hworld, hticket⟩ := ticketStep_inv hstep
  have hnext : x.next ≤ x'.next := by
    rcases hticket with ⟨_, _, _, _, hnext, _⟩ | ⟨_, hnext, _⟩ <;> omega
  refine ⟨inv_step h.inv hnests hworld, ?_, ?_, ?_, fun t c => h.queued_step hstep⟩
  · intro c
    rcases h.tickets_step hstep c with hsub | ⟨hjoins, heq⟩
    · exact (h.sorted c).sublist hsub
    · rw [heq, List.pairwise_append]
      refine ⟨h.sorted c, List.pairwise_singleton _ _, fun n hn m hm => ?_⟩
      rw [List.mem_singleton.mp hm]
      exact (h.joins_latest hstep hjoins).2 c n hn
  · intro c n hn
    rcases h.tickets_step hstep c with hsub | ⟨hjoins, heq⟩
    · exact (h.below c n (hsub.subset hn)).trans_le hnext
    · rw [heq, List.mem_append, List.mem_singleton] at hn
      rcases hn with hn | rfl
      · exact (h.below c n hn).trans_le hnext
      · exact (h.joins_latest hstep hjoins).1
  · intro t c call hpc
    obtain ⟨hbefore, hcall, hjoins⟩ | ⟨rfl, now, rfl, hwrap⟩ := h.unsched_step hstep hpc
    · have hsame : x'.next = x.next ∧ x'.ticket = x.ticket := by
        rcases hticket with ⟨c', call', now, rfl, -⟩ | ⟨-, hsame⟩
        · exact absurd rfl (hcall c' call' now)
        · exact hsame
      obtain ⟨hlt, hlatest⟩ := h.latest t c call hbefore
      rw [hsame.1, hsame.2]
      refine ⟨hlt, fun c' n hn => ?_⟩
      rcases h.tickets_step hstep c' with hsub | ⟨hjoin, -⟩
      · exact hlatest c' n (hsub.subset hn)
      · rw [hjoins c'] at hjoin
        cases hjoin
    · rcases hticket with ⟨_, _, _, -, hnext', hupdate⟩ | ⟨hcall, -⟩
      · rw [hnext', hupdate, Function.update_self]
        refine ⟨Nat.lt_succ_self _, fun c' n hn => ?_⟩
        rcases h.tickets_step hstep c' with hsub | ⟨hjoin, -⟩
        · exact h.below c' n (hsub.subset hn)
        · cases call with
          | cvWaitNowrap => exact absurd rfl hwrap
          | _ => cases hjoin
      · exact absurd rfl (hcall c call now)

omit [DecidableEq Lwp] [DecidableEq Cv] in
theorem init (flags : MtxFlags) {tls : Tid → Option Lwp} (bound : Bound tls) (tcb : Tcbs Tid)
    (running : Tid) :
    TicketInv (ticketInit flags tls tcb running : Ticketed Tid Lwp Cv) :=
  ⟨.init flags bound tcb running, fun _ => .nil, fun _ _ hn => (by cases hn),
    fun _ _ _ hpc => (by cases hpc),
    fun _ _ hwaits => (by cases hwaits)⟩

end TicketInv

/-! ### Signals as service of a queue -/

/-- The numbers that can still join a queue: those of calls to come, and that of the thread on its way. -/
def Later (x : Ticketed Tid Lwp Cv) (n : Nat) : Prop :=
  x.next ≤ n ∨ ∃ t c call, x.world.pc t = .cvUnsched c call ∧ x.ticket t = n

namespace TicketInv

omit [DecidableEq Tid] [DecidableEq Lwp] [DecidableEq Cv] in
theorem lt_later (h : TicketInv x) {n : Nat} (hlater : Later x n) {c : Cv} {m : Nat}
    (hm : m ∈ tickets c x) :
    m < n := by
  rcases hlater with hnext | ⟨t, c', call, hpc, rfl⟩
  · exact (h.below c m hm).trans_le hnext
  · exact (h.latest t c' call hpc).2 c m hm

omit [DecidableEq Tid] [DecidableEq Lwp] [DecidableEq Cv] in
theorem nodup (h : TicketInv x) (c : Cv) : (tickets c x).Nodup := (h.sorted c).imp fun hlt => hlt.ne

omit [DecidableEq Tid] [DecidableEq Lwp] [DecidableEq Cv] in
/-- Numbers that can still join are apart from those on the queue. -/
theorem nodup_append (h : TicketInv x) (c : Cv) {l : List Nat} (hlater : ∀ n ∈ l, Later x n)
    (hl : l.Nodup) :
    (tickets c x ++ l).Nodup :=
  List.nodup_append.mpr ⟨h.nodup c, hl, fun _ hm _ hn => (h.lt_later (hlater _ hn) hm).ne⟩

theorem later_step (h : TicketInv x) (hstep : ticketStep x e = some x') {n : Nat} (hlater : Later x' n) :
    Later x n := by
  obtain ⟨-, hticket⟩ := ticketStep_inv hstep
  rcases hlater with hnext | ⟨t, c, call, hpc, rfl⟩
  · refine .inl ?_
    rcases hticket with ⟨_, _, _, _, heq, _⟩ | ⟨_, heq, _⟩ <;> omega
  · obtain ⟨hbefore, hcall, -⟩ | ⟨rfl, now, rfl, -⟩ := h.unsched_step hstep hpc
    · rcases hticket with ⟨c', call', now, rfl, -⟩ | ⟨-, -, hsame⟩
      · exact absurd rfl (hcall c' call' now)
      · exact .inr ⟨t, c, call, hbefore, by rw [hsame]⟩
    · refine .inl ?_
      rw [ticketStep_number hstep]
      exact le_rfl

omit [DecidableEq Tid] [DecidableEq Lwp] in
theorem joins_later {c : Cv} (hjoins : joins c x.world e = true) : Later x (callNumber x e) := by
  cases e with
  | cvCall c' call now => exact .inl le_rfl
  | resume now =>
      cases hpc : x.world.pc x.world.fib.currentThread with
      | cvUnsched c' call => exact .inr ⟨_, c', call, hpc, rfl⟩
      | _ => simp [joins, hpc] at hjoins
  | _ => simp [joins] at hjoins

end TicketInv

/-- The operations on a queue along a run, a broadcast on it aside: what is served is what was signalled,
    what is removed is what withdrew, and nobody joins twice. -/
theorem queueOps_run (c : Cv) (es : List (Event Tid Cv)) :
    ∀ x y : Ticketed Tid Lwp Cv, TicketInv x → Meets ticketStep TicketNests x es →
      (∀ e ∈ es, e ≠ .cvBroadcast c) →
      run ticketStep x es = some y →
      Fifo.Proper (tickets c x) (collect ticketStep (queueOps c) x es) ∧
      (∀ n ∈ Fifo.pushes (collect ticketStep (queueOps c) x es), Later x n) ∧
      (tickets c x ++ Fifo.pushes (collect ticketStep (queueOps c) x es)).Nodup ∧
      Fifo.popped (tickets c x) (collect ticketStep (queueOps c) x es) =
      collect ticketStep (signalled c) x es ∧
      Fifo.removed (collect ticketStep (queueOps c) x es) = collect ticketStep (withdrawn c) x es ∧
      Fifo.pops (collect ticketStep (queueOps c) x es) = es.count (.cvSignal c) := by
  induction es with
  | nil =>
      intro x y h _ _ _
      exact ⟨trivial, fun n hn => (by cases hn), h.nodup_append c (fun n hn => (by cases hn)) .nil, rfl,
        rfl, rfl⟩
  | cons e es ih =>
      intro x y h hnests hbroadcast hrun
      obtain ⟨x', hstep, hrest⟩ := run_cons_inv hrun
      have htickets := h.tickets_eq hstep (hbroadcast e List.mem_cons_self)
      obtain ⟨hproper, hlater, hnodup, hpopped, hremoved, hpops⟩ :=
        ih x' y (h.step hnests.1 hstep) (hnests.2 x' hstep)
          (fun e he => hbroadcast e (List.mem_cons_of_mem _ he)) hrest
      have hlater' : ∀ n ∈ Fifo.pushes (collect ticketStep (queueOps c) x' es), Later x n :=
        fun n hn => h.later_step hstep (hlater n hn)
      have hfresh := (List.nodup_append.mp hnodup).2.1
      rw [collect_cons hstep, collect_cons hstep, collect_cons hstep]
      by_cases hsignal : e = .cvSignal c
      · -- the signal serves the queue
        have hops : queueOps c x e = [.pop] := if_pos hsignal
        rw [hops] at htickets ⊢
        subst hsignal
        refine ⟨⟨by simp, by rw [htickets] at hproper; exact hproper⟩, hlater',
          h.nodup_append c hlater' hfresh, ?_, hremoved, ?_⟩
        · rw [← hpopped, htickets, signalled, if_pos rfl]
          rfl
        · rw [List.count_cons_self, ← hpops]
          rfl
      · have hsignalled : signalled c x e = [] := if_neg hsignal
        have hcount : (e :: es).count (.cvSignal c) = es.count (.cvSignal c) :=
          List.count_cons_of_ne hsignal
        rw [hsignalled, hcount]
        by_cases hleaves : leaves c x.world e = true
        · have hops : queueOps c x e = [.remove (x.ticket x.world.fib.currentThread)] := by
            simp only [queueOps, if_neg hsignal, if_pos hleaves]
          have hwithdrawn : withdrawn c x e = [x.ticket x.world.fib.currentThread] := if_pos hleaves
          rw [hops] at htickets ⊢
          rw [hwithdrawn]
          refine ⟨⟨?_, by rw [htickets] at hproper; exact hproper⟩, hlater',
            h.nodup_append c hlater' hfresh, ?_, ?_, hpops⟩
          · rintro n ⟨⟩
            exact List.mem_map_of_mem (h.leaves_mem hleaves)
          · rw [List.nil_append, ← hpopped, htickets]
            rfl
          · rw [← hremoved]
            rfl
        · have hwithdrawn : withdrawn c x e = [] := if_neg hleaves
          rw [hwithdrawn]
          by_cases hjoins : joins c x.world e = true
          · have hops : queueOps c x e = [.push (callNumber x e)] := by
              simp only [queueOps, if_neg hsignal, if_neg hleaves, if_pos hjoins]
            rw [hops] at htickets ⊢
            have hall : ∀ n ∈ callNumber x e :: Fifo.pushes (collect ticketStep (queueOps c) x' es),
                Later x n := by
              intro n hn
              rcases List.mem_cons.mp hn with rfl | hn
              · exact TicketInv.joins_later hjoins
              · exact hlater' n hn
            refine ⟨⟨by simp, by rw [htickets] at hproper; exact hproper⟩, hall, h.nodup_append c hall ?_,
              ?_, hremoved, hpops⟩
            · refine List.nodup_cons.mpr ⟨fun hmem => ?_, hfresh⟩
              refine (List.nodup_append.mp hnodup).2.2 _ ?_ _ hmem rfl
              rw [htickets]
              exact List.mem_append_right _ List.mem_cons_self
            · rw [List.nil_append, ← hpopped, htickets]
              rfl
          · have hops : queueOps c x e = [] := by
              simp only [queueOps, if_neg hsignal, if_neg hleaves, if_neg hjoins]
            rw [hops] at htickets ⊢
            obtain htickets : tickets c x' = tickets c x := htickets
            rw [htickets] at hproper hpopped
            exact ⟨hproper, hlater', h.nodup_append c hlater' hfresh, hpopped, hremoved, hpops⟩

/-! ### Condition waits in order -/

structure CvOrdered (x : Ticketed Tid Lwp Cv) : Prop where
  /-- As soon as another thread could enter the mutex, the wait of a thread is queued, or has been. -/
  atomic : ∀ t c, Waits x.world t c → ∀ u, u ≠ t →
    rumpuserMutexTryenter x.world.mtx (x.world.tls u) ≠ none → QueuedOrGone x t c
  /-- A thread that holds the mutex and is about to call a hypercall finds all waits queued. -/
  complete : x.world.calls = true → x.world.holds = true → ∀ t c, Waits x.world t c → QueuedOrGone x t c
  /-- The queue is in the order of the calls. -/
  ordered : ∀ c, (tickets c x).Pairwise (· < ·)
  /-- From here on, signals take the waits at the front that do not withdraw, in the order of their
      calls. -/
  signals : ∀ c es y, run ticketStep x es = some y → Meets ticketStep TicketNests x es →
    (∀ e ∈ es, e ≠ .cvBroadcast c) →
    es.count (.cvSignal c) ≤
      (Fifo.staying (collect ticketStep (withdrawn c) x es) (tickets c x)).length →
    collect ticketStep (signalled c) x es =
      (Fifo.staying (collect ticketStep (withdrawn c) x es) (tickets c x)).take (es.count (.cvSignal c))
  /-- A broadcast takes all waits that are queued, and nothing else. -/
  broadcast : ∀ c x', ticketStep x (.cvBroadcast c) = some x' →
    tickets c x' = [] ∧ x'.gone = tickets c x ++ x.gone ∧
      ∀ t, x'.world.fib.onlist t =
        if t ∈ x.world.fib.waithead (.cv c) then false else x.world.fib.onlist t

theorem TicketInv.cvOrdered (h : TicketInv x) (hok : x.world.halted = none) : CvOrdered x := by
  have hholds : ∀ t c call, x.world.pc t = .cvUnsched c call → 0 < x.world.depth t :=
    fun t c call hpc => h.inv.within hok t (by simp [hpc, Pc.mustHold])
  constructor
  · intro t c hwaits u hne henter
    obtain ⟨call, hpc⟩ | hqueued := h.queued t c hwaits
    · -- the waiter still holds the mutex, so nobody else can enter
      obtain ⟨hv, ho⟩ := h.inv.owned.count t (hholds t c call hpc)
      have hpos := hholds t c call hpc
      refine absurd ?_ henter
      rw [rumpuserMutexTryenter, if_pos]
      refine ⟨fun hzero => ?_, fun hlwp => hne ?_⟩
      · rw [Counter.eq_zero_iff] at hzero
        omega
      · rw [ho] at hlwp
        exact (h.inv.bound.distinct t u hlwp).symm
    · exact hqueued
  · intro hcalls hheld t c hwaits
    obtain ⟨call, hpc⟩ | hqueued := h.queued t c hwaits
    · obtain ⟨-, hout⟩ := runsAt_inv hcalls
      have hcur := h.alone hok hpc (of_decide_eq_true hheld)
      rw [← hcur, hpc] at hout
      cases hout
    · exact hqueued
  · exact h.sorted
  · intro c es y hrun hnests hbroadcast hlen
    obtain ⟨hproper, -, hnodup, hpopped, hremoved, hpops⟩ := queueOps_run c es x y h hnests hbroadcast hrun
    rw [← hpopped, ← hremoved, ← hpops]
    rw [← hremoved, ← hpops] at hlen
    exact Fifo.popped_eq _ _ hproper hnodup hlen
  · intro c x' hstep
    have hworld := (step_inv (ticketStep_inv hstep).1).2.2
    refine ⟨?_, ticketStep_gone hstep, ?_⟩
    · simp [tickets, hworld, effect, wakeupAll_eq]
    · intro t
      simp only [hworld, effect, wakeupAll_eq]

/-- Condition waits release the mutex and sleep as one, and are served in the order of their calls: in every
    state that the threads of one mutex reach before a panic, with the nesting count of the mutex in
    range. -/
theorem cv_waits_served_in_order {flags : MtxFlags} {tls : Tid → Option Lwp} (bound : Bound tls)
    {tcb : Tcbs Tid} {running : Tid} {events : List (Event Tid Cv)}
    (hnests : Meets ticketStep TicketNests (ticketInit flags tls tcb running) events)
    (hrun : run ticketStep (ticketInit flags tls tcb running) events = some x)
    (hok : x.world.halted = none) :
    CvOrdered x := by
  have h : TicketInv x := run_invariant_of_meets (fun _ _ _ h hnests hstep => h.step hnests hstep)
    (.init flags bound tcb running) hnests hrun
  exact h.cvOrdered hok

/-- Threads 0 and 1 wait, one through `rumpkern_unsched` and one without; thread 2 takes the mutex and
    signals twice. -/
theorem cv_waits_served_in_order_two :
    ∃ x : Ticketed Nat Nat Unit, run ticketStep (ticketInit ⟨false, false⟩ some awake 0)
        [.enter, .cvCall () .cvWait 0, .resume 0, .cpu (.dispatch 1), .enter, .cvCall () .cvWaitNowrap 0,
          .cpu (.dispatch 2), .enter] = some x ∧
      CvOrdered x ∧ tickets () x = [0, 1] ∧
      collect ticketStep (signalled ()) x [.cvSignal (), .cvSignal ()] = [0, 1] := by
  have hordered := @cv_waits_served_in_order Nat Nat Unit _ _ _ _ ⟨false, false⟩ some bound_some awake 0
    [.enter, .cvCall () .cvWait 0, .resume 0, .cpu (.dispatch 1), .enter, .cvCall () .cvWaitNowrap 0,
      .cpu (.dispatch 2), .enter] (by decide) rfl rfl
  exact ⟨_, rfl, hordered, rfl,
    hordered.signals () [.cvSignal (), .cvSignal ()] _ rfl (by decide) (by decide) (by decide)⟩

end RumpBaremetal.Mutex
