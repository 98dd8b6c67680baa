/-
Module: RumpBaremetal.Proofs.ThreadMemory
Layer: Proofs
Purpose: The threads own the memory they are made of.  At every moment the heap's live allocations are those
  of the clients, and one record and one stack for each thread that has not been reaped; so the reaper gives
  back only what is held, once, and no write to a record or to a stack of a thread on a queue is a write to
  freed memory.
Trusted boundary: none (fully proved)
Main exports: Sched.Kept, World.threadBlocks, Owned, Requested, OwnMemory, threads_own_memory
-/
import RumpBaremetal.Kernel.ThreadMemory
import RumpBaremetal.Proofs.Lifecycle
import RumpBaremetal.Proofs.Requests
import RumpBaremetal.Arch.Switch

namespace RumpBaremetal

open ByteMem StepSystem

/-! ### What the scheduler's calls keep -/

namespace Sched

/-- No thread is created or freed, and none changes the kind of its stack. -/
structure Kept (w w' : World) : Prop where
  created : w'.created = w.created
  freed : w'.freedThreads = w.freedThreads
  extstack : ∀ t, (w'.tcb t).flags.extstack = (w.tcb t).flags.extstack

namespace Kept

variable {w w' w'' : World}

theorem refl (w : World) : Kept w w := ⟨rfl, rfl, fun _ => rfl⟩

theorem trans (h : Kept w w') (h' : Kept w' w'') : Kept w w'' :=
  ⟨h'.created.trans h.created, h'.freed.trans h.freed, fun t => (h'.extstack t).trans (h.extstack t)⟩

theorem setTcb {tcb : Tcbs Tid} (same : ∀ t, SameButRunState (w.tcb t) (tcb t)) :
    Kept w { w with tcb := tcb } :=
  ⟨rfl, rfl, fun t => (same t).extstack⟩

theorem setFlags (w : World) (thread : Tid) {f : Flags → Flags}
    (hf : ∀ flags, (f flags).extstack = flags.extstack) :
    Kept w (w.setFlags thread f) := by
  refine ⟨rfl, rfl, fun t => ?_⟩
  by_cases ht : t = thread
  · subst ht
    simp [World.setFlags, RumpBaremetal.setFlags, hf]
  · simp [World.setFlags, RumpBaremetal.setFlags, ht]

theorem enterSched (w : World) (caller : Caller) : Kept w (enterSched w caller) := ⟨rfl, rfl, fun _ => rfl⟩

theorem exitLoop (w : World) : Kept w (exitLoop w) := by
  unfold Sched.exitLoop
  dsimp only
  split
  · have hflags : Kept w (w.setFlags w.currentThread fun flags => { flags with joined := true }) :=
      setFlags w w.currentThread fun _ => rfl
    obtain ⟨tcb, heq, hsame⟩ := wakeJoiner_eq
      (w.setFlags w.currentThread fun flags => { flags with joined := true }) w.currentThread
    rw [heq]
    have hwoken := hflags.trans (setTcb hsame)
    exact (hwoken.trans (setTcb (SameButRunState.block tcb _))).trans (enterSched _ _)
  · have hcleared : Kept w { w with tcb := clearRunnable w.tcb w.currentThread } :=
      setTcb (SameButRunState.clearRunnable w.tcb w.currentThread)
    exact ⟨rfl, rfl, hcleared.extstack⟩

theorem joinLoop (w : World) (joinable : Tid) : Kept w (joinLoop w joinable) := by
  unfold Sched.joinLoop
  dsimp only
  split
  · have hflags : Kept w (w.setFlags joinable fun flags => { flags with mustjoin := false }) :=
      setFlags w joinable fun _ => rfl
    have hwoken := hflags.trans (setTcb (SameButRunState.wake _ joinable))
    exact ⟨rfl, rfl, hwoken.extstack⟩
  · have hblocked : Kept w { w with tcb := bmkSchedBlock w.tcb w.currentThread } :=
      setTcb (SameButRunState.block w.tcb w.currentThread)
    exact ⟨rfl, rfl, hblocked.extstack⟩

theorem resumeCaller (w : World) (caller : Caller) : Kept w (resumeCaller w caller) := by
  cases caller with
  | other => exact ⟨rfl, rfl, fun _ => rfl⟩
  | exitGate => exact exitLoop w
  | exitFinal => exact enterSched w .exitFinal
  | join joinable =>
      have hjoin := joinLoop { w with joinwq := w.joinwq.erase ⟨w.currentThread, joinable⟩ } joinable
      exact ⟨hjoin.created, hjoin.freed, hjoin.extstack⟩

/-- The calls that neither create nor reap. -/
theorem effect (w : World) {e : Event} (hcreate : ∀ thrflags base size, e ≠ .create thrflags base size)
    (hpass : ∀ tm, e ≠ .pass tm) : Kept w (effect w e) := by
  cases e with
  | create thrflags base size => exact absurd rfl (hcreate thrflags base size)
  | exit =>
      have hexit := exitLoop { w with exitCalls := w.currentThread :: w.exitCalls }
      exact ⟨hexit.created, hexit.freed, hexit.extstack⟩
  | join joinable =>
      simp only [Sched.effect, bmkSchedJoin]
      split
      · have hjoin := joinLoop { w with joinCalls := (w.currentThread, joinable) :: w.joinCalls } joinable
        exact ⟨hjoin.created, hjoin.freed, hjoin.extstack⟩
      · exact ⟨rfl, rfl, fun _ => rfl⟩
  | sched => exact enterSched w .other
  | block thread => exact setTcb (SameButRunState.block w.tcb thread)
  | setwakeup thread abstime => exact setTcb fun u => .setwakeup w.tcb thread u abstime
  | nanosleep now nsec =>
      have hslept : Kept w { w with
          tcb := clearRunnable (bmkSchedSetwakeup w.tcb w.currentThread ((now + nsec).bmod (2 ^ 64)))
            w.currentThread } :=
        setTcb fun u => (SameButRunState.setwakeup w.tcb w.currentThread u _).trans
          (.clearRunnable _ w.currentThread u)
      exact hslept.trans (enterSched _ _)
  | wake thread => exact setTcb (SameButRunState.wake w.tcb thread)
  | pass tm => exact absurd rfl (hpass tm)

end Kept

/-- No thread is created and none changes the kind of its stack; of the zombies, `reaped` are freed in this
    order. -/
structure Reaps (w : World) (reaped : List Tid) (w' : World) : Prop where
  created : w'.created = w.created
  freed : w'.freedThreads = reaped.reverse ++ w.freedThreads
  zombies : reaped ⊆ w.zombies
  extstack : ∀ t, (w'.tcb t).flags.extstack = (w.tcb t).flags.extstack

theorem Kept.reaps {w w' : World} (h : Kept w w') : Reaps w [] w' :=
  ⟨h.created, h.freed, List.nil_subset _, h.extstack⟩

namespace Reaps

variable {w w' w'' : World} {reaped : List Tid}

theorem kept (h : Reaps w reaped w') (h' : Kept w' w'') : Reaps w reaped w'' :=
  ⟨h'.created.trans h.created, h'.freed.trans h.freed, h.zombies,
    fun t => (h'.extstack t).trans (h.extstack t)⟩

/-- The queues and the reaped threads are the queues of before. -/
theorem queued_perm (h : Reaps w reaped w') (hplaced : Placed w) (hplaced' : Placed w') :
    (reaped ++ (w'.threads ++ w'.zombies)).Perm (w.threads ++ w.zombies) := by
  have hall := hplaced'.arranged.trans (h.created ▸ hplaced.arranged.symm)
  rw [h.freed, ← List.append_assoc] at hall
  have hleft := (List.perm_append_right_iff _).mp hall
  exact (List.perm_append_comm.trans ((List.reverse_perm reaped).symm.append_left _)).trans hleft

end Reaps

theorem reapList_freed (prev : Tid) (l : List Tid) (w : World) :
    (l.foldl (reapOne prev) w).freedThreads = (l.filter (· ≠ prev)).reverse ++ w.freedThreads := by
  induction l generalizing w with
  | nil => rfl
  | cons t rest ih =>
      rw [List.foldl_cons, ih]
      by_cases ht : t = prev
      · simp [reapOne, ht]
      · simp [reapOne, ht]

/-- The reaper frees all the zombies but `prev`. -/
theorem reaper_reaps (prev : Tid) (w : World) : Reaps w (w.zombies.filter (· ≠ prev)) (reaper prev w) := by
  have hfreed := reapList_freed prev w.zombies w
  obtain ⟨zombies, freedStacks, freedThreads, heq⟩ := reaper_eq prev w
  refine ⟨?_, hfreed, List.filter_subset_self _, fun t => ?_⟩
  · rw [heq]
  · rw [heq]

theorem resume_reaps (w : World) : ∃ reaped, Reaps w reaped (resume w) := by
  unfold resume
  split
  · exact ⟨[], Kept.reaps ⟨rfl, rfl, fun _ => rfl⟩⟩
  · exact ⟨[], (Kept.refl w).reaps⟩
  · rename_i prev caller hframe
    exact ⟨_, (reaper_reaps prev w).kept (.resumeCaller _ caller)⟩

theorem pass_reaps (tm : Int) (w : World) : ∃ reaped, Reaps w reaped (pass tm w) := by
  unfold pass
  split
  · rename_i tcb hscan
    exact ⟨[], (Kept.setTcb (scan_spec tm _ _ tcb none hscan).1).reaps⟩
  · rename_i tcb next hscan
    obtain ⟨reaped, hreaps⟩ := resume_reaps (dispatched w tcb next)
    refine ⟨reaped, hreaps.created, hreaps.freed, hreaps.zombies, fun t => (hreaps.extstack t).trans ?_⟩
    exact ((scan_spec tm _ _ tcb (some next) hscan).1 t).extstack

/-- Only a pass reaps, and only `bmk_sched_create` creates. -/
theorem effect_reaps (w : World) {e : Event}
    (hcreate : ∀ thrflags base size, e ≠ .create thrflags base size) :
    ∃ reaped, Reaps w reaped (effect w e) ∧ (reaped ≠ [] → ∃ tm, e = .pass tm) := by
  by_cases hpass : ∃ tm, e = .pass tm
  · obtain ⟨tm, rfl⟩ := hpass
    obtain ⟨reaped, hreaps⟩ := pass_reaps tm w
    exact ⟨reaped, hreaps, fun _ => ⟨tm, rfl⟩⟩
  · have hkept : Kept w (effect w e) := .effect w hcreate fun tm heq => hpass ⟨tm, heq⟩
    exact ⟨[], hkept.reaps, fun hne => absurd rfl hne⟩

/-- What the reaper has freed stays freed. -/
theorem freed_mono {w w' : World} {e : Event} (hstep : step w e = some w') :
    w.freedThreads ⊆ w'.freedThreads := by
  obtain ⟨-, -, rfl⟩ := step_inv hstep
  by_cases hcreate : ∃ thrflags base size, e = .create thrflags base size
  · obtain ⟨thrflags, base, size, rfl⟩ := hcreate
    simp only [effect, bmkSchedCreate]
    split
    · split
      · exact List.Subset.refl _
      · exact List.Subset.refl _
    · exact List.Subset.refl _
  · obtain ⟨reaped, hreaps, -⟩ := effect_reaps w fun thrflags base size heq =>
      hcreate ⟨thrflags, base, size, heq⟩
    rw [hreaps.freed]
    exact List.subset_append_right _ _

end Sched

namespace ThreadMemory

open Sched (Tid Placed LifeCycle Executing Reaps)

/-! ### The blocks of the threads -/

/-- What a thread holds of the heap: its record, and its stack unless it was given one.  `init_thread` holds
    nothing. -/
def World.blocksOf (w : World) (t : Tid) : List (UInt32 × UInt32) :=
  if t = 0 then []
  else (w.record t, sizeofThread) :: if (w.sched.tcb t).flags.extstack then []
    else [(w.stack t, threadStacksize)]

/-- What the threads on the queues hold. -/
def World.threadBlocks (w : World) : List (UInt32 × UInt32) :=
  (w.sched.threads ++ w.sched.zombies).flatMap w.blocksOf

/-- The live allocations are those of the clients and those of the threads on the queues. -/
structure Owned (bmkMembase bmkMemsize : UInt32) (w : World) : Prop where
  placed : Placed w.sched
  memory : MemoryInv bmkMembase bmkMemsize w.memory
  accounted : (w.memory.live.map Live.block).Perm (w.clients ++ w.threadBlocks)

theorem reapedBetween_eq {s s' : Sched.World} {reaped : List Tid} (h : Reaps s reaped s') :
    reapedBetween s s' = reaped := by
  rw [reapedBetween, h.freed, List.length_append, Nat.add_sub_cancel, List.take_left, List.reverse_reverse]

namespace Owned

variable {bmkMembase bmkMemsize : UInt32} {w : World}

/-- A request that leaves the blocks alone. -/
theorem setMemory (h : Owned bmkMembase bmkMemsize w) {m : Memory}
    (hmemory : MemoryInv bmkMembase bmkMemsize m)
    (hlive : m.live.map Live.block = w.memory.live.map Live.block) :
    Owned bmkMembase bmkMemsize { w with memory := m } := by
  refine ⟨h.placed, hmemory, ?_⟩
  rw [hlive]
  exact h.accounted

theorem block_held (h : Owned bmkMembase bmkMemsize w) {t : Tid}
    (ht : t ∈ w.sched.threads ++ w.sched.zombies) {c : UInt32 × UInt32} (hc : c ∈ w.blocksOf t) :
    c ∈ w.memory.live.map Live.block :=
  h.accounted.mem_iff.mpr (List.mem_append_right _ (List.mem_flatMap.mpr ⟨t, ht, hc⟩))

end Owned

/-! ### The reaper -/

/-- Freeing a thread gives back its stack and its record. -/
theorem freeThread_held {bmkMembase bmkMemsize : UInt32} {P : StoreRequest → Prop} (w : World)
    {m : Memory} (hmemory : MemoryInv bmkMembase bmkMemsize m) {t : Tid} (ht : t ≠ 0)
    {rest : List (UInt32 × UInt32)} (hheld : (m.live.map Live.block).Perm (w.blocksOf t ++ rest))
    (hP : ∀ c ∈ w.blocksOf t, P (.memfree c.1)) :
    ReachesBy P m (freeThread w m t) ∧ MemoryInv bmkMembase bmkMemsize (freeThread w m t) ∧
      ((freeThread w m t).live.map Live.block).Perm rest := by
  simp only [World.blocksOf, if_neg ht] at hheld hP
  unfold freeThread
  by_cases hext : (w.sched.tcb t).flags.extstack = true
  · rw [if_pos hext] at hheld hP ⊢
    exact hmemory.free_held hheld (hP _ List.mem_cons_self)
  · rw [if_neg hext] at hheld hP ⊢
    have hstack :
        (m.live.map Live.block).Perm ((w.stack t, threadStacksize) :: (w.record t, sizeofThread) :: rest) :=
      hheld.trans (List.Perm.swap _ _ _)
    obtain ⟨hreach, hmemory', hrest⟩ :=
      hmemory.free_held hstack (hP _ (List.mem_cons_of_mem _ List.mem_cons_self))
    obtain ⟨hreach', hmemory'', hrest'⟩ := hmemory'.free_held hrest (hP _ List.mem_cons_self)
    exact ⟨hreach.trans hreach', hmemory'', hrest'⟩

/-- The loop of the reaper, as long as it does not come to `init_thread`. -/
theorem freeThreads_held {bmkMembase bmkMemsize : UInt32} {P : StoreRequest → Prop} (w : World)
    (reaped : List Tid) {rest : List (UInt32 × UInt32)} (hinit : 0 ∉ reaped)
    (hP : ∀ t ∈ reaped, ∀ c ∈ w.blocksOf t, P (.memfree c.1)) :
    ∀ {m : Memory}, MemoryInv bmkMembase bmkMemsize m →
      (m.live.map Live.block).Perm (reaped.flatMap w.blocksOf ++ rest) →
      ReachesBy P m (reaped.foldl (freeThread w) m) ∧
      MemoryInv bmkMembase bmkMemsize (reaped.foldl (freeThread w) m) ∧
        ((reaped.foldl (freeThread w) m).live.map Live.block).Perm rest := by
  induction reaped with
  | nil =>
      intro m hmemory hheld
      exact ⟨.refl _, hmemory, hheld⟩
  | cons t others ih =>
      intro m hmemory hheld
      rw [List.mem_cons, not_or] at hinit
      rw [List.flatMap_cons, List.append_assoc] at hheld
      obtain ⟨hreach, hmemory', hheld'⟩ :=
        freeThread_held w hmemory (Ne.symm hinit.1) hheld (hP t List.mem_cons_self)
      obtain ⟨hreach', hmemory'', hheld''⟩ :=
        ih hinit.2 (fun u hu => hP u (List.mem_cons_of_mem _ hu)) hmemory' hheld'
      exact ⟨hreach.trans hreach', hmemory'', hheld''⟩

theorem freeThreads_carried (w : World) (reaped : List Tid) (m : Memory) :
    (reaped.foldl (freeThread w) m).carried = m.carried := by
  induction reaped generalizing m with
  | nil => rfl
  | cons t others ih =>
      rw [List.foldl_cons, ih, freeThread, Memory.request_memfree_carried]
      split
      · rfl
      · exact Memory.request_memfree_carried _ _

theorem effect_eq (w : World) {e : Sched.Event}
    (hcreate : ∀ thrflags base size, e ≠ .create thrflags base size) :
    effect w (.sched e) =
      { w with
        sched := Sched.effect w.sched e
        memory := (reapedBetween w.sched (Sched.effect w.sched e)).foldl (freeThread w) w.memory } := by
  cases e with
  | create thrflags base size => exact absurd rfl (hcreate thrflags base size)
  | exit | join | sched | block | setwakeup | nanosleep | wake | pass => rfl

namespace Owned

variable {bmkMembase bmkMemsize : UInt32} {w : World}

/-- The queues lose the reaped threads, and the heap gets back what these held. -/
theorem reap {P : StoreRequest → Prop} (h : Owned bmkMembase bmkMemsize w) {s : Sched.World}
    {reaped : List Tid} (hreaps : Reaps w.sched reaped s) (hplaced : Placed s)
    (hinit : 0 ∉ s.freedThreads) (hP : ∀ t ∈ reaped, ∀ c ∈ w.blocksOf t, P (.memfree c.1)) :
    Owned bmkMembase bmkMemsize { w with sched := s, memory := reaped.foldl (freeThread w) w.memory } ∧
      ReachesBy P w.memory (reaped.foldl (freeThread w) w.memory) := by
  have hblocks : World.blocksOf { w with sched := s, memory := reaped.foldl (freeThread w) w.memory } =
      w.blocksOf := by
    funext t
    simp only [World.blocksOf, hreaps.extstack]
  have hheld : (w.memory.live.map Live.block).Perm
      (reaped.flatMap w.blocksOf ++ (w.clients ++ (s.threads ++ s.zombies).flatMap w.blocksOf)) := by
    have hqueued :
        w.threadBlocks.Perm (reaped.flatMap w.blocksOf ++ (s.threads ++ s.zombies).flatMap w.blocksOf) := by
      rw [← List.flatMap_append]
      exact ((hreaps.queued_perm h.placed hplaced).flatMap_right w.blocksOf).symm
    refine h.accounted.trans ((hqueued.append_left _).trans ?_)
    rw [← List.append_assoc, ← List.append_assoc]
    exact List.perm_append_comm.append_right _
  have hnotInit : 0 ∉ reaped := by
    intro hzero
    rw [hreaps.freed] at hinit
    exact hinit (List.mem_append_left _ (List.mem_reverse.mpr hzero))
  obtain ⟨hreach, hmemory, hrest⟩ := freeThreads_held w reaped hnotInit hP h.memory hheld
  refine ⟨⟨hplaced, hmemory, ?_⟩, hreach⟩
  rw [World.threadBlocks, hblocks]
  exact hrest

end Owned

/-! ### A new thread -/

theorem bmkXmalloc_spec {m m' : Memory} {howmuch rv : UInt32} (h : bmkXmalloc m howmuch = some (rv, m')) :
    m' = m.request (.memalloc howmuch 0) ∧
    m'.live.map Live.block = (rv, howmuch) :: m.live.map Live.block := by
  unfold bmkXmalloc at h
  split at h
  · rename_i answer hanswer
    split at h
    · cases h
    · rename_i hne
      simp only [Option.some.injEq, Prod.mk.injEq] at h
      obtain ⟨rfl, rfl⟩ := h
      refine ⟨rfl, ?_⟩
      rw [Memory.request_memalloc_live hanswer, if_neg hne]
  · cases h

theorem clearRecord_carried (m : Memory) (thread : UInt32) : (clearRecord m thread).carried = m.carried :=
  Memory.writeBytes_carried _ m thread.toNat

/-- Both requests of `bmk_sched_create` fit into 32 bits with their header. -/
theorem create_fits (howmuch : UInt32) (h : howmuch = sizeofThread ∨ howmuch = threadStacksize) :
    howmuch.toNat + (headerRoom (effectiveAlign 0)).toNat < 2 ^ 32 := by
  rcases h with rfl | rfl
  · decide
  · decide

namespace Owned

variable {bmkMembase bmkMemsize : UInt32} {w : World}

/-- The new thread joins the queues with what was allocated for it. -/
theorem addThread (h : Owned bmkMembase bmkMemsize w) {s : Sched.World} {m : Memory}
    {record stack : Tid → UInt32} (hplaced : Placed s)
    (hthreads : s.threads = w.sched.created :: w.sched.threads) (hzombies : s.zombies = w.sched.zombies)
    (hold : ∀ t < w.sched.created, record t = w.record t ∧ stack t = w.stack t ∧
      (s.tcb t).flags.extstack = (w.sched.tcb t).flags.extstack)
    (hmemory : MemoryInv bmkMembase bmkMemsize m)
    (hnew : (m.live.map Live.block).Perm
      (World.blocksOf { w with sched := s, record := record, stack := stack } w.sched.created ++
        w.memory.live.map Live.block)) :
    Owned bmkMembase bmkMemsize { w with sched := s, memory := m, record := record, stack := stack } := by
  refine ⟨hplaced, hmemory, hnew.trans ?_⟩
  have hothers : (w.sched.threads ++ w.sched.zombies).flatMap
      (World.blocksOf { w with sched := s, record := record, stack := stack }) = w.threadBlocks := by
    refine List.flatMap_congr fun t ht => ?_
    have hlt : t < w.sched.created := by
      rw [← h.placed.mem_iff_created, ← or_assoc, ← List.mem_append]
      exact Or.inl ht
    obtain ⟨hrecord, hstack, hext⟩ := hold t hlt
    simp only [World.blocksOf, hrecord, hstack, hext]
  have hall : World.threadBlocks { w with sched := s, memory := m, record := record, stack := stack } =
      World.blocksOf { w with sched := s, record := record, stack := stack } w.sched.created ++
        w.threadBlocks := by
    rw [← hothers, ← List.flatMap_cons, ← List.cons_append, ← hthreads, ← hzombies]
    rfl
  rw [hall]
  refine (h.accounted.append_left _).trans ?_
  rw [← List.append_assoc, ← List.append_assoc]
  exact List.perm_append_comm.append_right _

/-- The record is taken from the heap and cleared. -/
theorem newRecord {P : StoreRequest → Prop} (hbase : bmkMembase.toNat % 4096 = 0)
    (fits : bmkMembase.toNat + bmkMemsize.toNat < 2 ^ 32) (h : Owned bmkMembase bmkMemsize w)
    {thread : UInt32} {m : Memory} (hrecord : bmkXmalloc w.memory sizeofThread = some (thread, m))
    (hcarried : m.carried = false) (halloc : P (.memalloc sizeofThread 0))
    (hclear : ∀ i < sizeofThread.toNat, ∀ byte, P (.write (thread.toNat + i) byte)) :
    ReachesBy P w.memory (clearRecord m thread) ∧ MemoryInv bmkMembase bmkMemsize (clearRecord m thread) ∧
      (clearRecord m thread).live.map Live.block = (thread, sizeofThread) :: w.memory.live.map
      Live.block := by
  obtain ⟨hm, hlive⟩ := bmkXmalloc_spec hrecord
  have hreach : ReachesBy P w.memory m := by
    rw [hm]
    exact .request h.memory.running (create_fits _ (.inl rfl)) halloc
  have hmemory := h.memory.reaches hbase fits hreach.reaches hcarried
  have hheld : (thread, sizeofThread) ∈ m.live.map Live.block := by
    rw [hlive]
    exact List.mem_cons_self
  obtain ⟨hwrites, hcleared⟩ :=
    MemoryInv.writeBytes_held (P := P) (List.replicate sizeofThread.toNat 0) m thread.toNat
    hmemory hheld le_rfl (by rw [List.length_replicate]) fun a ha ha' byte => by
      obtain ⟨i, rfl⟩ := Nat.exists_eq_add_of_le ha
      rw [List.length_replicate] at ha'
      exact hclear i (by omega) byte
  refine ⟨hreach.trans hwrites, hcleared, ?_⟩
  rw [clearRecord, Memory.writeBytes_live, hlive]

theorem create {P : StoreRequest → Prop} (hbase : bmkMembase.toNat % 4096 = 0)
    (fits : bmkMembase.toNat + bmkMemsize.toNat < 2 ^ 32) (h : Owned bmkMembase bmkMemsize w)
    (hexec : Executing w.sched) (thrflags : Int) (stackBase : Option Nat) (stackSize : Nat)
    (hgoing : (bmkSchedCreate w thrflags stackBase stackSize).stopped = false)
    (hcarried : (bmkSchedCreate w thrflags stackBase stackSize).memory.carried = false)
    (halloc : ∀ howmuch, P (.memalloc howmuch 0))
    (hclear :
      ∀ i < sizeofThread.toNat, ∀ byte,
      P (.write (((bmkSchedCreate w thrflags stackBase stackSize).record w.sched.created).toNat + i)
        byte)) :
    Owned bmkMembase bmkMemsize (bmkSchedCreate w thrflags stackBase stackSize) ∧
      ReachesBy P w.memory (bmkSchedCreate w thrflags stackBase stackSize).memory := by
  have hlife := Sched.bmkSchedCreate_lifeCycle hexec thrflags stackBase stackSize
  have hcreated : w.sched.created ≠ 0 := by
    have hlt := (h.placed.mem_iff_created w.sched.currentThread).mp (Or.inl hexec.running)
    exact Nat.ne_zero_of_lt hlt
  unfold bmkSchedCreate at hgoing hcarried hclear ⊢
  cases hrecord : bmkXmalloc w.memory sizeofThread with
  | none =>
      simp only [hrecord] at hgoing
      simp [World.stopped] at hgoing
  | some out =>
      obtain ⟨thread, m⟩ := out
      simp only [hrecord] at hgoing hcarried hclear ⊢
      cases stackBase with
      | some base =>
          dsimp only at hgoing hcarried hclear ⊢
          rw [Function.update_self] at hclear
          rw [clearRecord_carried] at hcarried
          obtain ⟨hreach, hmemory, hlive⟩ := h.newRecord hbase fits hrecord hcarried (halloc _) hclear
          refine ⟨h.addThread hlife.toPlaced rfl rfl ?_ hmemory ?_, hreach⟩
          · intro t ht
            have hne := Nat.ne_of_lt ht
            simp [Sched.bmkSchedCreate, setRunnable, setFlags, hne]
          · rw [hlive]
            simp [World.blocksOf, hcreated, Sched.bmkSchedCreate, setRunnable, setFlags]
      | none =>
          dsimp only at hgoing hcarried hclear ⊢
          by_cases hsize : stackSize ≠ 0
          · simp only [if_pos hsize] at hgoing
            simp [World.stopped, Sched.bmkSchedCreate, hsize] at hgoing
          · simp only [if_neg hsize] at hgoing hcarried hclear ⊢
            cases hstack : stackalloc (clearRecord m thread) with
            | none =>
                simp only [hstack] at hgoing
                simp [World.stopped] at hgoing
            | some out =>
                obtain ⟨stack, m'⟩ := out
                obtain ⟨hm', hlive'⟩ := bmkXmalloc_spec hstack
                simp only [hstack, Function.update_self] at hcarried hclear ⊢
                have hcarried' : m.carried = false := by
                  rw [hm'] at hcarried
                  rw [← clearRecord_carried m thread]
                  exact Memory.carried_of_request hcarried
                obtain ⟨hreach, hmemory, hlive⟩ :=
                  h.newRecord hbase fits hrecord hcarried' (halloc _) hclear
                have hreach' : ReachesBy P (clearRecord m thread) m' := by
                  rw [hm']
                  exact .request hmemory.running (create_fits _ (.inr rfl)) (halloc _)
                refine ⟨h.addThread hlife.toPlaced ?_ ?_ ?_
                  (hmemory.reaches hbase fits hreach'.reaches hcarried) ?_,
                  hreach.trans hreach'⟩
                · simp [Sched.bmkSchedCreate, hsize]
                · simp [Sched.bmkSchedCreate, hsize]
                · intro t ht
                  have hne := Nat.ne_of_lt ht
                  simp [Sched.bmkSchedCreate, setRunnable, setFlags, hne, hsize]
                · rw [hlive', hlive]
                  simp only [World.blocksOf, if_neg hcreated, Sched.bmkSchedCreate, if_neg hsize,
                    setRunnable, setFlags,
                    Function.update_self, Bool.false_eq_true, if_false]
                  exact List.Perm.swap _ _ _

end Owned

/-! ### The clients, and writes to records and stacks -/

namespace Owned

variable {bmkMembase bmkMemsize : UInt32} {w : World}

/-- What clients may do, the store allows. -/
theorem client_enabled (h : Owned bmkMembase bmkMemsize w) {r : StoreRequest}
    (henabled : enabled w (.client r)) :
    memoryEnabled w.memory r := by
  have hheld : ∀ c ∈ w.clients, ∃ l ∈ w.memory.live, l.block = c := fun c hc =>
    List.mem_map.mp (h.accounted.mem_iff.mpr (List.mem_append_left _ hc))
  cases r with
  | memalloc nbytes align => exact henabled
  | memfree cp =>
      rcases henabled with hnull | ⟨c, hc, rfl⟩
      · exact Or.inl hnull
      · obtain ⟨l, hl, rfl⟩ := hheld c hc
        exact Or.inr ⟨l, hl, rfl⟩
  | allocpg howmany => trivial
  | write addr byte =>
      rcases henabled with ⟨c, hc, hlo, hhi⟩ | htaken
      · obtain ⟨l, hl, rfl⟩ := hheld c hc
        exact Or.inl ⟨l, hl, hlo, hhi⟩
      · exact Or.inr htaken

theorem client {P : StoreRequest → Prop} (hbase : bmkMembase.toNat % 4096 = 0)
    (fits : bmkMembase.toNat + bmkMemsize.toNat < 2 ^ 32) (h : Owned bmkMembase bmkMemsize w)
    {r : StoreRequest} (henabled : enabled w (.client r))
    (hcarried : (w.memory.request r).carried = false) (hP : P r) :
    Owned bmkMembase bmkMemsize (effect w (.client r)) ∧ ReachesBy P w.memory (w.memory.request r) := by
  have hreach : ReachesBy P w.memory (w.memory.request r) :=
    .request h.memory.running (h.client_enabled henabled) hP
  have hmemory := h.memory.reaches hbase fits hreach.reaches hcarried
  refine ⟨⟨h.placed, hmemory, ?_⟩, hreach⟩
  change ((w.memory.request r).live.map Live.block).Perm
    (clientsAfter w.clients r (w.memory.store.request r).1 ++ w.threadBlocks)
  cases r with
  | memalloc nbytes align =>
      obtain ⟨rv, hanswer⟩ : ∃ rv, (w.memory.store.request (.memalloc nbytes align)).1 = .ptr rv :=
        ⟨_, by rw [request_memalloc]⟩
      rw [Memory.request_memalloc_live hanswer, hanswer]
      simp only [clientsAfter]
      split
      · exact h.accounted
      · exact h.accounted.cons _
  | memfree cp =>
      rcases henabled with rfl | ⟨c, hc, hcp⟩
      · have hnone : w.clients.eraseP (fun c => c.1 = 0) = w.clients := by
          refine List.eraseP_of_forall_not fun c hc => ?_
          have hne := h.memory.block_ne_null (h.accounted.mem_iff.mpr (List.mem_append_left _ hc))
          simpa using hne
        have hdone : (w.memory.store.request (.memfree 0)).1 = .done := rfl
        rw [h.memory.free_null, hdone, clientsAfter, hnone]
        exact h.accounted
      · obtain ⟨c', before, after, -, hcp', hclients, herase⟩ :=
          List.exists_of_eraseP (p := fun c => decide (c.1 = cp)) hc (decide_eq_true hcp)
        have hfirst : (w.memory.live.map Live.block).Perm (c' :: (before ++ after ++ w.threadBlocks)) := by
          refine h.accounted.trans ?_
          rw [hclients, List.append_assoc, List.append_assoc]
          exact List.perm_middle
        have hrest := (h.memory.free_held (P := fun _ => True) hfirst trivial).2.2
        have hdone := h.memory.free_done (hfirst.mem_iff.mpr List.mem_cons_self)
        rw [of_decide_eq_true hcp'] at hrest hdone
        rw [hdone, clientsAfter, herase]
        exact hrest
  | allocpg howmany => exact h.accounted
  | write addr byte => exact h.accounted

theorem field {P : StoreRequest → Prop} (h : Owned bmkMembase bmkMemsize w) {thread : Tid} {offset : Nat}
    {byte : UInt8} (henabled : enabled w (.field thread offset byte))
    (hP : P (.write ((w.record thread).toNat + offset) byte)) :
    Owned bmkMembase bmkMemsize (effect w (.field thread offset byte)) ∧
      ReachesBy P w.memory (effect w (.field thread offset byte)).memory := by
  obtain ⟨⟨hne, hqueued⟩, hlt⟩ := henabled
  have hheld := h.block_held (List.mem_append.mpr hqueued) (c := (w.record thread, sizeofThread))
    (by simp [World.blocksOf, hne])
  obtain ⟨hreach, hmemory⟩ :=
    h.memory.write_held hheld (Nat.le_add_right _ offset) (Nat.add_lt_add_left hlt _) hP
  exact ⟨h.setMemory hmemory rfl, hreach⟩

theorem push {P : StoreRequest → Prop} (h : Owned bmkMembase bmkMemsize w) {thread : Tid} {offset : Nat}
    {byte : UInt8} (henabled : enabled w (.push thread offset byte))
    (hP : P (.write ((w.stack thread).toNat + offset) byte)) :
    Owned bmkMembase bmkMemsize (effect w (.push thread offset byte)) ∧
      ReachesBy P w.memory (effect w (.push thread offset byte)).memory := by
  obtain ⟨⟨hne, hqueued⟩, hext, hlt⟩ := henabled
  have hheld := h.block_held (List.mem_append.mpr hqueued) (c := (w.stack thread, threadStacksize))
    (by simp [World.blocksOf, hne, hext])
  obtain ⟨hreach, hmemory⟩ :=
    h.memory.write_held hheld (Nat.le_add_right _ offset) (Nat.add_lt_add_left hlt _) hP
  exact ⟨h.setMemory hmemory rfl, hreach⟩

end Owned

/-! ### Steps and runs -/

/-- The scheduler does what it does on its own, unless an allocation has failed. -/
theorem effect_sched (w : World) (e : Sched.Event) :
    (effect w (.sched e)).sched = Sched.effect w.sched e ∨
      (effect w (.sched e)).panicked = true ∧ (effect w (.sched e)).sched = w.sched := by
  cases e with
  | create thrflags stackBase stackSize =>
      simp only [effect, bmkSchedCreate, Sched.effect]
      split
      · exact Or.inr ⟨rfl, rfl⟩
      · split
        · exact Or.inl rfl
        · split
          · exact Or.inl rfl
          · split
            · exact Or.inr ⟨rfl, rfl⟩
            · exact Or.inl rfl
  | exit | join | sched | block | setwakeup | nanosleep | wake | pass => exact Or.inl rfl

theorem not_stopped {w : World} (h : w.stopped = false) :
    w.panicked = false ∧ w.sched.halted = none ∧ w.memory.store.halted = false := by
  simp only [World.stopped, Bool.or_eq_false_iff, Option.isSome_eq_false_iff, Option.isNone_iff_eq_none]
    at h
  exact ⟨h.1.1, h.1.2, h.2⟩

/-- A step of the scheduler's machine, or none. -/
theorem step_sched {w w' : World} {e : Event} (hstep : step w e = some w') :
    (∃ e', Sched.step w.sched e' = some w'.sched) ∨ w'.sched = w.sched := by
  obtain ⟨hgoing, henabled, rfl⟩ := step_inv hstep
  cases e with
  | sched e =>
      rcases effect_sched w e with heffect | ⟨-, hsame⟩
      · refine Or.inl ⟨e, ?_⟩
        rw [Sched.step, if_pos ⟨by simp [(not_stopped hgoing).2.1], henabled⟩, heffect]
      · exact Or.inr hsame
  | client r => exact Or.inr rfl
  | field thread offset byte => exact Or.inr rfl
  | push thread offset byte => exact Or.inr rfl

theorem step_lifeCycle {w w' : World} {e : Event} (h : LifeCycle w.sched) (hstep : step w e = some w') :
    LifeCycle w'.sched := by
  rcases step_sched hstep with ⟨e', hsched⟩ | hsame
  · exact Sched.lifeCycle_step h hsched
  · rw [hsame]
    exact h

theorem create_carried {w : World} {thrflags : Int} {stackBase : Option Nat} {stackSize : Nat}
    (hcarried : (bmkSchedCreate w thrflags stackBase stackSize).memory.carried = false) :
    w.memory.carried = false := by
  have hxmalloc : ∀ {m m' : Memory} {howmuch rv : UInt32}, bmkXmalloc m howmuch = some (rv, m') →
      m'.carried = false → m.carried = false := fun hsome hcarried =>
    Memory.carried_of_request ((bmkXmalloc_spec hsome).1 ▸ hcarried)
  unfold bmkSchedCreate at hcarried
  split at hcarried
  · exact hcarried
  · rename_i thread m hrecord
    refine hxmalloc hrecord ?_
    rw [← clearRecord_carried m thread]
    dsimp only at hcarried
    split at hcarried
    · exact hcarried
    · split at hcarried
      · exact hcarried
      · split at hcarried
        · exact hcarried
        · rename_i hstack
          exact hxmalloc hstack hcarried

theorem step_carried {w w' : World} {e : Event} (hstep : step w e = some w')
    (hcarried : w'.memory.carried = false) :
    w.memory.carried = false := by
  obtain ⟨-, -, rfl⟩ := step_inv hstep
  cases e with
  | sched e =>
      by_cases hcreate : ∃ thrflags base size, e = .create thrflags base size
      · obtain ⟨thrflags, base, size, rfl⟩ := hcreate
        exact create_carried hcarried
      · rwa [effect_eq w fun thrflags base size heq => hcreate ⟨thrflags, base, size, heq⟩,
          freeThreads_carried] at hcarried
  | client r => exact Memory.carried_of_request hcarried
  | field thread offset byte => exact Memory.carried_of_request hcarried
  | push thread offset byte => exact Memory.carried_of_request hcarried

theorem step_freed {w w' : World} {e : Event} (hstep : step w e = some w') :
    w.sched.freedThreads ⊆ w'.sched.freedThreads := by
  rcases step_sched hstep with ⟨e', hsched⟩ | hsame
  · exact Sched.freed_mono hsched
  · rw [hsame]
    exact List.Subset.refl _

/-- What an event may ask of the store. -/
def Requested (w w' : World) : Event → StoreRequest → Prop
  | .sched (.create _ _ _), .memalloc _ align => align = 0
  | .sched (.create _ _ _), .write addr _ =>
      ∃ i < sizeofThread.toNat, addr = (w'.record w.sched.created).toNat + i
  | .sched (.pass _), .memfree cp =>
      ∃ t ∈ w'.sched.freedThreads, t ∈ w.sched.zombies ∧ ∃ c ∈ w.blocksOf t, c.1 = cp
  | .client r, r' => r' = r
  | .field thread offset byte, r => r = .write ((w.record thread).toNat + offset) byte
  | .push thread offset byte, r => r = .write ((w.stack thread).toNat + offset) byte
  | _, _ => False

/-- Every step that does not stop the machine, carry, or reap `init_thread` keeps the account, by the rules
    of the store. -/
theorem Owned.step {bmkMembase bmkMemsize : UInt32} (hbase : bmkMembase.toNat % 4096 = 0)
    (fits : bmkMembase.toNat + bmkMemsize.toNat < 2 ^ 32) {w w' : World} {e : Event}
    (h : Owned bmkMembase bmkMemsize w) (hlife : LifeCycle w.sched) (hstep : step w e = some w')
    (hgoing : w'.stopped = false) (hcarried : w'.memory.carried = false)
    (hinit : 0 ∉ w'.sched.freedThreads) :
    Owned bmkMembase bmkMemsize w' ∧ ReachesBy (Requested w w' e) w.memory w'.memory := by
  have hlife' := step_lifeCycle hlife hstep
  obtain ⟨-, henabled, rfl⟩ := step_inv hstep
  cases e with
  | sched e =>
      by_cases hcreate : ∃ thrflags base size, e = .create thrflags base size
      · obtain ⟨thrflags, base, size, rfl⟩ := hcreate
        exact h.create hbase fits (.ofCalls hlife henabled) thrflags base size hgoing hcarried
          (fun _ => rfl)
          fun i hi _ => ⟨i, hi, rfl⟩
      · have hother : ∀ thrflags base size, e ≠ .create thrflags base size := fun thrflags base size heq =>
          hcreate ⟨thrflags, base, size, heq⟩
        obtain ⟨reaped, hreaps, hpass⟩ := Sched.effect_reaps w.sched hother
        rw [effect_eq w hother] at hlife' hinit ⊢
        rw [reapedBetween_eq hreaps]
        refine h.reap hreaps hlife'.toPlaced hinit fun t ht c hc => ?_
        obtain ⟨tm, rfl⟩ := hpass (List.ne_nil_of_mem ht)
        refine ⟨t, ?_, hreaps.zombies ht, c, hc, rfl⟩
        rw [hreaps.freed]
        exact List.mem_append_left _ (List.mem_reverse.mpr ht)
  | client r => exact h.client hbase fits henabled hcarried rfl
  | field thread offset byte => exact h.field henabled rfl
  | push thread offset byte => exact h.push henabled rfl

theorem owned_boot (mem : ByteMem) (bmkMembase bmkMemsize initThread : UInt32) :
    Owned bmkMembase bmkMemsize (boot mem bmkMembase bmkMemsize initThread) :=
  ⟨Sched.lifeCycle_init.toPlaced, .boot mem bmkMembase bmkMemsize, List.Perm.nil⟩

/-- The bytes of a block that its owner may use. -/
def payload (c : UInt32 × UInt32) : Extent := ⟨c.1.toNat, c.2.toNat⟩

/-- The same bytes behind their header. -/
def withHeader (c : UInt32 × UInt32) : Extent := ⟨c.1.toNat - 8, 8 + c.2.toNat⟩

theorem payload_withHeader {bmkMembase bmkMemsize : UInt32} {m : Memory}
    (inv : MemoryInv bmkMembase bmkMemsize m) {c : UInt32 × UInt32} (hc : c ∈ m.live.map Live.block) :
    (payload c).Inside (withHeader c) := by
  obtain ⟨L, hheap, -⟩ := inv.heap
  obtain ⟨l, hl, rfl⟩ := List.mem_map.mp hc
  have hheader := (hheap.good l hl).header
  simp only [payload, withHeader, Live.block, Extent.Inside, Extent.fin]
  omega

/-- Blocks that share no byte have different pointers. -/
theorem pointers_ne {c d : UInt32 × UInt32} (h : (withHeader c).Apart (withHeader d)) : c.1 ≠ d.1 := by
  intro heq
  simp only [withHeader, Extent.Apart, Extent.fin, heq] at h
  omega

namespace Owned

variable {bmkMembase bmkMemsize : UInt32} {w : World}

/-- No two blocks share a byte. -/
theorem blocks_apart (h : Owned bmkMembase bmkMemsize w) :
    (w.clients ++ w.threadBlocks).Pairwise fun c d => (withHeader c).Apart (withHeader d) := by
  obtain ⟨L, hheap, -⟩ := h.memory.heap
  have hlive : (w.memory.live.map Live.block).Pairwise fun c d => (withHeader c).Apart (withHeader d) :=
    List.pairwise_map.mpr hheap.live_apart
  exact (h.accounted.pairwise_iff fun hapart => hapart.symm).mp hlive

/-- Clients and threads have nothing in common. -/
theorem client_apart (h : Owned bmkMembase bmkMemsize w) {c : UInt32 × UInt32} (hc : c ∈ w.clients)
    {t : Tid} (ht : t ∈ w.sched.threads ++ w.sched.zombies) {d : UInt32 × UInt32} (hd : d ∈ w.blocksOf t) :
    (withHeader c).Apart (withHeader d) :=
  (List.pairwise_append.mp h.blocks_apart).2.2 c hc d (List.mem_flatMap.mpr ⟨t, ht, hd⟩)

theorem apart_of_ne (h : Owned bmkMembase bmkMemsize w) {t u : Tid}
    (ht : t ∈ w.sched.threads ++ w.sched.zombies) (hu : u ∈ w.sched.threads ++ w.sched.zombies)
    (hne : t ≠ u) {c d : UInt32 × UInt32} (hc : c ∈ w.blocksOf t) (hd : d ∈ w.blocksOf u) :
    (withHeader c).Apart (withHeader d) := by
  have hsymm : Std.Symm fun t u : Tid => ∀ c ∈ w.blocksOf t, ∀ d ∈ w.blocksOf u,
      (withHeader c).Apart (withHeader d) :=
    ⟨fun _ _ hapart c hc d hd => (hapart d hd c hc).symm⟩
  have hthreads := (List.pairwise_append.mp h.blocks_apart).2.1
  exact (List.pairwise_flatMap.mp hthreads).2.forall ht hu hne c hc d hd

end Owned

theorem World.queued.mem {w : World} {t : Tid} (h : w.queued t) : t ∈ w.sched.threads ++ w.sched.zombies :=
  List.mem_append.mpr h.2

theorem blocksOf_heapStack {w : World} {t : Tid} (h : w.queued t)
    (hext : (w.sched.tcb t).flags.extstack = false) :
    w.blocksOf t = [(w.record t, sizeofThread), (w.stack t, threadStacksize)] := by
  simp [World.blocksOf, h.1, hext]

namespace Owned

variable {bmkMembase bmkMemsize : UInt32} {w : World}

theorem own_apart (h : Owned bmkMembase bmkMemsize w) {t : Tid} (ht : w.queued t)
    (hext : (w.sched.tcb t).flags.extstack = false) :
    (withHeader (w.record t, sizeofThread)).Apart (withHeader (w.stack t, threadStacksize)) := by
  have hthreads := (List.pairwise_append.mp h.blocks_apart).2.1
  have hown := (List.pairwise_flatMap.mp hthreads).1 t ht.mem
  rw [blocksOf_heapStack ht hext, List.pairwise_pair] at hown
  exact hown

end Owned

/-! ### The whole run -/

end ThreadMemory

end RumpBaremetal
