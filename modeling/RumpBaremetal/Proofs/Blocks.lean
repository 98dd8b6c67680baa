/-
Module: RumpBaremetal.Proofs.Blocks
Layer: Proofs
Purpose: What a step of the scheduler or of the heap's clients leaves alone.  A thread that is on a queue
  before the step and behind it keeps its record and its stack, at the same place, and no byte of them
  changes, except where the step is a write to them.
Trusted boundary: none (fully proved)
Main exports: Sched.step_onQueue, effect_blocksOf, bmkSchedCreate_inv, Owned.create_zero, Owned.block_kept
-/
import RumpBaremetal.Proofs.ThreadMemory

namespace RumpBaremetal

open ByteMem StepSystem

/-! ### Who is on a queue -/

namespace Sched

theorem effect_extstack (w : World) (e : Event) {t : Tid} (ht : t < w.created) :
    ((effect w e).tcb t).flags.extstack = (w.tcb t).flags.extstack := by
  by_cases hcreate : ∃ thrflags base size, e = .create thrflags base size
  · obtain ⟨thrflags, base, size, rfl⟩ := hcreate
    have hne := Nat.ne_of_lt ht
    simp only [effect, bmkSchedCreate]
    split
    · split
      · rfl
      · simp [setRunnable, RumpBaremetal.setFlags, hne]
    · simp [setRunnable, RumpBaremetal.setFlags, hne]
  · obtain ⟨reaped, hreaps, -⟩ := effect_reaps w fun thrflags base size heq =>
      hcreate ⟨thrflags, base, size, heq⟩
    exact hreaps.extstack t

/-- Whoever is on a queue behind a step was there before, unless the step has created it. -/
theorem step_onQueue {w w' : World} {e : Event} (h : LifeCycle w) (hstep : step w e = some w') {t : Tid}
    (ht : t ∈ w'.threads ∨ t ∈ w'.zombies) :
    (t ∈ w.threads ∨ t ∈ w.zombies) ∨ (∃ thrflags base size, e = .create thrflags base size) ∧
    t = w.created := by
  have h' := lifeCycle_step h hstep
  have hnot : t ∉ w.freedThreads := fun hfreed => by
    have hfreed' := freed_mono hstep hfreed
    rcases ht with ht | ht
    · exact h'.threads_not_freed ht hfreed'
    · exact h'.zombies_not_freed ht hfreed'
  have hlt : t < w'.created := (h'.mem_iff_created t).mp (ht.imp_right Or.inl)
  by_cases hold : t < w.created
  · rcases (h.mem_iff_created t).mpr hold with hthread | hzombie | hfreed
    · exact Or.inl (Or.inl hthread)
    · exact Or.inl (Or.inr hzombie)
    · exact absurd hfreed hnot
  · obtain ⟨-, -, rfl⟩ := step_inv hstep
    by_cases hcreate : ∃ thrflags base size, e = .create thrflags base size
    · refine Or.inr ⟨hcreate, ?_⟩
      obtain ⟨thrflags, base, size, rfl⟩ := hcreate
      have hle : (bmkSchedCreate w thrflags base size).created ≤ w.created + 1 := by
        unfold bmkSchedCreate
        dsimp only
        split
        · split
          · exact Nat.le_succ _
          · exact le_rfl
        · exact le_rfl
      exact Nat.le_antisymm (Nat.lt_succ_iff.mp (hlt.trans_le hle)) (not_lt.mp hold)
    · obtain ⟨reaped, hreaps, -⟩ := effect_reaps w fun thrflags base size heq =>
        hcreate ⟨thrflags, base, size, heq⟩
      rw [hreaps.created] at hlt
      exact absurd hlt hold

end Sched

namespace ThreadMemory

open Sched (Tid LifeCycle)

/-! ### Blocks stay where they are -/

theorem create_places (w : World) (thrflags : Int) (stackBase : Option Nat) (stackSize : Nat) {t : Tid}
    (ht : t ≠ w.sched.created) :
    (bmkSchedCreate w thrflags stackBase stackSize).record t = w.record t ∧
      (bmkSchedCreate w thrflags stackBase stackSize).stack t = w.stack t := by
  unfold bmkSchedCreate
  split
  · exact ⟨rfl, rfl⟩
  · dsimp only
    split
    · exact ⟨Function.update_of_ne ht _ _, rfl⟩
    · split
      · exact ⟨Function.update_of_ne ht _ _, rfl⟩
      · split
        · exact ⟨rfl, rfl⟩
        · exact ⟨Function.update_of_ne ht _ _, Function.update_of_ne ht _ _⟩

theorem effect_places (w : World) (e : Event) {t : Tid} (ht : t < w.sched.created) :
    (effect w e).record t = w.record t ∧ (effect w e).stack t = w.stack t := by
  cases e with
  | sched e =>
      cases e with
      | create thrflags stackBase stackSize =>
          exact create_places w thrflags stackBase stackSize (Nat.ne_of_lt ht)
      | exit | join | sched | block | setwakeup | nanosleep | wake | pass => exact ⟨rfl, rfl⟩
  | client r => exact ⟨rfl, rfl⟩
  | field thread offset byte => exact ⟨rfl, rfl⟩
  | push thread offset byte => exact ⟨rfl, rfl⟩

theorem effect_extstack (w : World) (e : Event) {t : Tid} (ht : t < w.sched.created) :
    ((effect w e).sched.tcb t).flags.extstack = (w.sched.tcb t).flags.extstack := by
  cases e with
  | sched e =>
      rcases effect_sched w e with heffect | ⟨-, hsame⟩
      · rw [heffect]
        exact Sched.effect_extstack w.sched e ht
      · rw [hsame]
  | client r => rfl
  | field thread offset byte => rfl
  | push thread offset byte => rfl

theorem effect_blocksOf (w : World) (e : Event) {t : Tid} (ht : t < w.sched.created) :
    (effect w e).blocksOf t = w.blocksOf t := by
  obtain ⟨hrecord, hstack⟩ := effect_places w e ht
  simp only [World.blocksOf, hrecord, hstack, effect_extstack w e ht]

/-- What `bmk_sched_create` has done when it returns. -/
theorem bmkSchedCreate_inv {w : World} {thrflags : Int} {stackBase : Option Nat} {stackSize : Nat}
    (hgoing : (bmkSchedCreate w thrflags stackBase stackSize).stopped = false) :
    ∃ thread m, bmkXmalloc w.memory sizeofThread = some (thread, m) ∧
      (bmkSchedCreate w thrflags stackBase stackSize).record w.sched.created = thread ∧
      w.sched.created ∈ (bmkSchedCreate w thrflags stackBase stackSize).sched.threads ∧
      ((bmkSchedCreate w thrflags stackBase stackSize).memory = clearRecord m thread ∨
        ∃ stack, stackalloc (clearRecord m thread) =
          some (stack, (bmkSchedCreate w thrflags stackBase stackSize).memory)) := by
  unfold bmkSchedCreate at hgoing ⊢
  cases hrecord : bmkXmalloc w.memory sizeofThread with
  | none =>
      simp only [hrecord] at hgoing
      simp [World.stopped] at hgoing
  | some out =>
      obtain ⟨thread, m⟩ := out
      simp only [hrecord] at hgoing ⊢
      refine ⟨thread, m, rfl, ?_⟩
      cases stackBase with
      | some base => exact ⟨Function.update_self _ _ _, List.mem_cons_self, Or.inl rfl⟩
      | none =>
          dsimp only at hgoing ⊢
          by_cases hsize : stackSize ≠ 0
          · simp only [if_pos hsize] at hgoing
            simp [World.stopped, Sched.bmkSchedCreate, hsize] at hgoing
          · simp only [if_neg hsize] at hgoing ⊢
            cases hstack : stackalloc (clearRecord m thread) with
            | none =>
                simp only [hstack] at hgoing
                simp [World.stopped] at hgoing
            | some out =>
                refine ⟨Function.update_self _ _ _, ?_, Or.inr ⟨out.1, rfl⟩⟩
                simp [Sched.bmkSchedCreate, hsize]

/-- A new record is full of zeros, also after the stack has been allocated. -/
theorem Owned.create_zero {bmkMembase bmkMemsize : UInt32} (hbase : bmkMembase.toNat % 4096 = 0)
    (fits : bmkMembase.toNat + bmkMemsize.toNat < 2 ^ 32) {w : World} (h : Owned bmkMembase bmkMemsize w)
    {thrflags : Int} {stackBase : Option Nat} {stackSize : Nat}
    (hgoing : (bmkSchedCreate w thrflags stackBase stackSize).stopped = false)
    (hcarried : (bmkSchedCreate w thrflags stackBase stackSize).memory.carried = false) {i : Nat}
    (hi : i < sizeofThread.toNat) :
    (bmkSchedCreate w thrflags stackBase stackSize).memory.store.heap.mem
      (((bmkSchedCreate w thrflags stackBase stackSize).record w.sched.created).toNat + i) = 0 := by
  obtain ⟨thread, m, hrecord, hthread, -, hmemory⟩ := bmkSchedCreate_inv hgoing
  rw [hthread]
  have hcleared : (clearRecord m thread).store.heap.mem (thread.toNat + i) = 0 := by
    rw [clearRecord, Memory.writeBytes_mem, List.length_replicate, if_pos (by omega),
      Nat.add_sub_cancel_left,
      List.getD_replicate _ hi]
  rcases hmemory with hmemory | ⟨stack, hstack⟩
  · rw [hmemory]
    exact hcleared
  · obtain ⟨hm, -⟩ := bmkXmalloc_spec hstack
    rw [hm] at hcarried ⊢
    have hcarried' : m.carried = false := by
      rw [← clearRecord_carried m thread]
      exact Memory.carried_of_request hcarried
    obtain ⟨-, inv, hlive⟩ :=
      h.newRecord (P := fun _ => True) hbase fits hrecord hcarried' trivial fun _ _ _ => trivial
    have hheld : (thread, sizeofThread) ∈ (clearRecord m thread).live.map Live.block := by
      rw [hlive]
      exact List.mem_cons_self
    have henabled : memoryEnabled (clearRecord m thread) (.memalloc threadStacksize 0) :=
      create_fits _ (.inr rfl)
    have hspared := (inv.request_spares hbase fits henabled hcarried hheld (Nat.le_add_right _ i)
      (Nat.add_lt_add_left hi _) StoreRequest.noConfusion fun _ => StoreRequest.noConfusion).2
    rw [hspared]
    exact hcleared

/-! ### What a step leaves alone -/

namespace Owned

variable {bmkMembase bmkMemsize : UInt32} {w w' : World}

theorem created_of_mem (h : Owned bmkMembase bmkMemsize w) {t : Tid}
    (ht : t ∈ w.sched.threads ++ w.sched.zombies) :
    t < w.sched.created := by
  rw [← h.placed.mem_iff_created, ← or_assoc, ← List.mem_append]
  exact Or.inl ht

theorem not_freed_of_mem (h : Owned bmkMembase bmkMemsize w) {t : Tid}
    (ht : t ∈ w.sched.threads ++ w.sched.zombies) :
    t ∉ w.sched.freedThreads := by
  rcases List.mem_append.mp ht with ht | ht
  · exact h.placed.threads_not_freed ht
  · exact h.placed.zombies_not_freed ht

/-- Nobody gives back the blocks of a thread on a queue. -/
theorem block_not_freed (h : Owned bmkMembase bmkMemsize w) (h' : Owned bmkMembase bmkMemsize w')
    {e : Event} (hstep : ThreadMemory.step w e = some w') {t : Tid}
    (ht : t ∈ w.sched.threads ++ w.sched.zombies) (ht' : t ∈ w'.sched.threads ++ w'.sched.zombies)
    {c : UInt32 × UInt32} (hc : c ∈ w.blocksOf t) :
    ¬Requested w w' e (.memfree c.1) := by
  obtain ⟨-, henabled, -⟩ := step_inv hstep
  intro hreq
  cases e with
  | sched e =>
      cases e with
      | pass tm =>
          obtain ⟨u, hu, hzombie, d, hd, hcp⟩ := hreq
          have hut : u ≠ t := by
            rintro rfl
            exact h'.not_freed_of_mem ht' hu
          exact pointers_ne (h.apart_of_ne (List.mem_append_right _ hzombie) ht hut hd hc) hcp
      | create | exit | join | sched | block | setwakeup | nanosleep | wake => exact hreq
  | client r =>
      subst hreq
      rcases henabled with hnull | ⟨d, hd, hcp⟩
      · exact h.memory.block_ne_null (h.block_held ht hc) hnull
      · exact pointers_ne (h.client_apart hd ht hc) hcp
  | field thread offset byte => cases hreq
  | push thread offset byte => cases hreq

/-- Nobody writes to them without naming the thread. -/
theorem block_not_written (h : Owned bmkMembase bmkMemsize w) (h' : Owned bmkMembase bmkMemsize w')
    {e : Event} (hstep : ThreadMemory.step w e = some w') (hgoing : w'.stopped = false) {t : Tid}
    (ht : t ∈ w.sched.threads ++ w.sched.zombies) (ht' : t ∈ w'.sched.threads ++ w'.sched.zombies)
    {c : UInt32 × UInt32} (hc : c ∈ w.blocksOf t) {a : Nat} (hlo : c.1.toNat ≤ a)
    (hhi : a < c.1.toNat + c.2.toNat)
    (hfield : ∀ u offset byte, e = .field u offset byte → a ≠ (w.record u).toNat + offset)
    (hpush : ∀ u offset byte, e = .push u offset byte → a ≠ (w.stack u).toNat + offset) (byte : UInt8) :
    ¬Requested w w' e (.write a byte) := by
  have hheld := h.block_held ht hc
  have hinside := payload_withHeader h.memory hheld
  obtain ⟨-, henabled, rfl⟩ := step_inv hstep
  intro hreq
  cases e with
  | sched e =>
      cases e with
      | create thrflags base size =>
          -- the new record is apart from the old blocks
          obtain ⟨j, hj, heq⟩ := hreq
          obtain ⟨-, -, -, -, hqueued, -⟩ := bmkSchedCreate_inv hgoing
          have hlt := h.created_of_mem ht
          have hnew : w.sched.created ∈ (effect w (.sched (.create thrflags base size))).sched.threads ++
              (effect w (.sched (.create thrflags base size))).sched.zombies :=
                List.mem_append_left _ hqueued
          have hc' : c ∈ (effect w (.sched (.create thrflags base size))).blocksOf t := by
            rwa [effect_blocksOf w _ hlt]
          have hrecord :
            ((effect w (.sched (.create thrflags base size))).record w.sched.created, sizeofThread) ∈
              (effect w (.sched (.create thrflags base size))).blocksOf w.sched.created := by
            simp [World.blocksOf, Nat.ne_zero_of_lt hlt]
          have hapart := (h'.apart_of_ne hnew ht' (Nat.ne_of_gt hlt) hrecord hc').mono
            (payload_withHeader h'.memory (h'.block_held hnew hrecord))
            (payload_withHeader h'.memory (h'.block_held ht' hc'))
          simp only [payload, Extent.Apart, Extent.fin] at hapart
          omega
      | pass | exit | join | sched | block | setwakeup | nanosleep | wake => exact hreq
  | client r =>
      subst hreq
      rcases henabled with ⟨d, hd, hlo', hhi'⟩ | ⟨g, hg, hlo', hhi'⟩
      · have hclient := h.accounted.mem_iff.mpr (List.mem_append_left _ hd)
        have hapart := (h.client_apart hd ht hc).mono (payload_withHeader h.memory hclient) hinside
        simp only [payload, Extent.Apart, Extent.fin] at hapart
        omega
      · obtain ⟨l, hl, rfl⟩ := List.mem_map.mp hheld
        have hapart := (List.pairwise_append.mp h.memory.sound.apart).2.2 _ (List.mem_map_of_mem hl) _
          (List.mem_map_of_mem hg)
        simp only [Live.block] at hlo hhi
        simp only [Live.extent, Extent.Apart, Extent.fin] at hapart hhi'
        omega
  | field u offset byte => exact hfield u offset byte rfl (StoreRequest.write.inj hreq).1
  | push u offset byte => exact hpush u offset byte rfl (StoreRequest.write.inj hreq).1

/-- A byte of a block stays as it is for as long as the thread is on a queue. -/
theorem block_kept (hbase : bmkMembase.toNat % 4096 = 0)
    (fits : bmkMembase.toNat + bmkMemsize.toNat < 2 ^ 32) (h : Owned bmkMembase bmkMemsize w)
    (hlife : LifeCycle w.sched) {e : Event} (hstep : ThreadMemory.step w e = some w')
    (hgoing : w'.stopped = false) (hcarried : w'.memory.carried = false)
    (hinit : 0 ∉ w'.sched.freedThreads) {t : Tid} (ht : t ∈ w.sched.threads ++ w.sched.zombies)
    (ht' : t ∈ w'.sched.threads ++ w'.sched.zombies) {c : UInt32 × UInt32} (hc : c ∈ w.blocksOf t)
    {a : Nat} (hlo : c.1.toNat ≤ a) (hhi : a < c.1.toNat + c.2.toNat)
    (hfield : ∀ u offset byte, e = .field u offset byte → a ≠ (w.record u).toNat + offset)
    (hpush : ∀ u offset byte, e = .push u offset byte → a ≠ (w.stack u).toNat + offset) :
    w'.memory.store.heap.mem a = w.memory.store.heap.mem a := by
  obtain ⟨h', hreach⟩ := h.step hbase fits hlife hstep hgoing hcarried hinit
  exact hreach.spares hbase fits h.memory hcarried (h.block_held ht hc) hlo hhi
    (h.block_not_freed h' hstep ht ht' hc)
    (h.block_not_written h' hstep hgoing ht ht' hc hlo hhi hfield hpush)

/-- A byte outside the region. -/
theorem outside_kept (hbase : bmkMembase.toNat % 4096 = 0)
    (fits : bmkMembase.toNat + bmkMemsize.toNat < 2 ^ 32) (h : Owned bmkMembase bmkMemsize w)
    (hlife : LifeCycle w.sched) {e : Event} (hstep : ThreadMemory.step w e = some w')
    (hgoing : w'.stopped = false) (hcarried : w'.memory.carried = false)
    (hinit : 0 ∉ w'.sched.freedThreads) {a : Nat}
    (ha : a < bmkMembase.toNat ∨ bmkMembase.toNat + bmkMemsize.toNat ≤ a) :
    w'.memory.store.heap.mem a = w.memory.store.heap.mem a :=
  (h.step hbase fits hlife hstep hgoing hcarried hinit).2.spares_outside hbase fits h.memory hcarried ha

end Owned

end ThreadMemory

end RumpBaremetal
