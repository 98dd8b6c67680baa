/-
Module: RumpBaremetal.Proofs.Tls
Layer: Proofs
Purpose: What a thread keeps for itself stays as it left it.  The records of the threads lie in a heap in
  which others allocate, free and write meanwhile, and a record that comes back to the heap is handed out
  again; yet every thread on the scheduler's queues finds in `bt_tls` and `bt_errno` what was last put
  there, and zeros before.
Trusted boundary: none (fully proved)
Main exports: Var.offset, World.read, Sound, Sound.byte_kept, Agree, ThreadLocals, thread_locals_refine,
  curlwps_distinct
-/
import RumpBaremetal.Kernel.Tls
import RumpBaremetal.Proofs.Blocks

namespace RumpBaremetal

open ByteMem StepSystem

theorem Memory.writeWord_mem (m : Memory) (addr : Nat) (x : UInt32) :
    (m.writeWord addr x).store.heap.mem = store32 m.store.heap.mem addr x := by
  funext b
  rw [Memory.writeWord, Memory.writeBytes_mem, List.length_map, List.length_range, store32]
  by_cases hin : addr ≤ b ∧ b < addr + 4
  · rw [if_pos hin, if_pos hin, List.getD_eq_getElem?_getD, List.getElem?_map,
      List.getElem?_range (by omega)]
    rfl
  · rw [if_neg hin, if_neg hin]

namespace Tls

open Sched (Tid LifeCycle)
open ThreadMemory (World Owned payload withHeader sizeofThread threadStacksize)

/-! ### Where the variables are -/

namespace Var

/-- `bt_tls` has two entries. -/
def Valid : Var → Prop
  | .tls which => which < tlsCount
  | .errno => True

def offset : Var → Nat
  | .tls which => offsetofTls + 4 * which.toNat
  | .errno => offsetofErrno

theorem offset_cases {var : Var} (h : var.Valid) : var.offset = 16 ∨ var.offset = 20 ∨ var.offset = 36 := by
  cases var with
  | tls which =>
      have hlt : which.toNat < 2 := UInt32.lt_iff_toNat_lt.mp h
      simp only [offset, offsetofTls]
      omega
  | errno => exact Or.inr (Or.inr rfl)

theorem offset_inj {var var' : Var} (h : var.Valid) (h' : var'.Valid) (heq : var.offset = var'.offset) :
    var = var' := by
  cases var with
  | tls which =>
      have hlt : which.toNat < 2 := UInt32.lt_iff_toNat_lt.mp h
      cases var' with
      | tls which' =>
          have hsame : which.toNat = which'.toNat := by
            simp only [offset] at heq
            omega
          rw [UInt32.toNat_inj.mp hsame]
      | errno =>
          simp only [offset, offsetofTls, offsetofErrno] at heq
          omega
  | errno =>
      cases var' with
      | tls which' =>
          have hlt : which'.toNat < 2 := UInt32.lt_iff_toNat_lt.mp h'
          simp only [offset, offsetofTls, offsetofErrno] at heq
          omega
      | errno => rfl

end Var

/-- What is in the record of a thread. -/
def read (w : World) (t : Tid) (var : Var) : UInt32 :=
  w.memory.store.heap.mem.load32 ((w.record t).toNat + var.offset)

/-- The running thread or somebody else writes to it. -/
def write (w : World) (t : Tid) (var : Var) (x : UInt32) : World :=
  { w with memory := w.memory.writeWord ((w.record t).toNat + var.offset) x }

theorem bmkSchedGettls_eq {w : World} {t : Tid} {which : UInt32} (h : which < tlsCount) :
    bmkSchedGettls w t which = some (read w t (.tls which)) :=
  if_neg (UInt32.not_le.mpr h)

theorem bmkSchedSettls_eq {w : World} {t : Tid} {which value : UInt32} (h : which < tlsCount) :
    bmkSchedSettls w t which value = write w t (.tls which) value :=
  if_neg (UInt32.not_le.mpr h)

/-- The machine goes on, no request has carried, and the reaper has not come to `init_thread`. -/
structure Fine (w : World) : Prop where
  going : w.stopped = false
  carried : w.memory.carried = false
  init : 0 ∉ w.sched.freedThreads

/-- What is known of a state. -/
structure Sound (bmkMembase bmkMemsize initThread : UInt32) (w : World) : Prop where
  life : LifeCycle w.sched
  owned : Owned bmkMembase bmkMemsize w
  static : w.record 0 = initThread

theorem onQueue.mem {w : Sched.World} {t : Tid} (h : onQueue w t) : t ∈ w.threads ++ w.zombies :=
  List.mem_append.mpr h

section

variable {bmkMembase bmkMemsize initThread : UInt32} {w w' : World}

namespace Sound

theorem created (h : Sound bmkMembase bmkMemsize initThread w) {t : Tid} (ht : onQueue w.sched t) :
    t < w.sched.created :=
  h.owned.created_of_mem ht.mem

theorem running (h : Sound bmkMembase bmkMemsize initThread w) : onQueue w.sched w.sched.currentThread :=
  h.life.running

/-- The record of a thread other than `init_thread` is a block of the heap. -/
theorem record_held (h : Sound bmkMembase bmkMemsize initThread w) {t : Tid} (ht : onQueue w.sched t)
    (hne : t ≠ 0) :
    (w.record t, sizeofThread) ∈ w.blocksOf t ∧
    (w.record t, sizeofThread) ∈ w.memory.live.map Live.block := by
  have hblock : (w.record t, sizeofThread) ∈ w.blocksOf t := by simp [World.blocksOf, hne]
  exact ⟨hblock, h.owned.block_held ht.mem hblock⟩

theorem record_inside (h : Sound bmkMembase bmkMemsize initThread w) {t : Tid} (ht : onQueue w.sched t)
    (hne : t ≠ 0) :
    (payload (w.record t, sizeofThread)).Inside ⟨bmkMembase.toNat, bmkMemsize.toNat⟩ := by
  obtain ⟨l, hl, hblock⟩ := List.mem_map.mp (h.record_held ht hne).2
  have hinside := h.owned.memory.sound.live_inside l hl
  simp only [Live.block, Prod.mk.injEq] at hblock
  simp only [Live.extent, Extent.Inside, Extent.fin, hblock] at hinside
  simp only [payload, Extent.Inside, Extent.fin]
  omega

/-- No two records share a byte. -/
theorem records_apart (h : Sound bmkMembase bmkMemsize initThread w)
    (hstatic : (payload (initThread, sizeofThread)).Apart ⟨bmkMembase.toNat, bmkMemsize.toNat⟩) {t u : Tid}
    (ht : onQueue w.sched t) (hu : onQueue w.sched u) (hne : t ≠ u) :
    (payload (w.record t, sizeofThread)).Apart (payload (w.record u, sizeofThread)) := by
  rw [← h.static] at hstatic
  by_cases hzero : t = 0
  · subst hzero
    exact hstatic.mono ⟨le_rfl, le_rfl⟩ (h.record_inside hu hne.symm)
  · by_cases hzero' : u = 0
    · subst hzero'
      exact (hstatic.mono ⟨le_rfl, le_rfl⟩ (h.record_inside ht hne)).symm
    · obtain ⟨hblock, hheld⟩ := h.record_held ht hzero
      obtain ⟨hblock', hheld'⟩ := h.record_held hu hzero'
      exact (h.owned.apart_of_ne ht.mem hu.mem hne hblock hblock').mono
        (ThreadMemory.payload_withHeader h.owned.memory hheld)
          (ThreadMemory.payload_withHeader h.owned.memory hheld')

/-! ### Writing to a record -/

theorem writeBytes (h : Sound bmkMembase bmkMemsize initThread w)
    (hstatic : (payload (initThread, sizeofThread)).Apart ⟨bmkMembase.toNat, bmkMemsize.toNat⟩) {t : Tid}
    (ht : onQueue w.sched t) {offset : Nat} {bytes : List UInt8}
    (hfit : offset + bytes.length ≤ sizeofThread.toNat) :
    Sound bmkMembase bmkMemsize initThread
      { w with memory := w.memory.writeBytes ((w.record t).toNat + offset) bytes } := by
  refine ⟨h.life, h.owned.setMemory ?_ ?_, h.static⟩
  · by_cases hzero : t = 0
    · subst hzero
      rw [← h.static] at hstatic
      refine MemoryInv.writeBytes_outside bytes _ _ h.owned.memory (hstatic.mono ?_ ⟨le_rfl, le_rfl⟩)
      simp only [payload, Extent.Inside, Extent.fin]
      omega
    · refine (MemoryInv.writeBytes_held (P := fun _ => True) bytes _ _ h.owned.memory
        (h.record_held ht hzero).2
        (Nat.le_add_right _ _) ?_ fun _ _ _ _ => trivial).2
      dsimp only
      omega
  · rw [Memory.writeBytes_live]

theorem write (h : Sound bmkMembase bmkMemsize initThread w)
    (hstatic : (payload (initThread, sizeofThread)).Apart ⟨bmkMembase.toNat, bmkMemsize.toNat⟩) {t : Tid}
    (ht : onQueue w.sched t) {var : Var} (hvar : var.Valid) (x : UInt32) :
    Sound bmkMembase bmkMemsize initThread (write w t var x) := by
  refine h.writeBytes hstatic ht ?_
  have hsize : sizeofThread.toNat = 60 := rfl
  have hoffset := Var.offset_cases hvar
  rw [List.length_map, List.length_range]
  omega

/-- A variable reads back what was written to it, and the others are as they were. -/
theorem read_write (h : Sound bmkMembase bmkMemsize initThread w)
    (hstatic : (payload (initThread, sizeofThread)).Apart ⟨bmkMembase.toNat, bmkMemsize.toNat⟩)
    {t u : Tid} (ht : onQueue w.sched t) (hu : onQueue w.sched u) {var var' : Var} (hvar : var.Valid)
    (hvar' : var'.Valid) (x : UInt32) :
    read (Tls.write w t var x) u var' = if u = t ∧ var' = var then x else read w u var' := by
  have hread : read (Tls.write w t var x) u var' =
      load32 (store32 w.memory.store.heap.mem ((w.record t).toNat + var.offset) x)
        ((w.record u).toNat + var'.offset) := by
    simp only [read, Tls.write, Memory.writeWord_mem]
  rw [hread]
  have hsize : sizeofThread.toNat = 60 := rfl
  have hoffset := Var.offset_cases hvar
  have hoffset' := Var.offset_cases hvar'
  by_cases hut : u = t
  · subst hut
    by_cases hsame : var' = var
    · subst hsame
      rw [load32_store32, if_pos ⟨rfl, rfl⟩]
    · have hne : var'.offset ≠ var.offset := fun heq => hsame (Var.offset_inj hvar' hvar heq)
      rw [load32_store32_of_apart _ _ (by omega), if_neg fun hboth => hsame hboth.2]
      rfl
  · have hapart := h.records_apart hstatic hu ht hut
    simp only [payload, Extent.Apart, Extent.fin, hsize] at hapart
    rw [load32_store32_of_apart _ _ (by omega), if_neg fun hboth => hut hboth.1]
    rfl

/-! ### What the other steps leave alone -/

theorem base (hbase : bmkMembase.toNat % 4096 = 0) (fits : bmkMembase.toNat + bmkMemsize.toNat < 2 ^ 32)
    (h : Sound bmkMembase bmkMemsize initThread w) {e : ThreadMemory.Event}
    (hstep : ThreadMemory.step w e = some w') (hfine : Fine w') :
    Sound bmkMembase bmkMemsize initThread w' := by
  refine ⟨ThreadMemory.step_lifeCycle h.life hstep,
    (h.owned.step hbase fits h.life hstep hfine.going hfine.carried hfine.init).1, ?_⟩
  obtain ⟨-, -, rfl⟩ := ThreadMemory.step_inv hstep
  rw [(ThreadMemory.effect_places w e (Nat.zero_lt_of_lt (h.created h.running))).1]
  exact h.static

/-- Its own stack and those of the others lie elsewhere. -/
theorem push_apart (h : Sound bmkMembase bmkMemsize initThread w) {t u : Tid} (ht : onQueue w.sched t)
    (hne : t ≠ 0) {offset : Nat} {byte : UInt8} (henabled : ThreadMemory.enabled w (.push u offset byte))
    {i : Nat} (hi : i < sizeofThread.toNat) : (w.record t).toNat + i ≠ (w.stack u).toNat + offset := by
  obtain ⟨hqueued, hext, hlt⟩ := henabled
  obtain ⟨hblock, hheld⟩ := h.record_held ht hne
  have hstack : (w.stack u, threadStacksize) ∈ w.blocksOf u := by simp [World.blocksOf, hqueued.1, hext]
  have hapart :
      (withHeader (w.stack u, threadStacksize)).Apart (withHeader (w.record t, sizeofThread)) := by
    by_cases hut : u = t
    · subst hut
      exact (h.owned.own_apart hqueued hext).symm
    · exact h.owned.apart_of_ne hqueued.mem ht.mem hut hstack hblock
  have hpayload :=
    hapart.mono (ThreadMemory.payload_withHeader h.owned.memory (h.owned.block_held hqueued.mem hstack))
      (ThreadMemory.payload_withHeader h.owned.memory hheld)
  simp only [payload, Extent.Apart, Extent.fin] at hpayload
  omega

/-- The record of a thread stays as it is for as long as the thread is on a queue. -/
theorem byte_kept (hbase : bmkMembase.toNat % 4096 = 0)
    (fits : bmkMembase.toNat + bmkMemsize.toNat < 2 ^ 32)
    (hstatic : (payload (initThread, sizeofThread)).Apart ⟨bmkMembase.toNat, bmkMemsize.toNat⟩)
    (h : Sound bmkMembase bmkMemsize initThread w) {e : ThreadMemory.Event}
    (hstep : ThreadMemory.step w e = some w') (hfine : Fine w') {t : Tid} (ht : onQueue w.sched t)
    (ht' : onQueue w'.sched t) {i : Nat} (hi : i < sizeofThread.toNat)
    (hfield : ∀ u offset byte, e ≠ .field u offset byte) :
    w'.memory.store.heap.mem ((w.record t).toNat + i) =
      w.memory.store.heap.mem ((w.record t).toNat + i) := by
  by_cases hzero : t = 0
  · subst hzero
    refine h.owned.outside_kept hbase fits h.life hstep hfine.going hfine.carried hfine.init ?_
    rw [← h.static] at hstatic
    simp only [payload, Extent.Apart, Extent.fin] at hstatic
    omega
  · refine h.owned.block_kept hbase fits h.life hstep hfine.going hfine.carried hfine.init ht.mem ht'.mem
      (h.record_held ht hzero).1 (Nat.le_add_right _ _) (Nat.add_lt_add_left hi _) ?_ ?_
    · exact fun u offset byte heq => absurd heq (hfield u offset byte)
    · rintro u offset byte rfl
      exact h.push_apart ht hzero (ThreadMemory.step_inv hstep).2.1 hi

theorem read_kept (hbase : bmkMembase.toNat % 4096 = 0)
    (fits : bmkMembase.toNat + bmkMemsize.toNat < 2 ^ 32)
    (hstatic : (payload (initThread, sizeofThread)).Apart ⟨bmkMembase.toNat, bmkMemsize.toNat⟩)
    (h : Sound bmkMembase bmkMemsize initThread w) {e : ThreadMemory.Event}
    (hstep : ThreadMemory.step w e = some w') (hfine : Fine w') {t : Tid} (ht : onQueue w.sched t)
    (ht' : onQueue w'.sched t) {var : Var} (hvar : var.Valid)
    (hfield : ∀ u offset byte, e ≠ .field u offset byte) : read w' t var = read w t var := by
  have hrecord : w'.record t = w.record t := by
    obtain ⟨-, -, rfl⟩ := ThreadMemory.step_inv hstep
    exact (ThreadMemory.effect_places w e (h.created ht)).1
  have hsize : sizeofThread.toNat = 60 := rfl
  have hoffset := Var.offset_cases hvar
  rw [read, read, hrecord]
  refine load32_congr fun b hlo hhi => ?_
  obtain ⟨i, rfl⟩ := Nat.exists_eq_add_of_le (show (w.record t).toNat ≤ b by omega)
  exact h.byte_kept hbase fits hstatic hstep hfine ht ht' (by omega) hfield

/-- A write to another field. -/
theorem read_field (h : Sound bmkMembase bmkMemsize initThread w)
    (hstatic : (payload (initThread, sizeofThread)).Apart ⟨bmkMembase.toNat, bmkMemsize.toNat⟩)
    {t u : Tid} (ht : onQueue w.sched t) (hu : onQueue w.sched u) {offset : Nat}
    (hother : otherField offset) (byte : UInt8) {var : Var} (hvar : var.Valid) :
    read (ThreadMemory.effect w (.field u offset byte)) t var = read w t var := by
  have hsize : sizeofThread.toNat = 60 := rfl
  have hoffset := Var.offset_cases hvar
  simp only [otherField, offsetofTls, offsetofErrno, hsize] at hother
  change load32 (Function.update w.memory.store.heap.mem ((w.record u).toNat + offset) byte)
    ((w.record t).toNat + var.offset) = read w t var
  refine load32_congr fun b hlo hhi => Function.update_of_ne ?_ _ _
  by_cases hut : u = t
  · subst hut
    omega
  · have hapart := h.records_apart hstatic hu ht hut
    simp only [payload, Extent.Apart, Extent.fin, hsize] at hapart
    omega

end Sound

/-! ### Step by step -/

theorem Locals.set_vars (a : Locals) (t u : Tid) (var var' : Var) (x : UInt32) :
    (a.set t var x).vars u var' = if u = t ∧ var' = var then x else a.vars u var' := by
  by_cases hut : u = t
  · subst hut
    by_cases hsame : var' = var
    · subst hsame
      simp [Locals.set]
    · simp [Locals.set, hsame]
  · simp [Locals.set, hut]

/-- The variables without memory are those in the records. -/
structure Agree (w : World) (a : Locals) : Prop where
  sched : a.sched = w.sched
  vars : ∀ t, onQueue w.sched t → ∀ var : Var, var.Valid → read w t var = a.vars t var

theorem Agree.write {a : Locals} (hagree : Agree w a) (h : Sound bmkMembase bmkMemsize initThread w)
    (hstatic : (payload (initThread, sizeofThread)).Apart ⟨bmkMembase.toNat, bmkMemsize.toNat⟩) {t : Tid}
    (ht : onQueue w.sched t) {var : Var} (hvar : var.Valid) (x : UInt32) :
    Agree (write w t var x) (a.set t var x) := by
  refine ⟨hagree.sched, fun u hu var' hvar' => ?_⟩
  rw [h.read_write hstatic ht hu hvar hvar', Locals.set_vars, hagree.vars u hu var' hvar']

/-- What is kept along a run. -/
def Related (bmkMembase bmkMemsize initThread : UInt32) (w : World) (a : Locals) : Prop :=
  Sound bmkMembase bmkMemsize initThread w ∧ Agree w a

theorem Related.write {a : Locals} (h : Related bmkMembase bmkMemsize initThread w a)
    (hstatic : (payload (initThread, sizeofThread)).Apart ⟨bmkMembase.toNat, bmkMemsize.toNat⟩) {t : Tid}
    (ht : onQueue w.sched t) {var : Var} (hvar : var.Valid) (x : UInt32) :
    Related bmkMembase bmkMemsize initThread (Tls.write w t var x) (a.set t var x) :=
  ⟨h.1.write hstatic ht hvar x, h.2.write h.1 hstatic ht hvar x⟩

theorem not_panicked (h : w.stopped = false) : w.panicked ≠ true := by
  rw [(ThreadMemory.not_stopped h).1]
  exact Bool.false_ne_true

/-- The base machine does the same. -/
theorem base_step {e : ThreadMemory.Event} (hgoing : w.stopped = false)
    (henabled : ThreadMemory.enabled w e) :
    ThreadMemory.step w e = some (ThreadMemory.effect w e) := if_pos ⟨hgoing, henabled⟩

/-- Steps that the machine without memory does not see. -/
theorem Related.hidden (hbase : bmkMembase.toNat % 4096 = 0)
    (fits : bmkMembase.toNat + bmkMemsize.toNat < 2 ^ 32)
    (hstatic : (payload (initThread, sizeofThread)).Apart ⟨bmkMembase.toNat, bmkMemsize.toNat⟩)
    {a : Locals} (h : Related bmkMembase bmkMemsize initThread w a) {e : Event}
    (hstep : step w e = some w') (hfine : Fine w') (hhidden : e.asCall = none) :
    Related bmkMembase bmkMemsize initThread w' a := by
  obtain ⟨hsound, hagree⟩ := h
  obtain ⟨hgoing, henabled, rfl⟩ := step_inv hstep
  cases e with
  | call c => cases hhidden
  | client r =>
      have hbaseStep := base_step (e := .client r) hgoing henabled
      refine ⟨hsound.base hbase fits hbaseStep hfine, hagree.sched, fun t ht var hvar => ?_⟩
      rw [← hagree.vars t ht var hvar]
      exact hsound.read_kept hbase fits hstatic hbaseStep hfine ht ht hvar fun _ _ _ =>
        ThreadMemory.Event.noConfusion
  | field u offset byte =>
      obtain ⟨hu, hother⟩ := henabled
      have hfit : offset + [byte].length ≤ sizeofThread.toNat := hother.1
      refine ⟨hsound.writeBytes hstatic hu hfit, hagree.sched, fun t ht var hvar => ?_⟩
      rw [← hagree.vars t ht var hvar]
      exact hsound.read_field hstatic ht hu hother byte hvar
  | push u offset byte =>
      have hbaseStep := base_step (e := .push u offset byte) hgoing henabled
      refine ⟨hsound.base hbase fits hbaseStep hfine, hagree.sched, fun t ht var hvar => ?_⟩
      rw [← hagree.vars t ht var hvar]
      exact hsound.read_kept hbase fits hstatic hbaseStep hfine ht ht hvar fun _ _ _ =>
        ThreadMemory.Event.noConfusion

/-- The scheduler's calls: a new thread starts with zeros, and nobody else notices. -/
theorem Related.sched (hbase : bmkMembase.toNat % 4096 = 0)
    (fits : bmkMembase.toNat + bmkMemsize.toNat < 2 ^ 32)
    (hstatic : (payload (initThread, sizeofThread)).Apart ⟨bmkMembase.toNat, bmkMemsize.toNat⟩)
    {a : Locals} (h : Related bmkMembase bmkMemsize initThread w a) {e : Sched.Event}
    (hstep : ThreadMemory.step w (.sched e) = some w') (hfine : Fine w') :
    ∃ a', Locals.step a (.sched e) = some a' ∧ Related bmkMembase bmkMemsize initThread w' a' := by
  obtain ⟨hsound, hagree⟩ := h
  have hsound' := hsound.base hbase fits hstep hfine
  have hsched : Sched.step w.sched e = some w'.sched := by
    obtain ⟨hgoing, henabled, rfl⟩ := ThreadMemory.step_inv hstep
    rcases ThreadMemory.effect_sched w e with heffect | ⟨hpanicked, -⟩
    · rw [Sched.step, if_pos ⟨by simp [(ThreadMemory.not_stopped hgoing).2.1], henabled⟩, heffect]
    · exact absurd hpanicked (not_panicked hfine.going)
  refine ⟨⟨w'.sched, a.born e⟩, ?_, hsound', rfl, fun t ht' var hvar => ?_⟩
  · rw [Locals.step, hagree.sched, hsched, Option.map_some]
  · rcases Sched.step_onQueue hsound.life hsched ht' with ht | ⟨⟨thrflags, base, size, rfl⟩, rfl⟩
    · have hborn : a.born e t = a.vars t := by
        cases e with
        | create thrflags base size =>
            refine Function.update_of_ne ?_ _ _
            rw [hagree.sched]
            exact Nat.ne_of_lt (hsound.created ht)
        | exit | join | sched | block | setwakeup | nanosleep | wake | pass => rfl
      change read w' t var = a.born e t var
      rw [hborn, ← hagree.vars t ht var hvar]
      exact hsound.read_kept hbase fits hstatic hstep hfine ht ht' hvar fun _ _ _ =>
        ThreadMemory.Event.noConfusion
    · have hborn : a.born (.create thrflags base size) w.sched.created = fun _ => 0 := by
        rw [Locals.born, hagree.sched]
        exact Function.update_self _ _ _
      obtain ⟨-, -, rfl⟩ := ThreadMemory.step_inv hstep
      have hsize : sizeofThread.toNat = 60 := rfl
      have hoffset := Var.offset_cases hvar
      change read (ThreadMemory.bmkSchedCreate w thrflags base size) w.sched.created var =
        a.born (.create thrflags base size) w.sched.created var
      rw [hborn]
      refine load32_zero fun b hlo hhi => ?_
      obtain ⟨i, rfl⟩ := Nat.exists_eq_add_of_le ((Nat.le_add_right _ _).trans hlo)
      exact hsound.owned.create_zero hbase fits hfine.going hfine.carried (by omega)

/-- Calls that the machine without memory follows. -/
theorem Related.seen (hbase : bmkMembase.toNat % 4096 = 0)
    (fits : bmkMembase.toNat + bmkMemsize.toNat < 2 ^ 32)
    (hstatic : (payload (initThread, sizeofThread)).Apart ⟨bmkMembase.toNat, bmkMemsize.toNat⟩)
    {a : Locals} (h : Related bmkMembase bmkMemsize initThread w a) {e : Event}
    (hstep : step w e = some w') (hfine : Fine w') {c : Call} (hseen : e.asCall = some c) :
    ∃ a', Locals.step a c = some a' ∧ Related bmkMembase bmkMemsize initThread w' a' := by
  obtain rfl : e = .call c := by
    cases e with
    | call c' => rw [Option.some.inj hseen]
    | client | field | push => cases hseen
  obtain ⟨hgoing, henabled, rfl⟩ := step_inv hstep
  have hsound := h.1
  have hagree := h.2
  have hrumplwp : (Var.tls bmkTlsRumplwp).Valid := show bmkTlsRumplwp < tlsCount by decide
  have herrno : Var.errno.Valid := trivial
  have hpanics : ∀ {v : World}, v.panicked = true → ¬Fine v := fun hpanicked hfine =>
    not_panicked hfine.going hpanicked
  have hcurrent : onQueue w.sched a.sched.currentThread := hagree.sched ▸ hsound.running
  have hcurlwp : rumpuserCurlwp w = some (a.vars a.sched.currentThread (.tls bmkTlsRumplwp)) := by
    rw [rumpuserCurlwp, bmkSchedGettls_eq hrumplwp, ← hagree.sched, hagree.vars _ hcurrent _ hrumplwp]
  cases c with
  | sched e => exact h.sched hbase fits hstatic (base_step hgoing henabled) hfine
  | settls t which value =>
      by_cases hwhich : which < tlsCount
      · have hvalid : (Var.tls which).Valid := hwhich
        refine ⟨a.set t (.tls which) value, if_pos hwhich, ?_⟩
        rw [effect, bmkSchedSettls_eq hwhich]
        exact h.write hstatic henabled hvalid value
      · rw [effect, bmkSchedSettls, if_pos (UInt32.not_lt.mp hwhich)] at hfine
        exact absurd hfine (hpanics rfl)
  | gettls t which =>
      by_cases hwhich : which < tlsCount
      · refine ⟨a, if_pos hwhich, ?_⟩
        rw [effect, bmkSchedGettls_eq hwhich, if_pos Option.isSome_some]
        exact h
      · rw [effect, bmkSchedGettls, if_pos (UInt32.not_lt.mp hwhich), if_neg (by decide)] at hfine
        exact absurd hfine (hpanics rfl)
  | seterrno error =>
      refine ⟨_, rfl, ?_⟩
      rw [hagree.sched]
      exact h.write hstatic hsound.running herrno error
  | curlwpop op l =>
      cases op with
      | create => exact ⟨a, rfl, h⟩
      | destroy => exact ⟨a, rfl, h⟩
      | set =>
          by_cases hnull : a.vars a.sched.currentThread (.tls bmkTlsRumplwp) = 0
          · refine ⟨_, if_pos hnull, ?_⟩
            rw [effect, rumpuserCurlwpop, hcurlwp, hnull, if_pos rfl, bmkSchedSettls_eq hrumplwp,
              ← hagree.sched]
            exact h.write hstatic hcurrent hrumplwp l
          · have hne : ¬rumpuserCurlwp w = some 0 := by
              rw [hcurlwp]
              exact fun heq => hnull (Option.some.inj heq)
            rw [effect, rumpuserCurlwpop, if_neg hne] at hfine
            exact absurd hfine (hpanics rfl)
      | clear =>
          by_cases hsame : a.vars a.sched.currentThread (.tls bmkTlsRumplwp) = l
          · refine ⟨_, if_pos hsame, ?_⟩
            rw [effect, rumpuserCurlwpop, hcurlwp, hsame, if_pos rfl, bmkSchedSettls_eq hrumplwp,
              ← hagree.sched]
            exact h.write hstatic hcurrent hrumplwp 0
          · have hne : ¬rumpuserCurlwp w = some l := by
              rw [hcurlwp]
              exact fun heq => hsame (Option.some.inj heq)
            rw [effect, rumpuserCurlwpop, if_neg hne] at hfine
            exact absurd hfine (hpanics rfl)

end

/-! ### The whole run -/

theorem settls_keeps (w : World) (t : Tid) (which value : UInt32) :
    (bmkSchedSettls w t which value).sched = w.sched ∧
      (bmkSchedSettls w t which value).memory.carried = w.memory.carried := by
  unfold bmkSchedSettls
  split
  · exact ⟨rfl, rfl⟩
  · exact ⟨rfl, Memory.writeBytes_carried _ _ _⟩

/-- The calls that do not go to the scheduler leave it alone, and ask for no pages. -/
theorem call_keeps (w : World) {c : Call} (hc : ∀ e, c ≠ .sched e) :
    (effect w (.call c)).sched = w.sched ∧ (effect w (.call c)).memory.carried = w.memory.carried := by
  cases c with
  | sched e => exact absurd rfl (hc e)
  | settls t which value => exact settls_keeps w t which value
  | gettls t which =>
      rw [effect]
      split
      · exact ⟨rfl, rfl⟩
      · exact ⟨rfl, rfl⟩
  | seterrno error => exact ⟨rfl, Memory.writeBytes_carried _ _ _⟩
  | curlwpop op l =>
      cases op with
      | create | destroy => exact ⟨rfl, rfl⟩
      | set | clear =>
          rw [effect, rumpuserCurlwpop]
          split
          · exact settls_keeps w _ _ _
          · exact ⟨rfl, rfl⟩

/-- A state that is fine comes after states that were. -/
theorem Fine.back {w w' : World} {e : Event} (hstep : step w e = some w') (h : Fine w') : Fine w := by
  obtain ⟨hgoing, henabled, rfl⟩ := step_inv hstep
  have hbase : ∀ {e : ThreadMemory.Event}, ThreadMemory.enabled w e → Fine (ThreadMemory.effect w e) →
      Fine w :=
    fun henabled h =>
      ⟨hgoing, ThreadMemory.step_carried (base_step hgoing henabled) h.carried, fun hfreed =>
        h.init (ThreadMemory.step_freed (base_step hgoing henabled) hfreed)⟩
  cases e with
  | call c =>
      by_cases hc : ∃ e, c = .sched e
      · obtain ⟨e, rfl⟩ := hc
        exact hbase (e := .sched e) henabled h
      · obtain ⟨hsched, hcarried⟩ := call_keeps w fun e heq => hc ⟨e, heq⟩
        refine ⟨hgoing, ?_, ?_⟩
        · rw [← hcarried]
          exact h.carried
        · rw [← hsched]
          exact h.init
  | client r => exact hbase (e := .client r) henabled h
  | field t offset byte => exact ⟨hgoing, Memory.carried_of_request h.carried, h.init⟩
  | push t offset byte => exact hbase (e := .push t offset byte) henabled h

/-- Before the first step.  The static record is zero. -/
theorem related_boot {mem : ByteMem} {bmkMembase bmkMemsize initThread : UInt32}
    (hzero : ∀ i < sizeofThread.toNat, mem (initThread.toNat + i) = 0) :
    Related bmkMembase bmkMemsize initThread
      (ThreadMemory.boot mem bmkMembase bmkMemsize initThread) .init := by
  have hstatic : (ThreadMemory.boot mem bmkMembase bmkMemsize initThread).record 0 = initThread := by
    simp [ThreadMemory.boot]
  refine ⟨⟨Sched.lifeCycle_init, ThreadMemory.owned_boot _ _ _ _, hstatic⟩, rfl, fun t ht var hvar => ?_⟩
  have hinit : t = 0 := by
    rcases ht with ht | ht
    · exact List.mem_singleton.mp ht
    · exact absurd ht List.not_mem_nil
  subst hinit
  have hsize : sizeofThread.toNat = 60 := rfl
  have hoffset := Var.offset_cases hvar
  rw [read, hstatic]
  refine load32_zero fun b hlo hhi => ?_
  obtain ⟨i, rfl⟩ := Nat.exists_eq_add_of_le ((Nat.le_add_right _ _).trans hlo)
  exact hzero i (by omega)

/-- What the threads read. -/
structure ThreadLocals (w : World) (a : Locals) : Prop where
  sched : a.sched = w.sched
  gettls : ∀ t, onQueue w.sched t → ∀ which,
    bmkSchedGettls w t which = if which < tlsCount then some (a.vars t (.tls which)) else none
  errno : w.memory.store.heap.mem.load32 (bmkSchedGeterrno w) = a.vars w.sched.currentThread .errno
  curlwp : rumpuserCurlwp w = some (a.vars w.sched.currentThread (.tls bmkTlsRumplwp))

theorem Related.threadLocals {bmkMembase bmkMemsize initThread : UInt32} {w : World} {a : Locals}
    (h : Related bmkMembase bmkMemsize initThread w a) : ThreadLocals w a := by
  obtain ⟨hsound, hagree⟩ := h
  have hrumplwp : (Var.tls bmkTlsRumplwp).Valid := show bmkTlsRumplwp < tlsCount by decide
  refine ⟨hagree.sched, fun t ht which => ?_, hagree.vars _ hsound.running .errno trivial, ?_⟩
  · by_cases hwhich : which < tlsCount
    · rw [bmkSchedGettls_eq hwhich, if_pos hwhich, hagree.vars t ht (.tls which) hwhich]
    · rw [bmkSchedGettls, if_pos (UInt32.not_lt.mp hwhich), if_neg hwhich]
  · rw [rumpuserCurlwp, bmkSchedGettls_eq hrumplwp, hagree.vars _ hsound.running _ hrumplwp]

/-- Along every run of the threads, the clients of the heap and the reaper, what the threads find in their
    records is what they would find if every thread had variables of its own and there were no memory: the
    value that was set last, and zero if none was. -/
theorem thread_locals_refine {mem : ByteMem} {bmkMembase bmkMemsize initThread : UInt32}
    (hbase : bmkMembase.toNat % 4096 = 0) (fits : bmkMembase.toNat + bmkMemsize.toNat < 2 ^ 32)
    (hstatic : (payload (initThread, sizeofThread)).Apart ⟨bmkMembase.toNat, bmkMemsize.toNat⟩)
    (hzero : ∀ i < sizeofThread.toNat, mem (initThread.toNat + i) = 0) {events : List Event} {w : World}
    (hrun : run step (ThreadMemory.boot mem bmkMembase bmkMemsize initThread) events = some w)
    (hfine : Fine w) :
    ∃ a, run Locals.step .init (events.filterMap Event.asCall) = some a ∧ ThreadLocals w a := by
  have hseen : ∀ (w : World) (e : Event) (w' : World) (a : Locals) (c : Call),
      Related bmkMembase bmkMemsize initThread w a → step w e = some w' → Fine w' → e.asCall = some c →
        ∃ a', Locals.step a c = some a' ∧ Related bmkMembase bmkMemsize initThread w' a' :=
    fun _ _ _ _ _ h hstep hfine hseen => h.seen hbase fits hstatic hstep hfine hseen
  obtain ⟨a, hrun', hrelated⟩ := run_refines (fun _ _ _ hstep hfine => Fine.back hstep hfine)
    (fun _ _ _ _ h hstep hfine hhidden => h.hidden hbase fits hstatic hstep hfine hhidden) hseen
      (related_boot hzero) hrun
    hfine
  exact ⟨a, hrun', hrelated.threadLocals⟩

/-- A thread is reaped with values in its record, and the next thread gets the same memory: it finds zeros
    in it, and `init_thread` still has what it had. -/
theorem thread_locals_refine_reused :
    ∃ w, run step (ThreadMemory.boot (fun _ => 0) 0x200000 0x1000000 0x180000)
        [.call (.curlwpop .set 0x11), .call (.sched (.create 0 none 0)), .client (.memalloc 100 8),
          .call (.sched .sched),
          .call (.sched (.pass 0)), .call (.curlwpop .set 0x22), .call (.seterrno 5), .field 1 52 1,
          .call (.sched .exit),
          .call (.sched (.pass 0)), .call (.sched (.create 0 none 0)), .call (.sched .sched),
          .call (.sched (.pass 0))] =
          some w ∧
      w.sched.freedThreads = [1] ∧ w.sched.currentThread = 2 ∧ w.record 2 = w.record 1 ∧
      rumpuserCurlwp w = some 0 ∧ bmkSchedGettls w 0 bmkTlsRumplwp = some 0x11 ∧
      ∃ a, run Locals.step .init
          [.curlwpop .set 0x11, .sched (.create 0 none 0), .sched .sched, .sched (.pass 0),
            .curlwpop .set 0x22, .seterrno 5,
            .sched .exit, .sched (.pass 0), .sched (.create 0 none 0), .sched .sched, .sched (.pass 0)] =
            some a ∧
        ThreadLocals w a := by
  have hlast : (run step (ThreadMemory.boot (fun _ => 0) 0x200000 0x1000000 0x180000)
      [.call (.curlwpop .set 0x11), .call (.sched (.create 0 none 0)), .client (.memalloc 100 8),
        .call (.sched .sched),
        .call (.sched (.pass 0)), .call (.curlwpop .set 0x22), .call (.seterrno 5), .field 1 52 1,
        .call (.sched .exit),
        .call (.sched (.pass 0)), .call (.sched (.create 0 none 0)), .call (.sched .sched),
        .call (.sched (.pass 0))]).map
        (fun w => ((w.sched.freedThreads, w.sched.currentThread, decide (w.record 2 = w.record 1)),
          (rumpuserCurlwp w, bmkSchedGettls w 0 bmkTlsRumplwp), w.stopped, w.memory.carried)) =
      some (([1], 2, true), (some 0, some 0x11), false, false) := by
    decide +kernel
  obtain ⟨w, hrun, hleft⟩ := Option.map_eq_some_iff.mp hlast
  simp only [Prod.mk.injEq, decide_eq_true_eq] at hleft
  obtain ⟨⟨hfreed, hcurrent, hreused⟩, ⟨hcurlwp, hinit⟩, hgoing, hcarried⟩ := hleft
  have hfine : Fine w := ⟨hgoing, hcarried, by simp [hfreed]⟩
  exact ⟨w, hrun, hfreed, hcurrent, hreused, hcurlwp, hinit,
    thread_locals_refine (by decide) (by decide) (by decide) (fun _ _ => rfl) hrun hfine⟩

/-! ### One thread for each lwp -/

/-- The rump kernel gives an lwp to one thread at a time, and nothing else writes to that pointer. -/
def LwpsOnce (w : World) : Event → Prop
  | .call (.curlwpop .set l) =>
      l = 0 ∨ ∀ t ∈ w.sched.threads ++ w.sched.zombies, bmkSchedGettls w t bmkTlsRumplwp ≠ some l
  | .call (.settls _ which _) => which ≠ bmkTlsRumplwp
  | _ => True

instance (w : World) : (e : Event) → Decidable (LwpsOnce w e)
  | .call (.curlwpop .set _) =>
      inferInstanceAs (Decidable (_ ∨ ∀ t ∈ w.sched.threads ++ w.sched.zombies, _))
  | .call (.curlwpop .create _) => .isTrue trivial
  | .call (.curlwpop .destroy _) => .isTrue trivial
  | .call (.curlwpop .clear _) => .isTrue trivial
  | .call (.settls _ _ _) => inferInstanceAs (Decidable (_ ≠ _))
  | .call (.sched _) => .isTrue trivial
  | .call (.gettls _ _) => .isTrue trivial
  | .call (.seterrno _) => .isTrue trivial
  | .client _ => .isTrue trivial
  | .field _ _ _ => .isTrue trivial
  | .push _ _ _ => .isTrue trivial

namespace Locals

/-- Threads with the same `curlwp` have none. -/
def Distinct (a : Locals) : Prop :=
  ∀ t u, onQueue a.sched t → onQueue a.sched u →
    a.vars t (.tls bmkTlsRumplwp) = a.vars u (.tls bmkTlsRumplwp) →
    a.vars t (.tls bmkTlsRumplwp) ≠ 0 → t = u

/-- The running thread gets an lwp that nobody has, or loses its own. -/
theorem Distinct.setLwp {a : Locals} (h : a.Distinct) {s : Tid} {l : UInt32}
    (hnew : l = 0 ∨ ∀ t, onQueue a.sched t → a.vars t (.tls bmkTlsRumplwp) ≠ l) :
    (a.set s (.tls bmkTlsRumplwp) l).Distinct := by
  intro t u ht hu heq hne
  rw [set_vars, set_vars] at heq
  rw [set_vars] at hne
  by_cases hts : t = s
  · subst hts
    by_cases hut : u = t
    · exact hut.symm
    · rw [if_pos ⟨rfl, rfl⟩, if_neg fun hboth => hut hboth.1] at heq
      rw [if_pos ⟨rfl, rfl⟩] at hne
      rcases hnew with hnull | hnew
      · exact absurd hnull hne
      · exact absurd heq.symm (hnew u hu)
  · rw [if_neg fun hboth => hts hboth.1] at heq hne
    by_cases hus : u = s
    · subst hus
      rw [if_pos ⟨rfl, rfl⟩] at heq
      rcases hnew with hnull | hnew
      · exact absurd (heq.trans hnull) hne
      · exact absurd heq (hnew t ht)
    · rw [if_neg fun hboth => hus hboth.1] at heq
      exact h t u ht hu heq hne

theorem Distinct.setOther {a : Locals} (h : a.Distinct) {s : Tid} {var : Var}
    (hvar : var ≠ .tls bmkTlsRumplwp) (x : UInt32) : (a.set s var x).Distinct := by
  intro t u ht hu heq hne
  rw [set_vars, set_vars, if_neg fun hboth => hvar hboth.2.symm, if_neg fun hboth => hvar hboth.2.symm]
    at heq
  rw [set_vars, if_neg fun hboth => hvar hboth.2.symm] at hne
  exact h t u ht hu heq hne

/-- A new thread has no lwp. -/
theorem Distinct.sched {a : Locals} (h : a.Distinct) (hlife : LifeCycle a.sched) {e : Sched.Event}
    {s : Sched.World} (hstep : Sched.step a.sched e = some s) : Distinct ⟨s, a.born e⟩ := by
  have hold : ∀ t, onQueue s t → a.born e t (.tls bmkTlsRumplwp) ≠ 0 →
      onQueue a.sched t ∧ a.born e t (.tls bmkTlsRumplwp) = a.vars t (.tls bmkTlsRumplwp) := by
    intro t ht hne
    have hcreated : onQueue a.sched t → t < a.sched.created := fun ht =>
      (hlife.mem_iff_created t).mp (ht.imp_right Or.inl)
    rcases Sched.step_onQueue hlife hstep ht with ht | ⟨⟨thrflags, base, size, rfl⟩, rfl⟩
    · refine ⟨ht, ?_⟩
      cases e with
      | create thrflags base size => rw [born, Function.update_of_ne (Nat.ne_of_lt (hcreated ht))]
      | exit | join | sched | block | setwakeup | nanosleep | wake | pass => rfl
    · rw [born, Function.update_self] at hne
      exact absurd rfl hne
  intro t u ht hu heq hne
  dsimp only at ht hu heq hne
  obtain ⟨ht, hsame⟩ := hold t ht hne
  obtain ⟨hu, hsame'⟩ := hold u hu (heq ▸ hne)
  exact h t u ht hu (by rw [← hsame, heq, hsame']) (hsame ▸ hne)

end Locals

/-- The machine without memory that has the variables of a state. -/
def locals (w : World) : Locals := ⟨w.sched, read w⟩

theorem Agree.distinct {w : World} {a : Locals} (h : Agree w a) (ha : a.Distinct) :
    (locals w).Distinct := by
  have hrumplwp : (Var.tls bmkTlsRumplwp).Valid := show bmkTlsRumplwp < tlsCount by decide
  intro t u ht hu heq hne
  dsimp only [locals] at ht hu heq hne
  rw [h.vars t ht _ hrumplwp] at heq hne
  rw [h.vars u hu _ hrumplwp] at heq
  rw [← h.sched] at ht hu
  exact ha t u ht hu heq hne

/-- No step gives two threads one lwp. -/
theorem distinct_step {bmkMembase bmkMemsize initThread : UInt32} (hbase : bmkMembase.toNat % 4096 = 0)
    (fits : bmkMembase.toNat + bmkMemsize.toNat < 2 ^ 32)
    (hstatic : (payload (initThread, sizeofThread)).Apart ⟨bmkMembase.toNat, bmkMemsize.toNat⟩)
    {w w' : World} {e : Event} (h : Sound bmkMembase bmkMemsize initThread w)
    (hdistinct : (locals w).Distinct) (honce : LwpsOnce w e) (hstep : step w e = some w')
    (hfine : Fine w') :
    Sound bmkMembase bmkMemsize initThread w' ∧ (locals w').Distinct := by
  have hrumplwp : bmkTlsRumplwp < tlsCount := by decide
  have hrelated : Related bmkMembase bmkMemsize initThread w (locals w) := ⟨h, rfl, fun _ _ _ _ => rfl⟩
  cases hseen : e.asCall with
  | none =>
      have hrelated' := hrelated.hidden hbase fits hstatic hstep hfine hseen
      exact ⟨hrelated'.1, hrelated'.2.distinct hdistinct⟩
  | some c =>
      obtain ⟨a', hnext, hrelated'⟩ := hrelated.seen hbase fits hstatic hstep hfine hseen
      refine ⟨hrelated'.1, hrelated'.2.distinct ?_⟩
      obtain rfl : e = .call c := by
        cases e with
        | call c' => rw [Option.some.inj hseen]
        | client | field | push => cases hseen
      cases c with
      | sched e =>
          obtain ⟨s, hs, rfl⟩ := Option.map_eq_some_iff.mp hnext
          exact hdistinct.sched h.life hs
      | settls t which value =>
          rw [Locals.step] at hnext
          split at hnext
          · cases hnext
            exact hdistinct.setOther (fun heq => honce (Var.tls.inj heq)) value
          · cases hnext
      | gettls t which =>
          rw [Locals.step] at hnext
          split at hnext
          · cases hnext
            exact hdistinct
          · cases hnext
      | seterrno error =>
          cases hnext
          exact hdistinct.setOther Var.noConfusion error
      | curlwpop op l =>
          cases op with
          | create | destroy =>
              cases hnext
              exact hdistinct
          | set =>
              rw [Locals.step] at hnext
              split at hnext
              · cases hnext
                refine hdistinct.setLwp (honce.imp_right fun hfree t ht heq => hfree t ht.mem ?_)
                rw [bmkSchedGettls_eq hrumplwp]
                exact congrArg some heq
              · cases hnext
          | clear =>
              rw [Locals.step] at hnext
              split at hnext
              · cases hnext
                exact hdistinct.setLwp (Or.inl rfl)
              · cases hnext

/-- If the rump kernel gives an lwp to one thread at a time, then no two threads on the scheduler's queues
    have the same `curlwp`, after any run. -/
theorem curlwps_distinct {mem : ByteMem} {bmkMembase bmkMemsize initThread : UInt32}
    (hbase : bmkMembase.toNat % 4096 = 0) (fits : bmkMembase.toNat + bmkMemsize.toNat < 2 ^ 32)
    (hstatic : (payload (initThread, sizeofThread)).Apart ⟨bmkMembase.toNat, bmkMemsize.toNat⟩)
    (hzero : ∀ i < sizeofThread.toNat, mem (initThread.toNat + i) = 0) {events : List Event} {w : World}
    (honce : Meets step LwpsOnce (ThreadMemory.boot mem bmkMembase bmkMemsize initThread) events)
    (hrun : run step (ThreadMemory.boot mem bmkMembase bmkMemsize initThread) events = some w)
    (hfine : Fine w) :
    ∀ t u, onQueue w.sched t → onQueue w.sched u →
      bmkSchedGettls w t bmkTlsRumplwp = bmkSchedGettls w u bmkTlsRumplwp →
      bmkSchedGettls w t bmkTlsRumplwp ≠ some 0 →
      t = u := by
  have hrumplwp : bmkTlsRumplwp < tlsCount := by decide
  have hlast : Fine w → Sound bmkMembase bmkMemsize initThread w ∧ (locals w).Distinct := by
    refine run_invariant_of_meets (C := LwpsOnce)
      (I := fun w => Fine w → Sound bmkMembase bmkMemsize initThread w ∧ (locals w).Distinct) ?_ ?_ honce
        hrun
    · intro w e w' hinv honce hstep hfine
      obtain ⟨hsound, hdistinct⟩ := hinv (Fine.back hstep hfine)
      exact distinct_step hbase fits hstatic hsound hdistinct honce hstep hfine
    · intro _
      have hboot :
          Related bmkMembase bmkMemsize initThread
            (ThreadMemory.boot mem bmkMembase bmkMemsize initThread) .init :=
        related_boot hzero
      exact ⟨hboot.1, hboot.2.distinct fun _ _ _ _ _ hne => absurd rfl hne⟩
  intro t u ht hu heq hne
  rw [bmkSchedGettls_eq hrumplwp] at heq hne
  rw [bmkSchedGettls_eq hrumplwp] at heq
  exact (hlast hfine).2 t u ht hu (Option.some.inj heq) fun hnull => hne (congrArg some hnull)

/-- Two threads with an lwp each, and a third that has none yet. -/
theorem curlwps_distinct_two :
    ∃ w, run step (ThreadMemory.boot (fun _ => 0) 0x200000 0x1000000 0x180000)
        [.call (.curlwpop .set 0x11), .call (.sched (.create 0 none 0)),
          .call (.sched (.create 0 (some 0x9000) 4096)),
          .call (.sched (.block 2)), .call (.sched .sched), .call (.sched (.pass 0)),
          .call (.curlwpop .set 0x22)] = some w ∧
      bmkSchedGettls w 0 bmkTlsRumplwp = some 0x11 ∧ bmkSchedGettls w 1 bmkTlsRumplwp = some 0x22 ∧
      ∀ t u, onQueue w.sched t → onQueue w.sched u →
        bmkSchedGettls w t bmkTlsRumplwp = bmkSchedGettls w u bmkTlsRumplwp →
        bmkSchedGettls w t bmkTlsRumplwp ≠ some 0 →
        t = u := by
  have honce : Meets step LwpsOnce (ThreadMemory.boot (fun _ => 0) 0x200000 0x1000000 0x180000)
      [.call (.curlwpop .set 0x11), .call (.sched (.create 0 none 0)),
        .call (.sched (.create 0 (some 0x9000) 4096)),
        .call (.sched (.block 2)), .call (.sched .sched), .call (.sched (.pass 0)),
        .call (.curlwpop .set 0x22)] := by
    decide +kernel
  have hlast : (run step (ThreadMemory.boot (fun _ => 0) 0x200000 0x1000000 0x180000)
      [.call (.curlwpop .set 0x11), .call (.sched (.create 0 none 0)),
        .call (.sched (.create 0 (some 0x9000) 4096)),
        .call (.sched (.block 2)), .call (.sched .sched), .call (.sched (.pass 0)),
        .call (.curlwpop .set 0x22)]).map
        (fun w => ((bmkSchedGettls w 0 bmkTlsRumplwp, bmkSchedGettls w 1 bmkTlsRumplwp),
          w.stopped, w.memory.carried, w.sched.freedThreads)) =
      some ((some 0x11, some 0x22), false, false, []) := by
    decide +kernel
  obtain ⟨w, hrun, hleft⟩ := Option.map_eq_some_iff.mp hlast
  simp only [Prod.mk.injEq] at hleft
  obtain ⟨⟨hinit, hnext⟩, hgoing, hcarried, hfreed⟩ := hleft
  have hfine : Fine w := ⟨hgoing, hcarried, by simp [hfreed]⟩
  exact ⟨w, hrun, hinit, hnext,
    curlwps_distinct (by decide) (by decide) (by decide) (fun _ _ => rfl) honce hrun hfine⟩

end Tls

end RumpBaremetal
