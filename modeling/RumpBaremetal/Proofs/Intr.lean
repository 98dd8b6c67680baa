/-
Module: RumpBaremetal.Proofs.Intr
Layer: Proofs
Purpose: Which lines are open after any sequence of registrations.  A registration writes the slave's mask
  as a whole, so that the line registered last is open and no other: all registered lines are open exactly
  if line 10 and line 11 have not both been registered.
Trusted boundary: none (fully proved)
Main exports: intrStep_cases, Routed, registered_open_iff
-/
import RumpBaremetal.Kernel.Intr
import RumpBaremetal.Lib.StepSystem

namespace RumpBaremetal

variable {Fun Arg : Type*} {s : Stubs} {w w' : IntrWorld Fun Arg} {e : IntrEvent Fun Arg}

/-! ### Port writes -/

theorem Board.lastWrite_outb (b : Board) (port port' : UInt16) (value : UInt8) :
    (b.outb port value).lastWrite port' = if port = port' then some value else b.lastWrite port' := by
  unfold Board.outb Board.lastWrite
  by_cases h : port = port'
  · simp [h]
  · simp [h]

theorem Stubs.line_eq {n : Nat} {routine : UInt32} (h : s.line n = some routine) : n = 10 ∨ n = 11 := by
  unfold Stubs.line at h
  split at h
  · exact .inl ‹_›
  · split at h
    · exact .inr ‹_›
    · cases h

/-! ### What a call can do -/

/-- A line with a routine gets its gate and the mask; every other line is refused. -/
theorem bmkCpuIntrInit_cases (s : Stubs) (b : Board) (intr : Int32) :
    (bmkCpuIntrInit s b intr = (eGeneric, b) ∧ intr ≠ 10 ∧ intr ≠ 11) ∨
    ∃ n routine, s.line n = some routine ∧ intr = Int32.ofNat n ∧
      bmkCpuIntrInit s b intr = (0, (b.setGate (32 + n) routine).outb pic2Data (slaveMask intr)) := by
  by_cases h10 : intr = 10
  · subst h10
    exact .inr ⟨10, s.bmkCpuIsr10, rfl, rfl, rfl⟩
  · by_cases h11 : intr = 11
    · subst h11
      exact .inr ⟨11, s.bmkCpuIsr11, rfl, rfl, rfl⟩
    · refine .inl ⟨?_, h10, h11⟩
      simp only [bmkCpuIntrInit, if_neg h10, if_neg h11, ite_self]

/-- A registration is refused, runs out of memory, or puts a handler at the head of a line's list. -/
theorem bmkIsrNetinit_cases (s : Stubs) (w : IntrWorld Fun Arg) (func : Fun) (arg : Arg) (intr : Int32)
    (found : Bool) :
    (bmkIsrNetinit s w func arg intr found = some (eGeneric, w) ∧ intr ≠ 10 ∧ intr ≠ 11) ∨
    (bmkIsrNetinit s w func arg intr found = none ∧ found = false) ∨
    ∃ n routine, s.line n = some routine ∧ intr = Int32.ofNat n ∧ found = true ∧
      bmkIsrNetinit s w func arg intr found = some (0, { w with
        board := (w.board.setGate (32 + n) routine).outb pic2Data (slaveMask (Int32.ofNat n))
        isrIh := Function.update w.isrIh n (⟨func, arg⟩ :: w.isrIh n) }) := by
  unfold bmkIsrNetinit
  split
  · rename_i hlarge
    refine .inl ⟨rfl, ?_, ?_⟩
    · rintro rfl
      revert hlarge
      decide
    · rintro rfl
      revert hlarge
      decide
  · cases found with
    | false => exact .inr (.inl ⟨rfl, rfl⟩)
    | true =>
        obtain ⟨heq, h10, h11⟩ | ⟨n, routine, hline, rfl, heq⟩ := bmkCpuIntrInit_cases s w.board intr
        · refine .inl ⟨?_, h10, h11⟩
          simp only [heq, if_true, if_pos (show eGeneric ≠ 0 by decide)]
        · refine .inr (.inr ⟨n, routine, hline, rfl, rfl, ?_⟩)
          have hindex : (Int32.ofNat n).toInt.toNat = n := by
            obtain rfl | rfl := Stubs.line_eq hline <;> decide
          simp only [heq, if_true, ne_eq, not_true_eq_false, if_false, hindex]

/-- A registration does not return if it gets as far as the allocation and there is no memory. -/
theorem bmkIsrNetinit_none_iff {s : Stubs} {w : IntrWorld Fun Arg} {func : Fun} {arg : Arg} {intr : Int32}
    {found : Bool} :
    bmkIsrNetinit s w func arg intr found = none ↔ ¬(intr.toUInt32 > 4 * 8 ∨ intr > bmkMaxintr) ∧
    found = false := by
  unfold bmkIsrNetinit
  split
  · rename_i hrange
    exact ⟨fun h => (by cases h), fun h => absurd hrange h.1⟩
  · rename_i hrange
    cases found with
    | false => exact ⟨fun _ => ⟨hrange, rfl⟩, fun _ => rfl⟩
    | true =>
        refine ⟨fun h => ?_, fun h => by cases h.2⟩
        simp only [if_true] at h
        split at h <;> cases h

/-- A call leaves the lists, the gates and the slave's mask alone, or registers a handler on a line that has
    a routine. -/
theorem intrStep_cases (h : intrStep s w e = some w') :
    (e.registers 10 = false ∧ e.registers 11 = false ∧ w'.isrIh = w.isrIh ∧ w'.board.idt = w.board.idt ∧
      w'.board.lastWrite pic2Data = w.board.lastWrite pic2Data ∧
      (w'.board.lastWrite pic1Data = w.board.lastWrite pic1Data ∨
        w'.board.lastWrite pic1Data = some (0xff &&& ~~~irqBit 2))) ∨
    ∃ n routine func arg, s.line n = some routine ∧ e = .netinit func arg (Int32.ofNat n) true ∧
      w' = { w with
        board := (w.board.setGate (32 + n) routine).outb pic2Data (slaveMask (Int32.ofNat n))
        isrIh := Function.update w.isrIh n (⟨func, arg⟩ :: w.isrIh n) } := by
  cases e with
  | nanohlt =>
      simp only [intrStep] at h
      split at h
      · cases h
      · cases h
        exact .inl ⟨rfl, rfl, rfl, rfl, rfl, .inr rfl⟩
  | netinit func arg intr found =>
      simp only [intrStep] at h
      split at h
      · cases h
      · obtain ⟨heq, h10, h11⟩ | ⟨heq, hfound⟩ | ⟨n, routine, hline, rfl, rfl, heq⟩ :=
          bmkIsrNetinit_cases s w func arg intr found
        · simp only [heq, Option.some.injEq] at h
          subst h
          exact .inl ⟨by simp [IntrEvent.registers, h10], by simp [IntrEvent.registers, h11], rfl, rfl, rfl,
            .inl rfl⟩
        · simp only [heq, Option.some.injEq] at h
          subst h hfound
          exact .inl ⟨rfl, rfl, rfl, rfl, rfl, .inl rfl⟩
        · simp only [heq, Option.some.injEq] at h
          exact .inr ⟨n, routine, func, arg, hline, rfl, h.symm⟩

/-! ### The invariant of the registrations -/

/-- Each line with a handler has its gate, the master lets the slave through, and the slave's mask is the
    one of the latest registration. -/
structure Routed (s : Stubs) (w : IntrWorld Fun Arg) : Prop where
  gates : ∀ n, w.isrIh n ≠ [] → ∃ routine, s.line n = some routine ∧ w.board.idt (32 + n) = fillgate routine
  master : w.board.lastWrite pic1Data = some (0xff &&& ~~~irqBit 2)
  slave : (∀ n, w.isrIh n = []) ∨
    ∃ n, w.isrIh n ≠ [] ∧ w.board.lastWrite pic2Data = some (slaveMask (Int32.ofNat n))

namespace Routed

theorem boot (h : intrBoot s = some w) : Routed s w := by
  have hw := Option.some.inj h
  subst hw
  exact ⟨fun n hn => absurd rfl hn, rfl, .inl fun _ => rfl⟩

theorem step (inv : Routed s w) (h : intrStep s w e = some w') : Routed s w' := by
  obtain ⟨-, -, hlists, hidt, hslave, hmaster⟩ | ⟨n, routine, func, arg, hline, -, rfl⟩ := intrStep_cases h
  · refine ⟨?_, ?_, ?_⟩
    · rw [hlists, hidt]
      exact inv.gates
    · rcases hmaster with hmaster | hmaster
      · rw [hmaster, inv.master]
      · exact hmaster
    · rw [hlists, hslave]
      exact inv.slave
  · refine ⟨?_, ?_, ?_⟩
    · intro m hm
      by_cases hmn : m = n
      · subst hmn
        exact ⟨routine, hline, Function.update_self ..⟩
      · obtain ⟨routine', hline', hgate⟩ := inv.gates m (by simpa [Function.update_of_ne hmn] using hm)
        refine ⟨routine', hline', ?_⟩
        show Function.update w.board.idt (32 + n) _ (32 + m) = _
        rw [Function.update_of_ne (by omega), hgate]
    · rw [Board.lastWrite_outb, if_neg (by decide)]
      exact inv.master
    · refine .inr ⟨n, ?_, ?_⟩
      · simp
      · rw [Board.lastWrite_outb, if_pos rfl]

theorem run {es : List (IntrEvent Fun Arg)} (hboot : intrBoot s = some w)
    (hrun : StepSystem.run (intrStep s) w es = some w') : Routed s w' :=
  StepSystem.run_invariant (fun _ _ _ inv h => inv.step h) (boot hboot) hrun

/-- The latest registration leaves one line open, so two lines with handlers are one too many. -/
theorem open_iff (inv : Routed s w) : RegisteredOpen s w ↔ ¬(w.isrIh 10 ≠ [] ∧ w.isrIh 11 ≠ []) := by
  constructor
  · rintro ⟨hopen, -⟩ ⟨h10, h11⟩
    obtain ⟨mask, hmask, hclear10⟩ := (hopen 10 h10).mask
    obtain ⟨mask', hmask', hclear11⟩ := (hopen 11 h11).mask
    obtain rfl : mask = mask' := Option.some.inj (hmask.symm.trans hmask')
    rcases inv.slave with hnone | ⟨n, hn, hlast⟩
    · exact h10 (hnone 10)
    · obtain rfl : mask = slaveMask (Int32.ofNat n) := Option.some.inj (hmask.symm.trans hlast)
      obtain ⟨routine, hline, -⟩ := inv.gates n hn
      obtain rfl | rfl := Stubs.line_eq hline
      · exact absurd hclear11 (by decide)
      · exact absurd hclear10 (by decide)
  · intro hone
    refine ⟨fun n hn => ⟨inv.gates n hn, ?_⟩, _, inv.master, by decide⟩
    rcases inv.slave with hnone | ⟨m, hm, hlast⟩
    · exact absurd (hnone n) hn
    · obtain ⟨_, hline, -⟩ := inv.gates n hn
      obtain ⟨_, hline', -⟩ := inv.gates m hm
      refine ⟨_, hlast, ?_⟩
      obtain rfl | rfl := Stubs.line_eq hline <;> obtain rfl | rfl := Stubs.line_eq hline'
      · decide
      · exact absurd ⟨hn, hm⟩ hone
      · exact absurd ⟨hm, hn⟩ hone
      · decide

end Routed

/-- A line has a handler exactly if it had one before or one of the calls registers one. -/
theorem registered_run {n : Nat} (hn : n = 10 ∨ n = 11) (es : List (IntrEvent Fun Arg)) :
    ∀ w w' : IntrWorld Fun Arg, StepSystem.run (intrStep s) w es = some w' →
      (w'.isrIh n ≠ [] ↔ w.isrIh n ≠ [] ∨ ∃ e ∈ es, e.registers (Int32.ofNat n) = true) := by
  induction es with
  | nil =>
      intro w w' h
      obtain rfl := Option.some.inj h
      simp
  | cons e es ih =>
      intro w w' h
      obtain ⟨w₁, hstep, hrest⟩ := StepSystem.run_cons_inv h
      rw [ih w₁ w' hrest, List.exists_mem_cons_iff, ← or_assoc]
      refine or_congr_left ?_
      obtain ⟨h10, h11, hlists, -⟩ | ⟨m, routine, func, arg, hline, rfl, rfl⟩ := intrStep_cases hstep
      · have hother : e.registers (Int32.ofNat n) = false := by
          rcases hn with rfl | rfl
          · exact h10
          · exact h11
        rw [hlists, hother]
        simp
      · by_cases hmn : n = m
        · subst hmn
          simp [IntrEvent.registers]
        · have hother : Int32.ofNat m ≠ Int32.ofNat n := by
            obtain rfl | rfl := Stubs.line_eq hline <;> rcases hn with rfl | rfl <;>
              first
              | exact absurd rfl hmn
              | decide
          simp [IntrEvent.registers, hother, Function.update_of_ne hmn]

/-- After `bmk_cpu_init` and any calls of `bmk_isr_netinit` and `bmk_cpu_nanohlt`, every line with a handler
    is open exactly if not both line 10 and line 11 have been registered. -/
theorem registered_open_iff (s : Stubs) (es : List (IntrEvent Fun Arg)) (w : IntrWorld Fun Arg)
    (h : (intrBoot s).bind (StepSystem.run (intrStep s) · es) = some w) :
    RegisteredOpen s w ↔ ¬((∃ e ∈ es, e.registers 10 = true) ∧ ∃ e ∈ es, e.registers 11 = true) := by
  obtain ⟨w₀, hboot, hrun⟩ := Option.bind_eq_some_iff.mp h
  have hempty : ∀ n, w₀.isrIh n = [] := by
    have hw := Option.some.inj hboot
    subst hw
    exact fun _ => rfl
  rw [(Routed.run hboot hrun).open_iff, registered_run (.inl rfl) es w₀ w hrun,
    registered_run (.inr rfl) es w₀ w hrun]
  simp [hempty]

/-- Two handlers on line 11, a refused line and a halt in between: line 11 is open. -/
theorem registered_open_one_line :
    ∃ w : IntrWorld Nat Nat,
      (intrBoot ⟨0x100000, 0x100010, 0x100020, 0x100030⟩).bind
        (StepSystem.run (intrStep ⟨0x100000, 0x100010, 0x100020, 0x100030⟩) ·
          [.netinit 1 7 11 true, .nanohlt, .netinit 2 8 3 true, .netinit 3 9 11 true]) = some w ∧
      w.isrIh 11 = [⟨3, 9⟩, ⟨1, 7⟩] ∧ RegisteredOpen ⟨0x100000, 0x100010, 0x100020, 0x100030⟩ w := by
  refine ⟨_, rfl, rfl, (registered_open_iff _
    [.netinit 1 7 11 true, .nanohlt, .netinit 2 8 3 true, .netinit 3 9 11 true] _ rfl).mpr ?_⟩
  decide

/-- Registering line 10 and then line 11 closes line 10, whose handler stays on its list. -/
theorem line10_closed_by_line11 :
    ∃ w : IntrWorld Nat Nat,
      (intrBoot ⟨0x100000, 0x100010, 0x100020, 0x100030⟩).bind
        (StepSystem.run (intrStep ⟨0x100000, 0x100010, 0x100020, 0x100030⟩) ·
          [.netinit 1 7 10 true, .netinit 2 8 11 true]) = some w ∧
      w.isrIh 10 = [⟨1, 7⟩] ∧ w.board.lastWrite pic2Data = some 0xf7 ∧
      ¬RegisteredOpen ⟨0x100000, 0x100010, 0x100020, 0x100030⟩ w := by
  refine ⟨_, rfl, rfl, rfl, ?_⟩
  rintro ⟨hopen, -⟩
  obtain ⟨mask, hmask, hclear⟩ := (hopen 10 (List.cons_ne_nil _ _)).mask
  obtain rfl : 0xf7 = mask := Option.some.inj hmask
  exact absurd hclear (by decide)

end RumpBaremetal
