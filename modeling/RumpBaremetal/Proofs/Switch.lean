/-
Module: RumpBaremetal.Proofs.Switch
Layer: Proofs
Purpose: A context switch is transparent.  The switch is cut at the point where the stack pointer has
  changed hands: the first part leaves the frame of the suspended thread behind, the second finds that of
  the thread it continues.  `Saved` says what the memory of a thread that is not running looks like; it
  depends on its own stack and control block only, so everything that happens elsewhere keeps it.
Trusted boundary: none (fully proved)
Main exports: Saved, Saved.frame, suspend_run, restore_suspended, restore_fresh, Inv, inv_step,
  switch_transparent
-/
import RumpBaremetal.Arch.Switch
import RumpBaremetal.Lib.StepSystem

namespace RumpBaremetal.Switch

open I386 ByteMem MachineCode StepSystem

/-! ### The pieces of the switch -/

variable {img : Image} {c : Cpu}

/-- The memory when the registers and the stack pointer of the suspended thread have been saved. -/
def savedRegs (c : Cpu) (prev : UInt32) : ByteMem :=
  ((((c.mem.store32 (c.regs .esp - 4).toNat (c.regs .ebp)).store32 (c.regs .esp - 4 - 4).toNat
    (c.regs .ebx)).store32 (c.regs .esp - 4 - 4 - 4).toNat (c.regs .esi)).store32
    (c.regs .esp - 4 - 4 - 4 - 4).toNat (c.regs .edi)).store32 prev.toNat (c.regs .esp - 4 - 4 - 4 - 4)

/-- The memory when the address to continue at has been saved as well. -/
def savedContext (c : Cpu) (prev resumed : UInt32) : ByteMem :=
  (savedRegs c prev).store32 (prev + 4).toNat resumed

/-- The first part of the switch, up to the `movl` behind the change of the stack pointer. -/
theorem suspend_run {prev next : UInt32} (hat : c.eip = img.addr switchAt)
    (hprev : c.word (c.regs .esp + 4) = prev) (hnext : c.word (c.regs .esp + 8) = next) :
    ∃ c', c'.eip = img.addr 15 ∧ c'.regs .edx = next ∧ c'.regs .esp = (savedRegs c prev).load32 next.toNat ∧
      c'.mem = savedContext c prev (img.addr resumedAt) ∧
      ∀ words, LeadsIn (img.program.next leaves) 9 (c, words) (c', words ++ [(c.regs .esp - 4).toNat,
        (c.regs .esp - 4 - 4).toNat, (c.regs .esp - 4 - 4 - 4).toNat,
        (c.regs .esp - 4 - 4 - 4 - 4).toNat]) := by
  obtain ⟨hleads, heip, -⟩ := img.program.leads_block leaves
    [.load 4 .esp .ecx, .load 8 .esp .edx, .pushReg .ebp, .pushReg .ebx, .pushReg .esi, .pushReg .edi,
      .store .esp 0 .ecx, .load 0 .edx .esp, .storeImm (img.addr resumedAt) 4 .ecx]
    ([.pushMem 4 .edx, .ret] ++ bmkCpuSchedSwitchResumed) (n := 9) rfl hat rfl rfl rfl
  refine ⟨_, heip, ?_, ?_, ?_, fun words => (hleads words).congr (congrArg (Prod.mk _) ?_)⟩
  · simp [block, executing, Instr.exec, Cpu.push, Cpu.setReg, Cpu.setWord, Cpu.word, ← hnext]
  · simp [block, executing, Instr.exec, Cpu.push, Cpu.setReg, Cpu.setWord, Cpu.word, savedRegs, ← hprev,
      ← hnext]
  · simp [block, executing, Instr.exec, Cpu.push, Cpu.setReg, Cpu.setWord, Cpu.word, savedRegs,
      savedContext, ← hprev]
  · simp [blockWords, Instr.exec, Instr.stackWords, Cpu.push, Cpu.setReg, Cpu.setWord]

/-- `pushl 4(%edx)` and `ret`: the processor goes on at the `btcb_ip` of the next thread. -/
theorem continue_run (hat : c.eip = img.addr 15) (words : List Nat) :
    LeadsIn (img.program.next leaves) 2 (c, words)
      (⟨c.regs, c.word (c.regs .edx + 4), c.mem.store32 (c.regs .esp - 4).toNat (c.word (c.regs .edx + 4))⟩,
        words ++ [(c.regs .esp - 4).toNat, (c.regs .esp - 4).toNat]) := by
  obtain ⟨hpush, heip, htext⟩ :=
    img.program.leads_block leaves [.pushMem 4 .edx] (.ret :: bmkCpuSchedSwitchResumed)
      (n := 1) rfl hat rfl rfl rfl
  have hret := (hpush words).trans (.one (Program.next_inner heip htext (show leaves 16 = false from rfl)))
  refine hret.congr (Prod.ext ?_ ?_)
  · simp [block, executing, tracing, Instr.exec, Cpu.push, Cpu.drop, Cpu.top, Cpu.word, Cpu.setReg,
      Cpu.setWord]
  · have hesp : (block executing img.program.addr 15 [.pushMem 4 .edx] c).regs .esp = c.regs .esp - 4 :=
      Cpu.push_esp c (c.word (c.regs .edx + 4))
    simp only [tracing, blockWords, Instr.stackWords, hesp, List.append_nil, List.append_assoc,
      List.cons_append,
      List.nil_append]

/-- From the label `1` to the end, with the stack pointer at `a`. -/
theorem resumed_run (img : Image) (hat : c.eip = img.addr resumedAt) {a : Nat}
    (hsp : (c.regs .esp).toNat = a) (ha : a + 20 < 2 ^ 32) :
    ∃ c', (∀ words fuel, loop (img.program.next leaves) (fuel + 5) (c, words) =
        some (c', words ++ [a, a + 4, a + 8, a + 12, a + 16])) ∧ c'.mem = c.mem ∧
      c'.eip = c.mem.load32 (a + 16) ∧ c'.regs .edi = c.mem.load32 a ∧ c'.regs .esi = c.mem.load32 (a + 4) ∧
      c'.regs .ebx = c.mem.load32 (a + 8) ∧ c'.regs .ebp = c.mem.load32 (a + 12) ∧
      c'.regs .esp = c.regs .esp + 4 + 4 + 4 + 4 + 4 := by
  have h1 := toNat_add_four hsp (by omega)
  have h2 := toNat_add_four h1 (by omega)
  have h3 := toNat_add_four h2 (by omega)
  have h4 := toNat_add_four h3 (by omega)
  refine ⟨_, fun words fuel =>
    (img.program.loop_block_exit leaves [.popReg .edi, .popReg .esi, .popReg .ebx, .popReg .ebp]
        .ret [] (n := 4) rfl hat rfl rfl rfl rfl words fuel).trans
      (congrArg (fun new => some (_, words ++ new)) ?_), ?_, ?_, ?_, ?_, ?_, ?_, ?_⟩
  · simp [block, executing, blockWords, Instr.exec, Instr.stackWords, Cpu.drop, Cpu.setReg, hsp, h1, h2, h3,
      h4]
  · simp [block, executing, Instr.exec, Cpu.drop, Cpu.setReg]
  all_goals simp [block, executing, Instr.exec, Cpu.drop, Cpu.top, Cpu.word, Cpu.setReg, hsp, h1, h2, h3,
    h4]

/-- The bouncer, with the stack pointer at `a`. -/
theorem bouncer_run (img : Image) (hat : c.eip = img.addr bouncerAt) {a : Nat}
    (hsp : (c.regs .esp).toNat = a) (hlow : 4 ≤ a) (hhigh : a + 8 < 2 ^ 32) :
    ∃ c', (∀ words fuel, loop (img.program.next leaves) (fuel + 6) (c, words) =
        some (c', words ++ [a, a + 4, a + 4, a, a - 4])) ∧
      c'.eip = c.mem.load32 (a + 4) ∧ (c'.regs .esp).toNat = a - 4 ∧
      c'.mem = ((c.mem.store32 (a + 4) 0).store32 a (c.mem.load32 a)).store32 (a - 4)
        (img.addr switchAt) := by
  have h1 := toNat_add_four hsp (by omega)
  have h2 := toNat_sub_four hsp hlow
  refine ⟨_, fun words fuel => (img.program.loop_block_exit leaves
    [.popReg .eax, .popReg .ebx, .pushImm 0, .xorReg .ebp .ebp, .pushReg .eax] (.callReg .ebx)
    (bmkCpuSchedSwitch (img.addr resumedAt) ++ bmkCpuSchedSwitchResumed) (n := 5) rfl hat rfl rfl rfl rfl
    words fuel).trans
      (congrArg (fun new => some (_, words ++ new)) ?_), ?_, ?_, ?_⟩
  · simp [block, executing, blockWords, Instr.exec, Instr.stackWords, Cpu.push, Cpu.drop, Cpu.setReg,
      Cpu.setWord, hsp, h1,
      h2]
  · simp [block, executing, Instr.exec, Cpu.push, Cpu.drop, Cpu.top, Cpu.word, Cpu.setReg, Cpu.setWord, hsp,
      h1, h2]
  · simp [block, executing, Instr.exec, Cpu.push, Cpu.drop, Cpu.top, Cpu.word, Cpu.setReg, Cpu.setWord, hsp,
      h1, h2]
  · simp [block, executing, Instr.exec, Cpu.push, Cpu.drop, Cpu.top, Cpu.word, Cpu.setReg, Cpu.setWord, hsp,
      h1, h2]
    rfl

/-! ### A thread that is not running -/

/-- The frame of a thread that has called `bmk_cpu_sched_switch`. -/
structure Suspended (img : Image) (mem : ByteMem) (p : Place) (call : Cpu) : Prop where
  low : p.stack.start + 20 ≤ (call.regs .esp).toNat
  high : (call.regs .esp).toNat + 12 ≤ p.stack.fin
  ebp : mem.load32 ((call.regs .esp).toNat - 4) = call.regs .ebp
  ebx : mem.load32 ((call.regs .esp).toNat - 8) = call.regs .ebx
  esi : mem.load32 ((call.regs .esp).toNat - 12) = call.regs .esi
  edi : mem.load32 ((call.regs .esp).toNat - 16) = call.regs .edi
  sp : mem.load32 p.tcb.toNat = call.regs .esp - 4 - 4 - 4 - 4
  ip : mem.load32 (p.tcb.toNat + 4) = img.addr resumedAt
  /-- What the thread has on its stack, the return address first, is as it left it. -/
  above : Agree ⟨(call.regs .esp).toNat, p.stack.fin - (call.regs .esp).toNat⟩ call.mem mem

/-- The stack of a thread that has never run. -/
structure Fresh (img : Image) (mem : ByteMem) (p : Place) (f data : UInt32) : Prop where
  len : 12 ≤ p.stack.len
  arg : mem.load32 (p.stack.fin - 8) = data
  entry : mem.load32 (p.stack.fin - 4) = f
  sp : (mem.load32 p.tcb.toNat).toNat = p.stack.fin - 8
  ip : mem.load32 (p.tcb.toNat + 4) = img.addr bouncerAt

def Saved (img : Image) (mem : ByteMem) (p : Place) : Status → Prop
  | .running => False
  | .fresh f data => Fresh img mem p f data
  | .suspended call => Suspended img mem p call

/-- It depends on the stack and the control block of the thread only. -/
theorem Saved.frame {mem mem' : ByteMem} {p : Place} {status : Status} (h : Saved img mem p status)
    (hstack : Agree p.stack mem mem') (htcb : Agree p.tcbExtent mem mem') : Saved img mem' p status := by
  have hsp : mem'.load32 p.tcb.toNat = mem.load32 p.tcb.toNat :=
    htcb.load32 (by simp [Extent.Inside, Extent.fin, Place.tcbExtent])
  have hip : mem'.load32 (p.tcb.toNat + 4) = mem.load32 (p.tcb.toNat + 4) :=
    htcb.load32 (by simp [Extent.Inside, Extent.fin, Place.tcbExtent])
  have hword : ∀ {a : Nat}, p.stack.start ≤ a → a + 4 ≤ p.stack.fin → mem'.load32 a = mem.load32 a :=
    fun hlo hhi => hstack.load32 ⟨hlo, hhi⟩
  cases status with
  | running => exact h
  | fresh f data =>
      obtain ⟨len, arg, entry, sp, ip⟩ := h
      have hfin : p.stack.fin = p.stack.start + p.stack.len := rfl
      refine ⟨len, ?_, ?_, ?_, ?_⟩
      · rw [hword (by omega) (by omega), arg]
      · rw [hword (by omega) (by omega), entry]
      · rw [hsp, sp]
      · rw [hip, ip]
  | suspended call =>
      obtain ⟨low, high, ebp, ebx, esi, edi, sp, ip, above⟩ := h
      refine ⟨low, high, ?_, ?_, ?_, ?_, ?_, ?_, ?_⟩
      · rw [hword (by omega) (by omega), ebp]
      · rw [hword (by omega) (by omega), ebx]
      · rw [hword (by omega) (by omega), esi]
      · rw [hword (by omega) (by omega), edi]
      · rw [hsp, sp]
      · rw [hip, ip]
      · refine above.trans (hstack.mono ⟨?_, ?_⟩)
        · show p.stack.start ≤ (call.regs .esp).toNat
          omega
        · show (call.regs .esp).toNat + (p.stack.fin - (call.regs .esp).toNat) ≤ p.stack.fin
          omega

theorem tcb_ip_toNat (p : Place) : (p.tcb + 4).toNat = p.tcb.toNat + 4 :=
  toNat_add_four rfl (by have := p.tcb_le; omega)

/-! ### Suspending -/

/-- The four words below the stack pointer. -/
theorem pushed_toNat (h : 16 ≤ (c.regs .esp).toNat) :
    (c.regs .esp - 4).toNat = (c.regs .esp).toNat - 4 ∧
    (c.regs .esp - 4 - 4).toNat = (c.regs .esp).toNat - 8 ∧
      (c.regs .esp - 4 - 4 - 4).toNat = (c.regs .esp).toNat - 12 ∧
      (c.regs .esp - 4 - 4 - 4 - 4).toNat = (c.regs .esp).toNat - 16 := by
  have h1 := toNat_sub_four (a := c.regs .esp) rfl (by omega)
  have h2 := toNat_sub_four h1 (by omega)
  have h3 := toNat_sub_four h2 (by omega)
  have h4 := toNat_sub_four h3 (by omega)
  exact ⟨h1, by omega, by omega, by omega⟩

section Suspend

variable {p : Place} (hlow : p.stack.start + 20 ≤ (c.regs .esp).toNat)
  (hhigh : (c.regs .esp).toNat + 12 ≤ p.stack.fin)

include hlow hhigh

/-- Saving writes into the stack and the control block of the suspended thread. -/
theorem savedRegs_agree {e : Extent} (hstack : p.stack.Apart e) (htcb : p.tcbExtent.Apart e) :
    Agree e c.mem (savedRegs c p.tcb) := by
  obtain ⟨h1, h2, h3, h4⟩ := pushed_toNat (c := c) (by omega)
  have hword : ∀ {a : Nat}, p.stack.start ≤ a → a + 4 ≤ p.stack.fin → Extent.Apart ⟨a, 4⟩ e :=
    fun hlo hhi => hstack.mono ⟨hlo, hhi⟩ ⟨Nat.le_refl _, Nat.le_refl _⟩
  have hsp : Extent.Apart ⟨p.tcb.toNat, 4⟩ e :=
    htcb.mono ⟨Nat.le_refl _, by simp [Extent.fin, Place.tcbExtent]⟩ ⟨Nat.le_refl _, Nat.le_refl _⟩
  unfold savedRegs
  rw [h1, h2, h3, h4]
  refine (((((Agree.refl e c.mem).store32 ?_ _).store32 ?_ _).store32 ?_ _).store32 ?_ _).store32 hsp _
  · exact hword (by omega) (by omega)
  · exact hword (by omega) (by omega)
  · exact hword (by omega) (by omega)
  · exact hword (by omega) (by omega)

theorem savedContext_agree {e : Extent} (hstack : p.stack.Apart e) (htcb : p.tcbExtent.Apart e)
    (resumed : UInt32) :
    Agree e c.mem (savedContext c p.tcb resumed) := by
  refine (savedRegs_agree hlow hhigh hstack htcb).store32 ?_ resumed
  rw [tcb_ip_toNat]
  exact htcb.mono ⟨by simp [Place.tcbExtent], by simp [Extent.fin, Place.tcbExtent]⟩ ⟨Nat.le_refl _,
    Nat.le_refl _⟩

/-- The frame of the suspended thread is in place. -/
theorem savedContext_suspended : Suspended img (savedContext c p.tcb (img.addr resumedAt)) p c := by
  obtain ⟨h1, h2, h3, h4⟩ := pushed_toNat (c := c) (by omega)
  have hapart := p.apart
  simp only [Extent.Apart, Extent.fin] at hapart hhigh
  unfold savedContext savedRegs
  rw [tcb_ip_toNat, h1, h2, h3, h4]
  refine ⟨hlow, hhigh, ?_, ?_, ?_, ?_, ?_, ?_, ?_⟩
  · rw [load32_store32_of_apart _ _ (by omega), load32_store32_of_apart _ _ (by omega),
      load32_store32_of_apart _ _ (by omega), load32_store32_of_apart _ _ (by omega),
      load32_store32_of_apart _ _ (by omega),
      load32_store32]
  · rw [load32_store32_of_apart _ _ (by omega), load32_store32_of_apart _ _ (by omega),
      load32_store32_of_apart _ _ (by omega), load32_store32_of_apart _ _ (by omega), load32_store32]
  · rw [load32_store32_of_apart _ _ (by omega), load32_store32_of_apart _ _ (by omega),
      load32_store32_of_apart _ _ (by omega), load32_store32]
  · rw [load32_store32_of_apart _ _ (by omega), load32_store32_of_apart _ _ (by omega), load32_store32]
  · rw [load32_store32_of_apart _ _ (by omega), load32_store32]
  · rw [load32_store32]
  · intro b hlo hhi
    simp only [Extent.fin] at hlo hhi
    rw [store32_of_apart _ _ (by omega), store32_of_apart _ _ (by omega), store32_of_apart _ _ (by omega),
      store32_of_apart _ _ (by omega), store32_of_apart _ _ (by omega), store32_of_apart _ _ (by omega)]

end Suspend

/-! ### Continuing -/

/-- What the second part of the switch does whatever thread it continues: it pushes and pops words of that
    thread's stack, and writes nowhere else. -/
structure Continues (img : Image) (c : Cpu) (p : Place) (c' : Cpu) (words : List Nat) : Prop where
  runs : ∀ before, loop (img.program.next leaves) 13 (c, before) = some (c', before ++ words)
  inside : ∀ a ∈ words, Extent.Inside ⟨a, 4⟩ p.stack
  spares : ∀ e : Extent, p.stack.Apart e → Agree e c.mem c'.mem

section Restore

variable {p : Place} (hat : c.eip = img.addr 15) (hedx : c.regs .edx = p.tcb)
  (hesp : c.regs .esp = c.mem.load32 p.tcb.toNat)

include hat hedx hesp

/-- A suspended call returns to its caller. -/
theorem restore_suspended {call : Cpu} (h : Suspended img c.mem p call) :
    ∃ c' words, Continues img c p c' words ∧ c'.eip = call.top ∧ c'.regs .ebp = call.regs .ebp ∧
      c'.regs .ebx = call.regs .ebx ∧ c'.regs .esi = call.regs .esi ∧ c'.regs .edi = call.regs .edi ∧
      c'.regs .esp = call.regs .esp + 4 ∧
      Agree ⟨(call.regs .esp).toNat, p.stack.fin - (call.regs .esp).toNat⟩ call.mem c'.mem := by
  obtain ⟨low, high, ebp, ebx, esi, edi, sp, ip, above⟩ := h
  have hlt := p.stack_lt
  obtain ⟨-, -, -, hpushed⟩ := pushed_toNat (c := call) (by omega)
  obtain ⟨a, ha⟩ : ∃ a, (call.regs .esp).toNat = a + 16 := ⟨(call.regs .esp).toNat - 16, by omega⟩
  rw [ha] at low high ebp ebx esi edi above hpushed
  rw [sp] at hesp
  have hsp : (c.regs .esp).toNat = a := by rw [hesp, hpushed, Nat.add_sub_cancel]
  have hpush := toNat_sub_four hsp (by omega)
  have hip : c.word (c.regs .edx + 4) = img.addr resumedAt := by rw [Cpu.word, hedx, tcb_ip_toNat, ip]
  -- the words of the frame lie above the one that is pushed for `ret`
  have hword : ∀ {b : Nat}, a ≤ b →
      (c.mem.store32 (a - 4) (img.addr resumedAt)).load32 b = c.mem.load32 b :=
    fun hb => load32_store32_of_apart _ _ (by omega)
  have hret : c.mem.load32 (a + 16) = call.top := by
    have hin : a + 16 + 4 ≤ a + 16 + (p.stack.fin - (a + 16)) := by omega
    rw [above.load32 ⟨Nat.le_refl _, hin⟩, Cpu.top, Cpu.word, ha]
  obtain ⟨c', hrun, hmem, heip, hedi, hesi, hebx, hebp, hesp'⟩ := resumed_run img
    (c := ⟨c.regs, img.addr resumedAt, c.mem.store32 (a - 4) (img.addr resumedAt)⟩) rfl hsp (by omega)
  have hcont : ∀ before, loop (img.program.next leaves) 13 (c, before) =
    some (c', before ++ [a - 4, a - 4] ++
      [a, a + 4, a + 8, a + 12, a + 16]) := fun before => by
    rw [← hrun _ 6, ← hpush, ← hip]
    exact continue_run hat before 11
  simp only [List.append_assoc] at hcont
  refine ⟨c', _, ⟨hcont, ?_, ?_⟩, ?_, ?_, ?_, ?_, ?_, ?_, ?_⟩
  · simp only [List.cons_append, List.nil_append, List.mem_cons, List.not_mem_nil, or_false, Extent.Inside,
      Extent.fin] at high ⊢
    rintro b (rfl | rfl | rfl | rfl | rfl | rfl | rfl) <;> omega
  · intro e hapart
    rw [hmem]
    refine (Agree.refl e c.mem).store32 (hapart.mono ⟨?_, ?_⟩ ⟨Nat.le_refl _, Nat.le_refl _⟩) _
    · show p.stack.start ≤ a - 4
      omega
    · show a - 4 + 4 ≤ p.stack.fin
      omega
  · rw [heip, hword (by omega), hret]
  · rw [hebp, hword (by omega)]
    exact ebp
  · rw [hebx, hword (by omega)]
    exact ebx
  · rw [hesi, hword (by omega)]
    exact esi
  · rw [hedi, hword (Nat.le_refl _)]
    exact edi
  · rw [hesp', hesp]
    simp only [UInt32.sub_add_cancel]
  · rw [hmem, ha]
    refine above.store32 (.inl ?_) _
    show a - 4 + 4 ≤ a + 16
    omega

/-- The first dispatch of a thread enters its function, with the argument where the function expects it. -/
theorem restore_fresh {f data : UInt32} (h : Fresh img c.mem p f data) :
    ∃ c' words, Continues img c p c' words ∧ c'.eip = f ∧ c'.word (c'.regs .esp + 4) = data ∧
      (c'.regs .esp).toNat + 12 = p.stack.fin := by
  obtain ⟨len, arg, entry, sp, ip⟩ := h
  have hlt := p.stack_lt
  have hfin : p.stack.fin = p.stack.start + p.stack.len := rfl
  obtain ⟨a, ha⟩ : ∃ a, p.stack.fin = a + 8 := ⟨p.stack.fin - 8, by omega⟩
  rw [ha] at arg entry sp hfin hlt
  have hsp : (c.regs .esp).toNat = a := by rw [hesp, sp, Nat.add_sub_cancel]
  have hpush := toNat_sub_four hsp (by omega)
  have hip : c.word (c.regs .edx + 4) = img.addr bouncerAt := by rw [Cpu.word, hedx, tcb_ip_toNat, ip]
  have hword : ∀ {b : Nat}, a ≤ b →
      (c.mem.store32 (a - 4) (img.addr bouncerAt)).load32 b = c.mem.load32 b :=
    fun hb => load32_store32_of_apart _ _ (by omega)
  obtain ⟨c', hrun, heip, hesp', hmem⟩ := bouncer_run img
    (c := ⟨c.regs, img.addr bouncerAt, c.mem.store32 (a - 4) (img.addr bouncerAt)⟩) rfl hsp (by omega)
      (by omega)
  have hcont : ∀ before, loop (img.program.next leaves) 13 (c, before) =
    some (c', before ++ [a - 4, a - 4] ++
      [a, a + 4, a + 4, a, a - 4]) := fun before => by
    rw [← hrun _ 5, ← hpush, ← hip]
    exact continue_run hat before 11
  simp only [List.append_assoc] at hcont
  refine ⟨c', _, ⟨hcont, ?_, ?_⟩, ?_, ?_, ?_⟩
  · simp only [List.cons_append, List.nil_append, List.mem_cons, List.not_mem_nil, or_false, Extent.Inside,
      Extent.fin] at hfin ha ⊢
    rintro b (rfl | rfl | rfl | rfl | rfl | rfl | rfl) <;> omega
  · intro e hapart
    have hin : ∀ {b : Nat}, p.stack.start ≤ b → b + 4 ≤ p.stack.fin → Extent.Apart ⟨b, 4⟩ e :=
      fun hlo hhi => hapart.mono ⟨hlo, hhi⟩ ⟨Nat.le_refl _, Nat.le_refl _⟩
    rw [hmem]
    refine ((((Agree.refl e c.mem).store32 ?_ _).store32 ?_ _).store32 ?_ _).store32 ?_ _
    · exact hin (by omega) (by omega)
    · exact hin (by omega) (by omega)
    · exact hin (by omega) (by omega)
    · exact hin (by omega) (by omega)
  · rw [heip, hword (by omega)]
    exact entry
  · have hfour := toNat_add_four hesp' (by omega)
    rw [Cpu.word, hfour, hmem]
    have hback : a - 4 + 4 = a := by omega
    rw [hback, load32_store32_of_apart _ _ (by omega), load32_store32, hword (Nat.le_refl _)]
    exact arg
  · omega

end Restore

/-! ### The invariant -/

variable {Tid : Type*} [DecidableEq Tid]

structure Inv (img : Image) (m : Machine Tid) : Prop where
  present : m.current ∈ m.threads
  apart : ∀ t ∈ m.threads, ∀ u ∈ m.threads, t ≠ u → (m.place t).Apart (m.place u)
  saved : ∀ t ∈ m.threads, t ≠ m.current → Saved img m.cpu.mem (m.place t) (m.status t)

theorem Place.Apart.symm {p q : Place} (h : p.Apart q) : q.Apart p :=
  ⟨⟨h.1.1.symm, h.2.1.symm⟩, h.1.2.symm, h.2.2.symm⟩

omit [DecidableEq Tid] in
theorem inv_start (img : Image) (cpu : Cpu) (init : Tid) (place : Place) :
    Inv img (Machine.start cpu init place) where
  present := List.mem_singleton.mpr rfl
  apart := by
    intro t ht u hu hne
    rw [List.mem_singleton.mp ht, List.mem_singleton.mp hu] at hne
    exact absurd rfl hne
  saved := by
    intro t ht hne
    exact absurd (List.mem_singleton.mp ht) hne

/-- The bytes that a thread writes by itself. -/
theorem writeBytes_agree {e : Extent} (writes : List (Nat × UInt8)) :
    ∀ mem : ByteMem, (∀ write ∈ writes, Extent.Apart ⟨write.1, 1⟩ e) →
      Agree e mem (writeBytes mem writes) := by
  induction writes with
  | nil => exact fun mem _ => Agree.refl e mem
  | cons write writes ih =>
      intro mem hapart
      have hfirst : Agree e mem (Function.update mem write.1 write.2) := by
        intro b hlo hhi
        have hne : b ≠ write.1 := by
          rintro rfl
          have hout := hapart write List.mem_cons_self
          simp only [Extent.Apart, Extent.fin] at hout hhi
          omega
        rw [Function.update_of_ne hne]
      exact hfirst.trans (ih _ fun other hother => hapart other (List.mem_cons_of_mem _ hother))

/-- The stack that `bmk_sched_create` lays out is the one that the bouncer takes apart. -/
theorem create_fresh (img : Image) (mem : ByteMem) {place : Place} (hlen : 12 ≤ place.stack.len)
    (f data : UInt32) :
    Fresh img (bmkSchedCreate img mem place f data) place f data ∧
      ∀ e : Extent, place.stack.Apart e → place.tcbExtent.Apart e →
        Agree e mem (bmkSchedCreate img mem place f data) := by
  have hlt := place.stack_lt
  have hfin : place.stack.fin = place.stack.start + place.stack.len := rfl
  have hapart : place.stack.fin ≤ place.tcb.toNat ∨ place.tcb.toNat + 8 ≤ place.stack.start := place.apart
  have htop : (UInt32.ofNat place.stack.fin).toNat = place.stack.fin := by
    rw [UInt32.toNat_ofNat']
    exact Nat.mod_eq_of_lt hlt
  have hf := toNat_sub_four htop (by omega)
  have harg := toNat_sub_four hf (by omega)
  have hback : place.stack.fin - 4 - 4 = place.stack.fin - 8 := by omega
  rw [hback] at harg
  simp only [bmkSchedCreate, bmkCpuSchedCreate, stackPush, tcb_ip_toNat, hf, harg]
  constructor
  · refine ⟨hlen, ?_, ?_, ?_, ?_⟩
    · rw [load32_store32_of_apart _ _ (by omega), load32_store32_of_apart _ _ (by omega), load32_store32]
    · rw [load32_store32_of_apart _ _ (by omega), load32_store32_of_apart _ _ (by omega),
        load32_store32_of_apart _ _ (by omega), load32_store32]
    · rw [load32_store32_of_apart _ _ (by omega), load32_store32, harg]
    · rw [load32_store32]
  · intro e hstack htcb
    have hword : ∀ {a : Nat}, place.stack.start ≤ a → a + 4 ≤ place.stack.fin → Extent.Apart ⟨a, 4⟩ e :=
      fun hlo hhi => hstack.mono ⟨hlo, hhi⟩ ⟨Nat.le_refl _, Nat.le_refl _⟩
    have htcbWord : ∀ {k : Nat}, k ≤ 4 → Extent.Apart ⟨place.tcb.toNat + k, 4⟩ e := by
      intro k hk
      refine htcb.mono ⟨?_, ?_⟩ ⟨Nat.le_refl _, Nat.le_refl _⟩
      · exact Nat.le_add_right _ _
      · show place.tcb.toNat + k + 4 ≤ place.tcb.toNat + 8
        omega
    refine ((((Agree.refl e mem).store32 ?_ _).store32 ?_ _).store32 ?_ _).store32 ?_ _
    · exact hword (by omega) (by omega)
    · exact hword (by omega) (by omega)
    · exact htcbWord (k := 0) (by omega)
    · exact htcbWord (k := 4) (by omega)

/-! ### A switch -/

theorem switch_inv {m : Machine Tid} {next : Tid} (h : enabled img m (.schedSwitch next) = true) :
    next ∈ m.threads ∧ next ≠ m.current ∧ m.cpu.eip = img.addr switchAt ∧
      m.cpu.word (m.cpu.regs .esp + 4) = (m.place m.current).tcb ∧
      m.cpu.word (m.cpu.regs .esp + 8) = (m.place next).tcb ∧
      (m.place m.current).stack.start + 20 ≤ (m.cpu.regs .esp).toNat ∧
      (m.cpu.regs .esp).toNat + 12 ≤ (m.place m.current).stack.fin := by
  simp only [enabled, Machine.callsSwitch, Machine.hasRoom, Bool.and_eq_true, decide_eq_true_eq] at h
  obtain ⟨⟨⟨hnext, hne⟩, ⟨heip, hprev⟩, harg⟩, hlow, hhigh⟩ := h
  exact ⟨hnext, hne, heip, hprev, harg, hlow, hhigh⟩

/-- How the thread that is switched to goes on. -/
structure GoesOn (m : Machine Tid) (next : Tid) (cpu : Cpu) : Prop where
  /-- The call of a suspended thread returns to its caller with the registers as they were at the call, and
      what was on its stack is still there. -/
  returns : ∀ call, m.status next = .suspended call → cpu.eip = call.top ∧ cpu.regs .ebp = call.regs .ebp ∧
    cpu.regs .ebx = call.regs .ebx ∧ cpu.regs .esi = call.regs .esi ∧ cpu.regs .edi = call.regs .edi ∧
    cpu.regs .esp = call.regs .esp + 4 ∧
    ∀ b, (call.regs .esp).toNat ≤ b → b < (m.place next).stack.fin → cpu.mem b = call.mem b
  /-- A fresh thread enters its function with its argument behind the return address. -/
  enters : ∀ f data, m.status next = .fresh f data → cpu.eip = f ∧ cpu.word (cpu.regs .esp + 4) = data
  /-- It is one or the other. -/
  notRunning : m.status next ≠ .running

omit [DecidableEq Tid] in
/-- The second part of the switch, for whatever thread is next. -/
theorem restore {m : Machine Tid} {next : Tid} (hat : c.eip = img.addr 15)
    (hedx : c.regs .edx = (m.place next).tcb) (hesp : c.regs .esp = c.mem.load32 (m.place next).tcb.toNat)
    (h : Saved img c.mem (m.place next) (m.status next)) :
    ∃ c' words, Continues img c (m.place next) c' words ∧ GoesOn m next c' := by
  cases hstatus : m.status next with
  | running =>
      rw [hstatus] at h
      exact h.elim
  | fresh f data =>
      rw [hstatus] at h
      obtain ⟨c', words, hcont, heip, hword, -⟩ := restore_fresh hat hedx hesp h
      refine ⟨c', words, hcont, ?_, ?_, ?_⟩
      · intro call heq
        rw [hstatus] at heq
        cases heq
      · intro f' data' heq
        rw [hstatus] at heq
        cases heq
        exact ⟨heip, hword⟩
      · intro heq
        rw [hstatus] at heq
        cases heq
  | suspended call =>
      rw [hstatus] at h
      have hhigh := h.high
      obtain ⟨c', words, hcont, heip, hebp, hebx, hesi, hedi, hesp', habove⟩ :=
        restore_suspended hat hedx hesp h
      refine ⟨c', words, hcont, ?_, ?_, ?_⟩
      · intro call' heq
        rw [hstatus] at heq
        cases heq
        refine ⟨heip, hebp, hebx, hesi, hedi, hesp', fun b hlo hhi => habove b hlo ?_⟩
        show b < (call.regs .esp).toNat + ((m.place next).stack.fin - (call.regs .esp).toNat)
        omega
      · intro f data heq
        rw [hstatus] at heq
        cases heq
      · intro heq
        rw [hstatus] at heq
        cases heq

/-- A whole switch: the next thread goes on, the frame of the suspended one is in place, and nothing else
    changes. -/
theorem switch_run {m : Machine Tid} {next : Tid} (h : Inv img m)
    (henabled : enabled img m (.schedSwitch next) = true) :
    ∃ cpu words, switchRun img m.cpu = some (cpu, words) ∧ GoesOn m next cpu ∧
      (∀ a ∈ words, Extent.Inside ⟨a, 4⟩ (m.place m.current).stack ∨
        Extent.Inside ⟨a, 4⟩ (m.place next).stack) ∧
      Suspended img cpu.mem (m.place m.current) m.cpu ∧
      ∀ e : Extent, (m.place m.current).stack.Apart e → (m.place m.current).tcbExtent.Apart e →
        (m.place next).stack.Apart e → Agree e m.cpu.mem cpu.mem := by
  obtain ⟨hnext, hne, heip, hprev, harg, hlow, hhigh⟩ := switch_inv henabled
  have hplaces := h.apart m.current h.present next hnext (Ne.symm hne)
  obtain ⟨c, hat, hedx, hesp, hmem, hrun⟩ := suspend_run heip hprev harg
  -- the memory of the next thread is untouched so far
  have hsaved : Saved img c.mem (m.place next) (m.status next) := by
    rw [hmem]
    exact (h.saved next hnext hne).frame (savedContext_agree hlow hhigh hplaces.1.1 hplaces.2.1 _)
      (savedContext_agree hlow hhigh hplaces.1.2 hplaces.2.2 _)
  have hword : Extent.Inside ⟨(m.place next).tcb.toNat, 4⟩ (m.place next).tcbExtent :=
    ⟨Nat.le_refl _, by simp [Extent.fin, Place.tcbExtent]⟩
  have hesp' : c.regs .esp = c.mem.load32 (m.place next).tcb.toNat := by
    rw [hesp, hmem, (savedRegs_agree hlow hhigh hplaces.1.2 hplaces.2.2).load32 hword,
      (savedContext_agree hlow hhigh hplaces.1.2 hplaces.2.2 _).load32 hword]
  obtain ⟨cpu, words, hcont, hgoes⟩ := restore hat hedx hesp' hsaved
  have hsusp : Saved img c.mem (m.place m.current) (.suspended m.cpu) := by
    rw [hmem]
    exact savedContext_suspended hlow hhigh
  refine ⟨cpu, _, (hrun [] 13).trans (hcont.runs _), hgoes, ?_, ?_, ?_⟩
  · intro a ha
    rcases List.mem_append.mp ha with hpushed | hrest
    · obtain ⟨h1, h2, h3, h4⟩ := pushed_toNat (c := m.cpu) (by omega)
      rw [h1, h2, h3, h4] at hpushed
      simp only [List.nil_append, List.mem_cons, List.not_mem_nil, or_false] at hpushed
      refine .inl ⟨?_, ?_⟩
      · show (m.place m.current).stack.start ≤ a
        omega
      · show a + 4 ≤ (m.place m.current).stack.fin
        omega
    · exact .inr (hcont.inside a hrest)
  · exact hsusp.frame (hcont.spares _ hplaces.1.1.symm) (hcont.spares _ hplaces.2.1.symm)
  · intro e hstack htcb hother
    have hfirst := savedContext_agree hlow hhigh hstack htcb (img.addr resumedAt)
    rw [← hmem] at hfirst
    exact hfirst.trans (hcont.spares e hother)

/-! ### Steps and runs -/

theorem mayWrite_inv {m : Machine Tid} {a : Nat} (h : m.mayWrite a = true) {t : Tid} (ht : t ∈ m.threads) :
    Extent.Apart ⟨a, 1⟩ (m.place t).tcbExtent ∧
    (t ≠ m.current → Extent.Apart ⟨a, 1⟩ (m.place t).stack) := by
  have hall := List.all_eq_true.mp h t ht
  simp only [Bool.and_eq_true, Bool.or_eq_true, decide_eq_true_eq] at hall
  exact ⟨hall.1, fun hne => hall.2.resolve_left hne⟩

theorem inv_step {m m' : Machine Tid} {e : Event Tid} (h : Inv img m) (hstep : step img m e = some m') :
    Inv img m' := by
  obtain ⟨henabled, heffect⟩ := step_inv hstep
  cases e with
  | own regs eip writes =>
      cases heffect
      refine ⟨h.present, h.apart, fun t ht hne => ?_⟩
      have hspare : ∀ write ∈ writes, Extent.Apart ⟨write.1, 1⟩ (m.place t).tcbExtent ∧
          Extent.Apart ⟨write.1, 1⟩ (m.place t).stack := by
        intro write hwrite
        have hmay := mayWrite_inv (List.all_eq_true.mp henabled write hwrite) ht
        exact ⟨hmay.1, hmay.2 hne⟩
      exact (h.saved t ht hne).frame (writeBytes_agree writes _ fun write hwrite => (hspare write hwrite).2)
        (writeBytes_agree writes _ fun write hwrite => (hspare write hwrite).1)
  | create t f data place =>
      cases heffect
      simp only [enabled, Bool.and_eq_true, decide_eq_true_eq, List.all_eq_true] at henabled
      obtain ⟨⟨hnew, hplace⟩, hlen⟩ := henabled
      obtain ⟨hfresh, hspares⟩ := create_fresh img m.cpu.mem hlen f data
      have hold : ∀ {u : Tid}, u ∈ m.threads → u ≠ t := by
        rintro u hu rfl
        exact hnew hu
      refine ⟨List.mem_cons_of_mem _ h.present, ?_, ?_⟩
      · intro u hu v hv huv
        rcases List.mem_cons.mp hu with rfl | hu'
        · rcases List.mem_cons.mp hv with rfl | hv'
          · exact absurd rfl huv
          · simpa [hold hv'] using hplace v hv'
        · rcases List.mem_cons.mp hv with rfl | hv'
          · simpa [hold hu'] using (hplace u hu').symm
          · simpa [hold hu', hold hv'] using h.apart u hu' v hv' huv
      · intro u hu hne
        rcases List.mem_cons.mp hu with rfl | hu'
        · simp only [Function.update_self]
          exact hfresh
        · have happ := hplace u hu'
          simp only [Function.update_of_ne (hold hu')]
          exact (h.saved u hu' hne).frame (hspares _ happ.1.1 happ.2.1) (hspares _ happ.1.2 happ.2.2)
  | schedSwitch next =>
      obtain ⟨cpu, words, hrun, -, -, hsusp, hspares⟩ := switch_run h henabled
      obtain ⟨hnext, hne, -⟩ := switch_inv henabled
      simp only [effect, hrun, Option.map_some, Option.some.injEq] at heffect
      subst heffect
      refine ⟨hnext, h.apart, fun t ht htn => ?_⟩
      simp only [Function.update_of_ne htn]
      by_cases htc : t = m.current
      · subst htc
        rw [Function.update_self]
        exact hsusp
      · have hprev := h.apart m.current h.present t ht (Ne.symm htc)
        have hother := h.apart next hnext t ht (Ne.symm htn)
        rw [Function.update_of_ne htc]
        exact (h.saved t ht htc).frame (hspares _ hprev.1.1 hprev.2.1 hother.1.1)
          (hspares _ hprev.1.2 hprev.2.2 hother.1.2)
  | reap t =>
      cases heffect
      simp only [enabled, Bool.and_eq_true, decide_eq_true_eq] at henabled
      refine ⟨?_, ?_, ?_⟩
      · exact List.mem_filter.mpr ⟨h.present, decide_eq_true (Ne.symm henabled.2)⟩
      · intro u hu v hv
        exact h.apart u (List.mem_filter.mp hu).1 v (List.mem_filter.mp hv).1
      · intro u hu
        exact h.saved u (List.mem_filter.mp hu).1

/-- In every run, each call of `bmk_cpu_sched_switch` comes to its end: the call of the thread it resumes
    returns as if nothing had happened, a fresh thread enters its function, and every word that is pushed or
    popped on the way belongs to the stack of one of the two threads. -/
theorem switch_transparent {cpu : Cpu} {init : Tid} {place : Place} {events : List (Event Tid)}
    {m : Machine Tid} (hrun : run (step img) (Machine.start cpu init place) events = some m) {next : Tid}
    (henabled : enabled img m (.schedSwitch next) = true) :
    ∃ m' words, step img m (.schedSwitch next) = some m' ∧ switchRun img m.cpu = some (m'.cpu, words) ∧
      GoesOn m next m'.cpu ∧
      ∀ a ∈ words, Extent.Inside ⟨a, 4⟩ (m.place m.current).stack ∨
        Extent.Inside ⟨a, 4⟩ (m.place next).stack := by
  have hinv : Inv img m :=
    run_invariant (fun _ _ _ h hstep => inv_step h hstep) (inv_start img cpu init place) hrun
  obtain ⟨cpu', words, hswitch, hgoes, hinside, -, -⟩ := switch_run hinv henabled
  have hstep : step img m (.schedSwitch next) = some { m with
      cpu := cpu'
      current := next
      status :=
        Function.update (Function.update m.status m.current (.suspended m.cpu)) next .running } := by
    rw [step, if_pos henabled, effect, hswitch]
    rfl
  exact ⟨_, words, hstep, hswitch, hgoes, hinside⟩

/-- One byte for each instruction, from one megabyte on. -/
def packedImage : Image where
  addr := fun i => UInt32.ofNat (0x100000 + i)
  distinct := by
    intro i j hi hj h
    have hnat := congrArg UInt32.toNat h
    simp only [UInt32.toNat_ofNat'] at hnat
    omega

def bootPlace : Place := ⟨⟨0x1000, 0x1000⟩, 0x3000, by decide, by decide, by decide⟩

def secondPlace : Place := ⟨⟨0x4000, 0x1000⟩, 0x6000, by decide, by decide, by decide⟩

/-- The code of `sched_switch` that calls the switch: the stack pointer at `sp`, the return address and the
    two arguments on the stack, and every other register holding `v`. -/
def callingSwitch (sp v ret prev next : UInt32) : Event Nat :=
  .own (Function.update (fun _ => v) .esp sp) (packedImage.addr switchAt)
    ((List.range 4).flatMap fun i =>
      [(sp.toNat + i, byte ret i), (sp.toNat + 4 + i, byte prev i), (sp.toNat + 8 + i, byte next i)])

/-- Thread 0 creates thread 1 and switches to it; thread 1 switches back. -/
theorem switch_transparent_back :
    ∃ m : Machine Nat, run (step packedImage) (Machine.start ⟨fun _ => 0, 0, fun _ => 0⟩ 0 bootPlace)
        [.create 1 0x200000 42 secondPlace, callingSwitch 0x1800 7 0x300000 0x3000 0x6000, .schedSwitch 1,
          callingSwitch 0x4f00 9 0x200010 0x6000 0x3000] = some m ∧
      enabled packedImage m (.schedSwitch 0) = true ∧
      (switchRun packedImage m.cpu).map (fun r => (r.1.eip, r.1.regs .ebp, r.1.regs .esp)) =
        some (0x300000, 7, 0x1804) ∧
      ∃ m' words, step packedImage m (.schedSwitch 0) = some m' ∧
        switchRun packedImage m.cpu = some (m'.cpu, words) ∧
        GoesOn m 0 m'.cpu ∧
        ∀ a ∈ words, Extent.Inside ⟨a, 4⟩ (m.place m.current).stack ∨
          Extent.Inside ⟨a, 4⟩ (m.place 0).stack := by
  have h : (run (step packedImage) (Machine.start ⟨fun _ => 0, 0, fun _ => 0⟩ 0 bootPlace)
      [.create 1 0x200000 42 secondPlace, callingSwitch 0x1800 7 0x300000 0x3000 0x6000, .schedSwitch 1,
        callingSwitch 0x4f00 9 0x200010 0x6000 0x3000]).map
        (fun m => (enabled packedImage m (.schedSwitch 0),
          (switchRun packedImage m.cpu).map fun r => (r.1.eip, r.1.regs .ebp, r.1.regs .esp))) =
      some (true, some (0x300000, 7, 0x1804)) := by decide +kernel
  obtain ⟨m, hrun, hends⟩ := Option.map_eq_some_iff.mp h
  obtain ⟨henabled, hback⟩ := Prod.mk.inj hends
  exact ⟨m, hrun, henabled, hback, switch_transparent hrun henabled⟩

end RumpBaremetal.Switch
