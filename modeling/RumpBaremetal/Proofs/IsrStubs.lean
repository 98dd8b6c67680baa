/-
Module: RumpBaremetal.Proofs.IsrStubs
Layer: Proofs
Purpose: Which service routines the interrupted code does not notice.  The stubs of the lines 10 and 11 save
  what a C function may change, and restore it behind the call; the routine of the clock saves nothing and
  overwrites `%al` itself.
Trusted boundary: none (fully proved)
Main exports: intrstub_preserves, clock_reaches, isr_stubs_preserve_iff, Preserved.iret_continues
-/
import RumpBaremetal.Arch.IsrStubs

namespace RumpBaremetal.IsrStubs

open I386

variable {img : Image} {h : Handlers} {stack : Extent} {depth : Nat} {s : Core}

/-- The registers that a stub saves, in the order of the pushes. -/
def savedRegs : List Reg := [.eax, .ebx, .ecx, .edx]

section Stub

variable {p : Code} {f intnum : UInt32} {k e : Nat} {rest : List ServiceInstr}

/-- Up to the call: the registers and the argument are on the stack. -/
theorem stub_saves (htext : p.text.drop k = intrstub f intnum ++ rest) (hat : s.cpu.eip = p.addr k)
    (hesp : (s.cpu.regs .esp).toNat = e) (hroom : 20 ≤ e) :
    ∃ c, p.Reaches s c ∧ c.cpu.eip = p.addr (k + 6) ∧ (c.cpu.regs .esp).toNat = e - 20 ∧
      (∀ r, r ≠ .esp → c.cpu.regs r = s.cpu.regs r) ∧ (∀ b, e ≤ b → c.cpu.mem b = s.cpu.mem b) ∧
      WordsAt c.cpu.mem (e - 16) (savedRegs.reverse.map s.cpu.regs) := by
  have hcli := Code.reaches_next hat htext ServiceInstr.noConfusion
  have hatA : (ServiceInstr.cli.exec (p.addr (k + 1)) s).cpu.eip = p.addr (k + 1) := rfl
  obtain ⟨b, hpushes, hatB, htextB, hspB, hregs, habove, hwords⟩ :=
    reaches_pushes savedRegs (by decide) hatA (MachineCode.Listing.drop_succ htext) hesp
      (show 16 ≤ e by omega)
  have hpush := Code.reaches_next hatB htextB ServiceInstr.noConfusion
  have hspC : ((b.cpu.push intnum).regs .esp).toNat = e - 20 := by
    rw [Cpu.push_esp,
      toNat_sub_four hspB (by simp only [savedRegs, List.length_cons, List.length_nil]; omega)]
    rfl
  have hmemC : (b.cpu.push intnum).mem = b.cpu.mem.store32 (e - 20) intnum := by
    rw [← hspC, Cpu.push_esp]
    rfl
  refine ⟨_, (hcli.trans hpushes).trans hpush, ServiceInstr.exec_eip rfl _ b, hspC, fun r hne => ?_,
    fun a ha => ?_, ?_⟩
  · exact (Cpu.push_of_ne b.cpu intnum hne).trans (hregs r hne)
  · change (b.cpu.push intnum).mem a = _
    rw [hmemC, ByteMem.store32_of_apart _ _ (by omega), habove a ha]
    rfl
  · refine WordsAt.frame hwords fun a hlo hhi => ?_
    change (b.cpu.push intnum).mem a = _
    rw [hmemC, ByteMem.store32_of_apart _ _ (by omega)]

/-- Behind the call: the argument is dropped and the registers come back. -/
theorem stub_restores (value : Reg → UInt32) (htext : p.text.drop k = intrstub f intnum ++ rest)
    (hat : s.cpu.eip = p.addr (k + 7)) (hesp : (s.cpu.regs .esp).toNat = e) (hroom : e + 20 < 2 ^ 32)
    (hwords : WordsAt s.cpu.mem (e + 4) (savedRegs.reverse.map value)) :
    ∃ fuel c, p.toIret fuel s = some c ∧ (c.cpu.regs .esp).toNat = e + 20 ∧ c.cpu.mem = s.cpu.mem ∧
      ∀ r, r ≠ .esp → c.cpu.regs r = if r ∈ savedRegs then value r else s.cpu.regs r := by
  have htextA : p.text.drop (k + 7) = (intrstub f intnum ++ rest).drop 7 := by rw [← List.drop_drop, htext]
  have hadd := Code.reaches_next hat htextA ServiceInstr.noConfusion
  let a : Core := ServiceInstr.exec (p.addr (k + 7 + 1)) s (.addImm 4 .esp)
  have hspA : (a.cpu.regs .esp).toNat = e + 4 := by
    have hreg : a.cpu.regs .esp = s.cpu.regs .esp + 4 := Cpu.setReg_self s.cpu .esp _
    rw [hreg, toNat_add_four hesp (by omega)]
  obtain ⟨b, hpops, hatB, htextB, hspB, hmemB, hregsB⟩ :=
    reaches_pops value savedRegs.reverse (by decide) (s := a) rfl (MachineCode.Listing.drop_succ htextA)
      hspA
      (show e + 4 + 16 < 2 ^ 32 by omega) hwords
  have hsti := Code.reaches_next hatB htextB ServiceInstr.noConfusion
  obtain ⟨fuel, hrun⟩ :=
    Code.toIret_of_reaches ((hadd.trans hpops).trans hsti) rfl (MachineCode.Listing.drop_succ htextB)
  refine ⟨fuel, _, hrun, hspB, hmemB, fun r hne => (hregsB r hne).trans ?_⟩
  have hother : a.cpu.regs r = s.cpu.regs r := Cpu.setReg_of_ne s.cpu _ hne
  simp only [List.mem_reverse, hother]

/-- A stub, wherever it is in the text. -/
theorem intrstub_preserves {isr : Core → Core} (htext : p.text.drop k = intrstub f intnum ++ rest)
    (hcallee : p.callee f = some isr) (hisr : CFunction stack 1 depth isr) (hs : Interrupted stack depth s)
    (hat : s.cpu.eip = p.addr k) : ∃ fuel s', p.toIret fuel s = some s' ∧ Preserved stack s s' := by
  obtain ⟨hroom, hframe, hfin⟩ := hs
  obtain ⟨c, hsave, hatC, hspC, hregsC, haboveC, hwordsC⟩ := stub_saves htext hat rfl (by omega)
  have htextC : p.text.drop (k + 6) = (intrstub f intnum ++ rest).drop 6 := by rw [← List.drop_drop, htext]
  obtain ⟨hcall, hatD, -, hspD, hregsD, hmemD⟩ :=
    reaches_cfunction hatC htextC hcallee hisr hspC (by omega) (by omega)
  generalize isr _ = d at hcall hatD hspD hregsD hmemD
  -- the handler leaves the saved words alone
  have hwordsD :
      WordsAt d.cpu.mem ((s.cpu.regs .esp).toNat - 20 + 4) (savedRegs.reverse.map s.cpu.regs) := by
    rw [show (s.cpu.regs .esp).toNat - 20 + 4 = (s.cpu.regs .esp).toNat - 16 by omega]
    refine hwordsC.frame fun b hlo hhi => hmemD b (by omega) ?_
    change b < (s.cpu.regs .esp).toNat - 16 + 4 * 4 at hhi
    omega
  have hspD' : (d.cpu.regs .esp).toNat = (s.cpu.regs .esp).toNat - 20 := by rw [hspD, hspC]
  obtain ⟨fuel, s', hrun, hsp, hmem, hregs⟩ := stub_restores s.cpu.regs htext hatD hspD' (by omega) hwordsD
  obtain ⟨n, hn⟩ := hsave.trans hcall
  refine ⟨fuel + n, s', (hn fuel).trans hrun, fun r => ?_, fun b hlo hhi => ?_⟩
  · by_cases hesp : r = .esp
    · subst hesp
      rw [← UInt32.toNat_inj, hsp]
      omega
    · rw [hregs r hesp]
      split
      · rfl
      · rename_i hr
        have hsaved : r ∈ calleeSaved := by cases r <;> revert hesp hr <;> decide
        rw [hregsD r hsaved, hregsC r hesp]
  · rw [hmem, hmemD b (by omega) hhi, haboveC b hlo]

end Stub

/-- The routine of the clock arrives with what the handler leaves, except for `%al`. -/
theorem clock_reaches (hclock : CFunction stack 0 depth h.bmkIsrClock) (hs : Interrupted stack depth s)
    (hat : s.cpu.eip = img.addr clockAt) :
    ∃ fuel s', (img.code h).toIret fuel s = some s' ∧ StackKept stack s s' ∧
      s'.cpu.regs .eax = setLow ((h.bmkIsrClock (img.clockEntry s)).cpu.regs .eax) 0x20 ∧
      (∀ r, r ≠ .eax → s'.cpu.regs r = (h.bmkIsrClock (img.clockEntry s)).cpu.regs r) ∧
      s'.cpu.regs .esp = s.cpu.regs .esp ∧ ∀ r ∈ calleeSaved, s'.cpu.regs r = s.cpu.regs r := by
  obtain ⟨hroom, hframe, hfin⟩ := hs
  have htext :
    (img.code h).text.drop clockAt = bmkCpuIsrClock img.bmkIsrClock ++ (img.code h).text.drop 6 := rfl
  have hcallee : (img.code h).callee img.bmkIsrClock = some h.bmkIsrClock := by
    simp only [Image.code, Image.callee, if_neg img.handlers_ne, if_true]
  have hcli := Code.reaches_next (p := img.code h) hat htext ServiceInstr.noConfusion
  have hatA : (ServiceInstr.cli.exec (img.addr 1) s).cpu.eip = (img.code h).addr 1 := rfl
  obtain ⟨hcall, hatB, htextB, hspB, hregsB, hmemB⟩ :=
    reaches_cfunction (s := ServiceInstr.cli.exec (img.addr 1) s) hatA (MachineCode.Listing.drop_succ htext)
      hcallee hclock rfl
      (show stack.start + depth + 4 ≤ (s.cpu.regs .esp).toNat by omega)
      (show (s.cpu.regs .esp).toNat + 4 * 0 ≤ stack.fin by omega)
  change (img.code h).Reaches _ (h.bmkIsrClock (img.clockEntry s)) at hcall
  change (h.bmkIsrClock (img.clockEntry s)).cpu.eip = _ at hatB
  change (h.bmkIsrClock (img.clockEntry s)).cpu.regs .esp = s.cpu.regs .esp at hspB
  change ∀ r ∈ calleeSaved, (h.bmkIsrClock (img.clockEntry s)).cpu.regs r = s.cpu.regs r at hregsB
  change ∀ b, _ → _ → (h.bmkIsrClock (img.clockEntry s)).cpu.mem b = s.cpu.mem b at hmemB
  generalize h.bmkIsrClock (img.clockEntry s) = t at *
  obtain ⟨hack, hatC, htextC⟩ := (img.code h).reaches_block [.movAl 0x20, .outAl 0x20, .sti] hatB htextB rfl
  obtain ⟨fuel, hrun⟩ := Code.toIret_of_reaches ((hcli.trans hcall).trans hack) hatC htextC
  have hother : ∀ r, r ≠ .eax → (t.cpu.setReg .eax (setLow (t.cpu.regs .eax) 0x20)).regs r = t.cpu.regs r :=
    fun r hne => Cpu.setReg_of_ne t.cpu _ hne
  refine ⟨fuel, _, hrun, fun b hlo hhi => hmemB b hlo hhi, Cpu.setReg_self t.cpu .eax _, hother, ?_,
    fun r hr => ?_⟩
  · exact (hother .esp (by decide)).trans hspB
  · refine (hother r ?_).trans (hregsB r hr)
    rintro rfl
    exact absurd hr (by decide)

/-- For every state at an interrupt and all C functions that keep the convention: the stubs of the lines 10
    and 11 arrive at their `iret` with everything as it was.  The routine of the clock arrives as well, with
    the stack as it was; it preserves the registers exactly if the C function happens to give back those
    that it may change, and `%al` was `0x20`. -/
theorem isr_stubs_preserve_iff (img : Image) (hisr : CFunction stack 1 depth h.bmkIsr)
    (hclock : CFunction stack 0 depth h.bmkIsrClock) (hs : Interrupted stack depth s) :
    (s.cpu.eip = img.addr isr10At ∨ s.cpu.eip = img.addr isr11At →
      ∃ fuel s', (img.code h).toIret fuel s = some s' ∧ Preserved stack s s') ∧
    (s.cpu.eip = img.addr clockAt →
      ∃ fuel s', (img.code h).toIret fuel s = some s' ∧ StackKept stack s s' ∧
        (Preserved stack s s' ↔
          (h.bmkIsrClock (img.clockEntry s)).cpu.regs .ecx = s.cpu.regs .ecx ∧
          (h.bmkIsrClock (img.clockEntry s)).cpu.regs .edx = s.cpu.regs .edx ∧
          ((h.bmkIsrClock (img.clockEntry s)).cpu.regs .eax).toNat / 256 = (s.cpu.regs .eax).toNat / 256 ∧
          s.cpu.al = 0x20)) := by
  have hcallee : (img.code h).callee img.bmkIsr = some h.bmkIsr := by
    simp only [Image.code, Image.callee, if_true]
  refine ⟨fun hat => ?_, fun hat => ?_⟩
  · rcases hat with hat | hat
    · have htext :
        (img.code h).text.drop isr10At = intrstub img.bmkIsr 10 ++ (img.code h).text.drop isr11At := rfl
      exact intrstub_preserves htext hcallee hisr hs hat
    · have htext : (img.code h).text.drop isr11At = intrstub img.bmkIsr 11 ++ [] := rfl
      exact intrstub_preserves htext hcallee hisr hs hat
  · obtain ⟨fuel, s', hrun, hkept, heax, hother, hesp, hsaved⟩ := clock_reaches hclock hs hat
    refine ⟨fuel, s', hrun, hkept, ?_⟩
    have hal : s.cpu.al = 0x20 ↔ (s.cpu.regs .eax).toNat % 256 = (0x20 : UInt8).toNat := by
      rw [← UInt8.toNat_inj, Cpu.al, UInt32.toNat_toUInt8]
    rw [hal, ← setLow_eq_iff, ← heax, ← hother .ecx (by decide), ← hother .edx (by decide)]
    refine ⟨fun hp => ⟨hp.regs .ecx, hp.regs .edx, hp.regs .eax⟩, fun hregs => ⟨fun r => ?_, hkept⟩⟩
    cases r with
    | eax => exact hregs.2.2
    | ecx => exact hregs.1
    | edx => exact hregs.2.1
    | esp => exact hesp
    | _ => exact hsaved _ (by decide)

/-- An interrupt that was served like this is over behind the `iret`: the interrupted code goes on where it
    was. -/
theorem Preserved.iret_continues {s' : Core} (hs : Interrupted stack depth s) (hp : Preserved stack s s')
    (next : UInt32) :
    let t := ServiceInstr.exec next s' .iret
    t.cpu.eip = s.cpu.top ∧ t.cpu.regs .esp = s.cpu.regs .esp + 12 ∧ ∀ r, r ≠ .esp →
      t.cpu.regs r = s.cpu.regs r := by
  have hframe := hs.frame
  refine ⟨?_, ?_, fun r hne => (Cpu.setReg_of_ne s'.cpu _ hne).trans (hp.regs r)⟩
  · change s'.cpu.mem.load32 (s'.cpu.regs .esp).toNat = s.cpu.mem.load32 (s.cpu.regs .esp).toNat
    rw [hp.regs .esp]
    exact ByteMem.load32_congr fun b hlo hhi => hp.kept b hlo (by omega)
  · exact (Cpu.setReg_self s'.cpu .esp _).trans (congrArg (fun a => a + 12) (hp.regs .esp))

/-! ### A handler that only returns -/

/-- `ret` -/
def returnsOnly (s : Core) : Core := { s with cpu := { s.cpu.drop with eip := s.cpu.top } }

theorem returnsOnly_cfunction (stack : Extent) (args depth : Nat) :
    CFunction stack args depth returnsOnly where
  returns := by
    intro s _ _
    refine ⟨rfl, Cpu.drop_esp s.cpu, fun r hr => Function.update_of_ne ?_ _ _, fun _ _ _ => rfl⟩
    rintro rfl
    exact absurd hr (by decide)

def sampleImage : Image where
  addr := fun i => UInt32.ofNat (0x100000 + i)
  bmkIsr := 0x110000
  bmkIsrClock := 0x120000
  distinct := by
    intro i j hi hj heq
    have hnat := congrArg UInt32.toNat heq
    simp only [UInt32.toNat_ofNat'] at hnat
    omega
  outside := by decide
  handlers_ne := by decide

/-- The interrupted code has zeros in its registers and in memory, and its stack is the page at `0x8000`. -/
def sampleCore (eip : UInt32) : Core :=
  ⟨⟨fun r => if r = .esp then 0x8f00 else 0, eip, fun _ => 0⟩, true, []⟩

theorem sampleCore_interrupted (eip : UInt32) : Interrupted ⟨0x8000, 0x1000⟩ 64 (sampleCore eip) :=
  ⟨show 0x8000 + 64 + 24 ≤ (0x8f00 : UInt32).toNat by decide, show (0x8f00 :
    UInt32).toNat + 12 ≤ 0x9000 by decide,
    by decide⟩

/-- An interrupt on line 11. -/
theorem isr_stubs_preserve_iff_line11 :
    ∃ fuel s', (sampleImage.code ⟨returnsOnly, returnsOnly⟩).toIret fuel
      (sampleCore (sampleImage.addr isr11At)) = some s' ∧
      Preserved ⟨0x8000, 0x1000⟩ (sampleCore (sampleImage.addr isr11At)) s' :=
  (isr_stubs_preserve_iff sampleImage (returnsOnly_cfunction _ 1 _) (returnsOnly_cfunction _ 0 _)
    (sampleCore_interrupted _)).1 (.inr rfl)

/-- A tick of the clock leaves `0x20` in a register that was zero. -/
theorem isr_clock_overwrites_eax :
    CFunction ⟨0x8000, 0x1000⟩ 0 64 returnsOnly ∧
      Interrupted ⟨0x8000, 0x1000⟩ 64 (sampleCore (sampleImage.addr clockAt)) ∧
      ∃ s', (sampleImage.code ⟨returnsOnly, returnsOnly⟩).toIret 7 (sampleCore (sampleImage.addr clockAt)) =
        some s' ∧
        (sampleCore (sampleImage.addr clockAt)).cpu.regs .eax = 0 ∧ s'.cpu.regs .eax = 0x20 :=
  ⟨returnsOnly_cfunction _ _ _, sampleCore_interrupted _, _, rfl, rfl, by decide +kernel⟩

end RumpBaremetal.IsrStubs
