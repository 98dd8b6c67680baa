/-
Module: RumpBaremetal.Lib.Interrupt
Layer: Lib
Purpose: Interrupt service routines on a 32-bit x86: the instructions they add to those of the processor,
  runs up to the `iret`, calls of C functions that keep the calling convention, and registers that are saved
  on the stack and restored.  A C function is known by its address only; what it does is any change of the
  machine.
Trusted boundary: human-reviewed spec
Main exports: Core, ServiceInstr, ServiceInstr.exec, serving, Code, Code.next, Code.toIret, Code.Reaches,
  Code.reaches_next, Code.reaches_block, CFunction, WordsAt, reaches_pushes, reaches_pops, reaches_cfunction
-/
import RumpBaremetal.Lib.I386

namespace I386

/-- The processor, whether it takes interrupts, and the bytes written to ports with the latest first. -/
structure Core where
  cpu : Cpu
  interrupts : Bool
  ports : List (UInt8 × UInt8)

/-- `%al`. -/
def Cpu.al (c : Cpu) : UInt8 := (c.regs .eax).toUInt8

/-- A word with its least significant byte replaced. -/
def setLow (x : UInt32) (v : UInt8) : UInt32 := UInt32.ofNat (x.toNat / 256 * 256 + v.toNat)

theorem setLow_eq_iff {x y : UInt32} {v : UInt8} :
    setLow y v = x ↔ y.toNat / 256 = x.toNat / 256 ∧ x.toNat % 256 = v.toNat := by
  have hv := v.toNat_lt
  have hy := y.toNat_lt
  have hsum : y.toNat / 256 * 256 + v.toNat < 2 ^ 32 := by omega
  rw [setLow, ← UInt32.toNat_inj, UInt32.toNat_ofNat', Nat.mod_eq_of_lt hsum]
  omega

inductive ServiceInstr where
  | plain (ins : Instr)
  | cli
  | sti
  /-- `addl $v, r` -/
  | addImm (v : UInt32) (r : Reg)
  /-- `movb $v, %al` -/
  | movAl (v : UInt8)
  /-- `outb %al, $port` -/
  | outAl (port : UInt8)
  /-- `call f` -/
  | call (f : UInt32)
  | iret
deriving DecidableEq, Repr

namespace ServiceInstr

/-- What an instruction does when the one behind it is at `next`.  `iret` takes the address to continue at,
    the code segment and the flags from the stack. -/
def exec (next : UInt32) (s : Core) : ServiceInstr → Core
  | .plain ins => { s with cpu := ins.exec next s.cpu }
  | .cli => { s with cpu := { s.cpu with eip := next }, interrupts := false }
  | .sti => { s with cpu := { s.cpu with eip := next }, interrupts := true }
  | .addImm v r => { s with cpu := { s.cpu.setReg r (s.cpu.regs r + v) with eip := next } }
  | .movAl v => { s with cpu := { s.cpu.setReg .eax (setLow (s.cpu.regs .eax) v) with eip := next } }
  | .outAl port => { s with cpu := { s.cpu with eip := next }, ports := (port, s.cpu.al) :: s.ports }
  | .call f => { s with cpu := { s.cpu.push next with eip := f } }
  | .iret =>
      { s with
        cpu := { s.cpu.setReg .esp (s.cpu.regs .esp + 12) with eip := s.cpu.top }
        interrupts := (s.cpu.word (s.cpu.regs .esp + 8)).toBitVec.getLsbD 9 }

/-- The instruction behind it is executed next. -/
def sequential : ServiceInstr → Bool
  | .plain ins => ins.sequential
  | .call _ | .iret => false
  | _ => true

theorem exec_eip {ins : ServiceInstr} (h : ins.sequential = true) (next : UInt32) (s : Core) :
    (ins.exec next s).cpu.eip = next := by
  cases ins with
  | plain ins => exact Instr.exec_eip h next s.cpu
  | call f => cases h
  | iret => cases h
  | _ => rfl

theorem ne_iret {ins : ServiceInstr} (h : ins.sequential = true) : ins ≠ .iret := by
  rintro rfl
  cases h

end ServiceInstr

/-! ### Code and its runs -/

open MachineCode

def serving : Processor ServiceInstr Core where
  exec := ServiceInstr.exec
  eip s := s.cpu.eip
  sequential := ServiceInstr.sequential
  exec_eip := ServiceInstr.exec_eip

/-- A listing, and the C functions outside it. -/
structure Code extends Listing ServiceInstr where
  callee : UInt32 → Option (Core → Core)
  outside : ∀ f, (callee f).isSome = true → ∀ i < text.length, addr i ≠ f

namespace Code

variable {p : Code} {s s' s'' : Core} {i : Nat} {ins : ServiceInstr} {rest : List ServiceInstr}

/-- Execute one instruction, or one C function in one piece.  An `iret` ends the run. -/
def next (p : Code) (s : Core) : Option (Core ⊕ Core) :=
  match p.fetch s.cpu.eip with
  | some (i, ins) => if ins = .iret then some (.inr s) else some (.inl (ins.exec (p.addr (i + 1)) s))
  | none => (p.callee s.cpu.eip).map fun f => .inl (f s)

/-- The state in which a run arrives at an `iret`, after `fuel` instructions and C functions at most. -/
def toIret (p : Code) (fuel : Nat) (s : Core) : Option Core := loop p.next fuel s

def Reaches (p : Code) (s s' : Core) : Prop := ∃ n, LeadsIn p.next n s s'

theorem Reaches.trans (h : p.Reaches s s') (h' : p.Reaches s' s'') : p.Reaches s s'' := by
  obtain ⟨n, hn⟩ := h
  obtain ⟨m, hm⟩ := h'
  exact ⟨m + n, hn.trans hm⟩

theorem next_inner (hat : s.cpu.eip = p.addr i) (htext : p.text.drop i = ins :: rest) (hne : ins ≠ .iret) :
    p.next s = some (.inl (ins.exec (p.addr (i + 1)) s)) := by
  simp only [next, hat, Listing.fetch_addr htext, if_neg hne]

theorem reaches_next (hat : s.cpu.eip = p.addr i) (htext : p.text.drop i = ins :: rest)
    (hne : ins ≠ .iret) :
    p.Reaches s (ins.exec (p.addr (i + 1)) s) := ⟨1, .one (next_inner hat htext hne)⟩

theorem reaches_callee {f : Core → Core} (hf : p.callee s.cpu.eip = some f) : p.Reaches s (f s) := by
  have hout : p.fetch s.cpu.eip = none := Listing.fetch_outside (p.outside _ (by rw [hf]; rfl))
  exact ⟨1, .one (by simp only [next, hout, hf, Option.map_some])⟩

/-- The call of a C function and the function. -/
theorem reaches_call {f : UInt32} {g : Core → Core} (hat : s.cpu.eip = p.addr i)
    (htext : p.text.drop i = .call f :: rest) (hg : p.callee f = some g) :
    p.Reaches s (g (ServiceInstr.exec (p.addr (i + 1)) s (.call f))) :=
  (reaches_next hat htext ServiceInstr.noConfusion).trans (reaches_callee hg)

/-- A run that has come to an `iret`. -/
theorem toIret_of_reaches (h : p.Reaches s s') (hat : s'.cpu.eip = p.addr i)
    (htext : p.text.drop i = .iret :: rest) :
    ∃ fuel, p.toIret fuel s = some s' := by
  obtain ⟨n, hn⟩ := h
  have hend : p.next s' = some (.inr s') := by simp only [next, hat, Listing.fetch_addr htext, if_true]
  exact ⟨0 + 1 + n, (hn (0 + 1)).trans (loop_end hend 0)⟩

/-- The rule for straight-line code. -/
theorem reaches_block (p : Code) (code : List ServiceInstr) (hat : s.cpu.eip = p.addr i)
    (htext : p.text.drop i = code ++ rest) (hseq : code.all ServiceInstr.sequential = true) :
    p.Reaches s (block serving p.addr i code s) ∧
    (block serving p.addr i code s).cpu.eip = p.addr (i + code.length) ∧
      p.text.drop (i + code.length) = rest := by
  obtain ⟨hleads, heip, hdrop⟩ := leadsIn_block serving p.toListing code hat htext hseq
    fun k ins rest s _ _ hk hins hat' => next_inner hat' hk (ServiceInstr.ne_iret hins)
  exact ⟨⟨_, hleads⟩, heip, hdrop⟩

end Code

/-! ### The calling convention -/

/-- The registers that a C function gives back as it found them. -/
def calleeSaved : List Reg := [.ebx, .esi, .edi, .ebp]

/-- The function keeps the convention on this stack: entered with the return address on top, `args` words of
    arguments above it and `depth` bytes of room below, it returns, and leaves what is above its arguments
    and the saved registers alone. -/
structure CFunction (stack : Extent) (args depth : Nat) (f : Core → Core) : Prop where
  returns : ∀ s : Core, stack.start + depth ≤ (s.cpu.regs .esp).toNat →
    (s.cpu.regs .esp).toNat + 4 + 4 * args ≤ stack.fin →
      (f s).cpu.eip = s.cpu.top ∧ (f s).cpu.regs .esp = s.cpu.regs .esp + 4 ∧
      (∀ r ∈ calleeSaved, (f s).cpu.regs r = s.cpu.regs r) ∧
      ∀ b, (s.cpu.regs .esp).toNat + 4 + 4 * args ≤ b → b < stack.fin → (f s).cpu.mem b = s.cpu.mem b

/-! ### Registers on the stack -/

/-- The words from `a` on. -/
def WordsAt (m : ByteMem) : Nat → List UInt32 → Prop
  | _, [] => True
  | a, v :: vs => m.load32 a = v ∧ WordsAt m (a + 4) vs

theorem WordsAt.append {m : ByteMem} {vs ws : List UInt32} : ∀ {a : Nat}, WordsAt m a vs →
    WordsAt m (a + 4 * vs.length) ws → WordsAt m a (vs ++ ws) := by
  induction vs with
  | nil => exact fun _ h => h
  | cons v vs ih =>
      intro a hvs hws
      refine ⟨hvs.1, ih hvs.2 ?_⟩
      rw [show a + 4 + 4 * vs.length = a + 4 * (v :: vs).length by simp only [List.length_cons]; omega]
      exact hws

theorem WordsAt.frame {m m' : ByteMem} {vs : List UInt32} : ∀ {a : Nat}, WordsAt m a vs →
    (∀ b, a ≤ b → b < a + 4 * vs.length → m' b = m b) → WordsAt m' a vs := by
  induction vs with
  | nil => exact fun _ _ => trivial
  | cons v vs ih =>
      intro a hvs hsame
      simp only [List.length_cons] at hsame
      refine ⟨(ByteMem.load32_congr fun b hlo hhi => hsame b hlo (by omega)).trans hvs.1, ?_⟩
      exact ih hvs.2 fun b hlo hhi => hsame b (by omega) (by omega)

/-- Registers pushed one after another lie on the stack in reverse. -/
theorem pushes_spec (addr : Nat → UInt32) (rs : List Reg) (hesp : .esp ∉ rs) : ∀ (i : Nat) (s : Core),
    4 * rs.length ≤ (s.cpu.regs .esp).toNat →
    let t := block serving addr i (rs.map fun r => .plain (.pushReg r)) s
    (t.cpu.regs .esp).toNat = (s.cpu.regs .esp).toNat - 4 * rs.length ∧
      (∀ r, r ≠ .esp → t.cpu.regs r = s.cpu.regs r) ∧
      (∀ b, (s.cpu.regs .esp).toNat ≤ b → t.cpu.mem b = s.cpu.mem b) ∧
      WordsAt t.cpu.mem (t.cpu.regs .esp).toNat (rs.reverse.map s.cpu.regs) := by
  induction rs with
  | nil => exact fun i s _ => ⟨rfl, fun _ _ => rfl, fun _ _ => rfl, trivial⟩
  | cons r rs ih =>
      intro i s hroom
      simp only [List.length_cons] at hroom
      rw [List.mem_cons, not_or] at hesp
      -- the state after the first push
      let u : Core := serving.exec (addr (i + 1)) s (.plain (.pushReg r))
      have husp : (u.cpu.regs .esp).toNat = (s.cpu.regs .esp).toNat - 4 := by
        have hreg : u.cpu.regs .esp = s.cpu.regs .esp - 4 := Cpu.push_esp s.cpu (s.cpu.regs r)
        rw [hreg, toNat_sub_four rfl (by omega)]
      have huregs : ∀ r', r' ≠ .esp → u.cpu.regs r' = s.cpu.regs r' := fun r' hne =>
        Cpu.push_of_ne s.cpu (s.cpu.regs r) hne
      have humem : u.cpu.mem = s.cpu.mem.store32 ((s.cpu.regs .esp).toNat - 4) (s.cpu.regs r) := by
        rw [← husp]
        rfl
      obtain ⟨hsp, hregs, habove, hwords⟩ := ih hesp.2 (i + 1) u (by rw [husp]; omega)
      refine ⟨?_, fun r' hne => (hregs r' hne).trans (huregs r' hne), fun b hb => ?_, ?_⟩
      · rw [List.map_cons, block, hsp, husp, List.length_cons]
        omega
      · rw [List.map_cons, block, habove b (by rw [husp]; omega), humem,
          ByteMem.store32_of_apart _ _ (by omega)]
      · rw [List.map_cons, block, List.reverse_cons, List.map_append]
        have hsame : rs.reverse.map u.cpu.regs = rs.reverse.map s.cpu.regs := by
          refine List.map_congr_left fun r' hr' => huregs r' ?_
          rintro rfl
          exact hesp.2 (List.mem_reverse.mp hr')
        rw [← hsame]
        refine hwords.append ⟨?_, trivial⟩
        have hback : (s.cpu.regs .esp).toNat - 4 - 4 * rs.length + 4 * rs.length =
            (s.cpu.regs .esp).toNat - 4 := by
          omega
        rw [hsp, husp, List.length_map, List.length_reverse, hback]
        have hload := ByteMem.load32_congr (m := u.cpu.mem) (a := (s.cpu.regs .esp).toNat - 4)
          fun b hlo _ => habove b (by rw [husp]; exact hlo)
        rw [hload, humem, ByteMem.load32_store32]

/-- Registers popped one after another get the words of the stack. -/
theorem pops_spec (addr : Nat → UInt32) (value : Reg → UInt32) (rs : List Reg) (hesp : .esp ∉ rs) :
    ∀ (i : Nat) (s : Core), (s.cpu.regs .esp).toNat + 4 * rs.length < 2 ^ 32 →
    WordsAt s.cpu.mem (s.cpu.regs .esp).toNat (rs.map value) →
    let t := block serving addr i (rs.map fun r => .plain (.popReg r)) s
    (t.cpu.regs .esp).toNat = (s.cpu.regs .esp).toNat + 4 * rs.length ∧ t.cpu.mem = s.cpu.mem ∧
      ∀ r, r ≠ .esp → t.cpu.regs r = if r ∈ rs then value r else s.cpu.regs r := by
  induction rs with
  | nil => exact fun i s _ _ => ⟨rfl, rfl, fun r _ => (if_neg List.not_mem_nil).symm⟩
  | cons r rs ih =>
      intro i s hroom hwords
      simp only [List.length_cons] at hroom
      rw [List.mem_cons, not_or] at hesp
      -- the state after the first pop
      let u : Core := serving.exec (addr (i + 1)) s (.plain (.popReg r))
      have husp : (u.cpu.regs .esp).toNat = (s.cpu.regs .esp).toNat + 4 := by
        have hreg : u.cpu.regs .esp = s.cpu.regs .esp + 4 :=
          (Function.update_of_ne hesp.1 _ _).trans (Cpu.drop_esp _)
        rw [hreg, toNat_add_four rfl (by omega)]
      have hur : u.cpu.regs r = value r := (Function.update_self _ _ _).trans hwords.1
      have huregs : ∀ r', r' ≠ .esp → r' ≠ r → u.cpu.regs r' = s.cpu.regs r' := fun r' hne hother =>
        (Function.update_of_ne hother _ _).trans (Function.update_of_ne hne _ _)
      obtain ⟨hsp, hmem, hregs⟩ := ih hesp.2 (i + 1) u (by rw [husp]; omega) (by rw [husp]; exact hwords.2)
      refine ⟨?_, hmem, fun r' hne => ?_⟩
      · rw [List.map_cons, block, hsp, husp, List.length_cons]
        omega
      · rw [List.map_cons, block, hregs r' hne]
        by_cases hrest : r' ∈ rs
        · rw [if_pos hrest, if_pos (List.mem_cons_of_mem _ hrest)]
        · rw [if_neg hrest]
          by_cases hhead : r' = r
          · subst hhead
            rw [if_pos List.mem_cons_self, hur]
          · rw [if_neg (by rw [List.mem_cons, not_or]; exact ⟨hhead, hrest⟩), huregs r' hne hhead]

/-- A block of pushes in a run. -/
theorem reaches_pushes {p : Code} {s : Core} {i e : Nat} {rest : List ServiceInstr} (rs : List Reg)
    (hesp : .esp ∉ rs) (hat : s.cpu.eip = p.addr i)
    (htext : p.text.drop i = (rs.map fun r => .plain (.pushReg r)) ++ rest)
    (hsp : (s.cpu.regs .esp).toNat = e) (hroom : 4 * rs.length ≤ e) :
    ∃ t, p.Reaches s t ∧ t.cpu.eip = p.addr (i + rs.length) ∧ p.text.drop (i + rs.length) = rest ∧
      (t.cpu.regs .esp).toNat = e - 4 * rs.length ∧ (∀ r, r ≠ .esp → t.cpu.regs r = s.cpu.regs r) ∧
      (∀ b, e ≤ b → t.cpu.mem b = s.cpu.mem b) ∧
      WordsAt t.cpu.mem (e - 4 * rs.length) (rs.reverse.map s.cpu.regs) := by
  subst hsp
  have hseq : (rs.map fun r => ServiceInstr.plain (.pushReg r)).all ServiceInstr.sequential = true := by
    rw [List.all_map]
    exact List.all_eq_true.mpr fun _ _ => rfl
  obtain ⟨hreach, heip, hdrop⟩ := p.reaches_block _ hat htext hseq
  obtain ⟨hsp, hregs, habove, hwords⟩ := pushes_spec p.addr rs hesp i s hroom
  rw [List.length_map] at heip hdrop
  rw [hsp] at hwords
  exact ⟨_, hreach, heip, hdrop, hsp, hregs, habove, hwords⟩

/-- A block of pops in a run. -/
theorem reaches_pops {p : Code} {s : Core} {i e : Nat} {rest : List ServiceInstr} (value : Reg → UInt32)
    (rs : List Reg) (hesp : .esp ∉ rs) (hat : s.cpu.eip = p.addr i)
    (htext : p.text.drop i = (rs.map fun r => .plain (.popReg r)) ++ rest)
    (hsp : (s.cpu.regs .esp).toNat = e) (hroom : e + 4 * rs.length < 2 ^ 32)
    (hwords : WordsAt s.cpu.mem e (rs.map value)) :
    ∃ t, p.Reaches s t ∧ t.cpu.eip = p.addr (i + rs.length) ∧ p.text.drop (i + rs.length) = rest ∧
      (t.cpu.regs .esp).toNat = e + 4 * rs.length ∧ t.cpu.mem = s.cpu.mem ∧
      ∀ r, r ≠ .esp → t.cpu.regs r = if r ∈ rs then value r else s.cpu.regs r := by
  subst hsp
  have hseq : (rs.map fun r => ServiceInstr.plain (.popReg r)).all ServiceInstr.sequential = true := by
    rw [List.all_map]
    exact List.all_eq_true.mpr fun _ _ => rfl
  obtain ⟨hreach, heip, hdrop⟩ := p.reaches_block _ hat htext hseq
  obtain ⟨hsp, hmem, hregs⟩ := pops_spec p.addr value rs hesp i s hroom hwords
  rw [List.length_map] at heip hdrop
  exact ⟨_, hreach, heip, hdrop, hsp, hmem, hregs⟩

/-- A C function between its call and its return, with the stack pointer at `e` before the call. -/
theorem reaches_cfunction {p : Code} {s : Core} {i e args depth : Nat} {stack : Extent} {f : UInt32}
    {g : Core → Core} {rest : List ServiceInstr} (hat : s.cpu.eip = p.addr i)
    (htext : p.text.drop i = .call f :: rest) (hcallee : p.callee f = some g)
    (hg : CFunction stack args depth g) (hsp : (s.cpu.regs .esp).toNat = e)
    (hroom : stack.start + depth + 4 ≤ e) (hargs : e + 4 * args ≤ stack.fin) :
    let t := g (ServiceInstr.exec (p.addr (i + 1)) s (.call f))
    p.Reaches s t ∧ t.cpu.eip = p.addr (i + 1) ∧ p.text.drop (i + 1) = rest ∧
      t.cpu.regs .esp = s.cpu.regs .esp ∧
      (∀ r ∈ calleeSaved, t.cpu.regs r = s.cpu.regs r) ∧
      ∀ b, e + 4 * args ≤ b → b < stack.fin → t.cpu.mem b = s.cpu.mem b := by
  subst hsp
  let u : Core := ServiceInstr.exec (p.addr (i + 1)) s (.call f)
  have husp : u.cpu.regs .esp = s.cpu.regs .esp - 4 := Cpu.push_esp s.cpu (p.addr (i + 1))
  have husp' : (u.cpu.regs .esp).toNat = (s.cpu.regs .esp).toNat - 4 := by
    rw [husp, toNat_sub_four rfl (by omega)]
  have humem : u.cpu.mem = s.cpu.mem.store32 ((s.cpu.regs .esp).toNat - 4) (p.addr (i + 1)) := by
    rw [← husp']
    rfl
  obtain ⟨heip, hsp, hsaved, hframe⟩ := hg.returns u (by rw [husp']; omega) (by rw [husp']; omega)
  refine ⟨Code.reaches_call hat htext hcallee, heip.trans (Cpu.push_top s.cpu _), Listing.drop_succ htext,
    ?_, fun r hr => ?_,
    fun b hlo hhi => ?_⟩
  · rw [hsp, husp, UInt32.sub_add_cancel]
  · have hne : r ≠ .esp := by
      rintro rfl
      exact absurd hr (by decide)
    exact (hsaved r hr).trans (Cpu.push_of_ne s.cpu (p.addr (i + 1)) hne)
  · rw [hframe b (by rw [husp']; omega) hhi, humem, ByteMem.store32_of_apart _ _ (by omega)]

end I386
