/-
Module: RumpBaremetal.Lib.I386
Layer: Lib
Purpose: The instructions of a 32-bit x86 that move words between registers, memory and the stack, in AT&T
  operand order, and a processor that executes a listing of them and records the words that it pushes and
  pops.  The arithmetic flags are left out, since none of these instructions reads them.
Trusted boundary: human-reviewed spec
Main exports: Reg, Instr, Cpu, Instr.exec, Instr.stackWords, executing, tracing, Program, Program.next,
  Program.runTo, Program.leads_block, Program.loop_block_exit
-/
import RumpBaremetal.Lib.ByteMem
import RumpBaremetal.Lib.Listing

namespace I386

/-! ### Addresses -/

theorem toNat_sub_four {a : UInt32} {n : Nat} (h : a.toNat = n) (hn : 4 ≤ n) : (a - 4).toNat = n - 4 := by
  have hle : (4 : UInt32) ≤ a := UInt32.le_iff_toNat_le.mpr (by rw [h]; exact hn)
  rw [UInt32.toNat_sub_of_le a 4 hle, h]
  rfl

theorem toNat_add_four {a : UInt32} {n : Nat} (h : a.toNat = n) (hn : n + 4 < 2 ^ 32) :
    (a + 4).toNat = n + 4 := by
  rw [UInt32.toNat_add, h]
  exact Nat.mod_eq_of_lt hn

/-! ### Instructions -/

inductive Reg where
  | eax
  | ebx
  | ecx
  | edx
  | esi
  | edi
  | ebp
  | esp
deriving DecidableEq, Repr

inductive Instr where
  /-- `pushl r` -/
  | pushReg (r : Reg)
  /-- `pushl $v` -/
  | pushImm (v : UInt32)
  /-- `pushl disp(base)` -/
  | pushMem (disp : UInt32) (base : Reg)
  /-- `popl r` -/
  | popReg (r : Reg)
  /-- `movl disp(base), r` -/
  | load (disp : UInt32) (base r : Reg)
  /-- `movl r, disp(base)` -/
  | store (r : Reg) (disp : UInt32) (base : Reg)
  /-- `movl $v, disp(base)` -/
  | storeImm (v disp : UInt32) (base : Reg)
  /-- `xorl src, dst` -/
  | xorReg (src dst : Reg)
  /-- `call *r` -/
  | callReg (r : Reg)
  | ret
deriving DecidableEq, Repr

structure Cpu where
  regs : Reg → UInt32
  eip : UInt32
  mem : ByteMem

namespace Cpu

def setReg (c : Cpu) (r : Reg) (v : UInt32) : Cpu := { c with regs := Function.update c.regs r v }

/-- The word at an address. -/
def word (c : Cpu) (a : UInt32) : UInt32 := c.mem.load32 a.toNat

def setWord (c : Cpu) (a v : UInt32) : Cpu := { c with mem := c.mem.store32 a.toNat v }

def push (c : Cpu) (v : UInt32) : Cpu := (c.setReg .esp (c.regs .esp - 4)).setWord (c.regs .esp - 4) v

/-- The word on top of the stack. -/
def top (c : Cpu) : UInt32 := c.word (c.regs .esp)

/-- Drop the word on top of the stack. -/
def drop (c : Cpu) : Cpu := c.setReg .esp (c.regs .esp + 4)

theorem setReg_self (c : Cpu) (r : Reg) (v : UInt32) : (c.setReg r v).regs r = v :=
  Function.update_self _ _ _

theorem setReg_of_ne (c : Cpu) {r r' : Reg} (v : UInt32) (hne : r' ≠ r) :
    (c.setReg r v).regs r' = c.regs r' :=
  Function.update_of_ne hne _ _

theorem push_esp (c : Cpu) (v : UInt32) : (c.push v).regs .esp = c.regs .esp - 4 := by
  simp only [push, setReg, setWord, Function.update_self]

theorem push_of_ne (c : Cpu) (v : UInt32) {r : Reg} (hne : r ≠ .esp) : (c.push v).regs r = c.regs r := by
  simp only [push, setReg, setWord, Function.update_of_ne hne]

theorem push_top (c : Cpu) (v : UInt32) : (c.push v).top = v := by
  simp only [top, word, push_esp]
  exact ByteMem.load32_store32 _ _ _

theorem drop_esp (c : Cpu) : c.drop.regs .esp = c.regs .esp + 4 := by
  simp only [drop, setReg, Function.update_self]

end Cpu

/-- What an instruction does when the one behind it is at `next`. -/
def Instr.exec (next : UInt32) (c : Cpu) : Instr → Cpu
  | .pushReg r => { c.push (c.regs r) with eip := next }
  | .pushImm v => { c.push v with eip := next }
  | .pushMem disp base => { c.push (c.word (c.regs base + disp)) with eip := next }
  | .popReg r => { c.drop.setReg r c.top with eip := next }
  | .load disp base r => { c.setReg r (c.word (c.regs base + disp)) with eip := next }
  | .store r disp base => { c.setWord (c.regs base + disp) (c.regs r) with eip := next }
  | .storeImm v disp base => { c.setWord (c.regs base + disp) v with eip := next }
  | .xorReg src dst => { c.setReg dst (c.regs dst ^^^ c.regs src) with eip := next }
  | .callReg r => { c.push next with eip := c.regs r }
  | .ret => { c.drop with eip := c.top }

/-- The address of the word that the instruction pushes or pops. -/
def Instr.stackWords (c : Cpu) : Instr → List Nat
  | .pushReg _ | .pushImm _ | .pushMem _ _ | .callReg _ => [(c.regs .esp - 4).toNat]
  | .popReg _ | .ret => [(c.regs .esp).toNat]
  | .load _ _ _ | .store _ _ _ | .storeImm _ _ _ | .xorReg _ _ => []

/-- The instruction behind it is executed next. -/
def Instr.sequential : Instr → Bool
  | .callReg _ | .ret => false
  | _ => true

theorem Instr.exec_eip {ins : Instr} (h : ins.sequential = true) (next : UInt32) (c : Cpu) :
    (ins.exec next c).eip = next := by
  cases ins <;> first | rfl | cases h

/-! ### Programs -/

open MachineCode

def executing : Processor Instr Cpu where
  exec := Instr.exec
  eip := Cpu.eip
  sequential := Instr.sequential
  exec_eip := Instr.exec_eip

/-- The processor, with the addresses of the words that it has pushed and popped, in order. -/
def tracing : Processor Instr (Cpu × List Nat) where
  exec next s ins := (ins.exec next s.1, s.2 ++ ins.stackWords s.1)
  eip s := s.1.eip
  sequential := Instr.sequential
  exec_eip hseq next s := Instr.exec_eip hseq next s.1

/-- The words that straight-line code from position `i` pushes and pops. -/
def blockWords (addr : Nat → UInt32) : Nat → List Instr → Cpu → List Nat
  | _, [], _ => []
  | i, ins :: code, c => ins.stackWords c ++ blockWords addr (i + 1) code (ins.exec (addr (i + 1)) c)

theorem block_tracing (addr : Nat → UInt32) (code : List Instr) : ∀ (i : Nat) (c : Cpu) (words : List Nat),
    block tracing addr i code (c, words) = (block executing addr i code c,
      words ++ blockWords addr i code c) := by
  induction code with
  | nil =>
      intro i c words
      simp only [block, blockWords, List.append_nil]
  | cons ins code ih =>
      intro i c words
      rw [block, block, blockWords, ← List.append_assoc]
      exact ih (i + 1) _ _

abbrev Program := Listing Instr

namespace Program

variable {p : Program} {exit : Nat → Bool} {s : Cpu × List Nat} {i : Nat} {ins : Instr} {rest : List Instr}

/-- Execute one instruction.  Those at the positions `exit` end the run. -/
def next (p : Program) (exit : Nat → Bool) (s : Cpu × List Nat) :
    Option ((Cpu × List Nat) ⊕ (Cpu × List Nat)) :=
  match p.fetch s.1.eip with
  | none => none
  | some (i, ins) =>
      let s' := tracing.exec (p.addr (i + 1)) s ins
      if exit i then some (.inr s') else some (.inl s')

/-- Execute until one of the instructions at the positions `exit` has been executed, `fuel` instructions at
    most. -/
def runTo (p : Program) (exit : Nat → Bool) (fuel : Nat) (c : Cpu) : Option (Cpu × List Nat) :=
  loop (p.next exit) fuel (c, [])

/-- One instruction that does not end the run. -/
theorem next_inner (hat : s.1.eip = p.addr i) (htext : p.text.drop i = ins :: rest)
    (hexit : exit i = false) :
    p.next exit s = some (.inl (tracing.exec (p.addr (i + 1)) s ins)) := by
  simp only [next, hat, Listing.fetch_addr htext, hexit, Bool.false_eq_true, if_false]

/-- One that does. -/
theorem next_exit (hat : s.1.eip = p.addr i) (htext : p.text.drop i = ins :: rest) (hexit : exit i = true) :
    p.next exit s = some (.inr (tracing.exec (p.addr (i + 1)) s ins)) := by
  simp only [next, hat, Listing.fetch_addr htext, hexit, if_true]

/-- Straight-line code of `n` instructions, with no exit among them. -/
theorem leads_block (p : Program) (exit : Nat → Bool) (code rest : List Instr) {c : Cpu} {n : Nat}
    (hlen : code.length = n) (hat : c.eip = p.addr i) (htext : p.text.drop i = code ++ rest)
    (hseq : code.all Instr.sequential = true) (hexit : (List.range' i n).all (fun k => !exit k) = true) :
    (∀ words, LeadsIn (p.next exit) n (c, words)
        (block executing p.addr i code c, words ++ blockWords p.addr i code c)) ∧
      (block executing p.addr i code c).eip = p.addr (i + n) ∧ p.text.drop (i + n) = rest := by
  subst hlen
  have hblock := fun words : List Nat => leadsIn_block tracing p code (s := (c, words)) hat htext hseq
    fun k ins rest s hlo hhi hk _ hat' =>
      have hnot := List.all_eq_true.mp hexit k (List.mem_range'_1.mpr ⟨hlo, hhi⟩)
      next_inner hat' hk (Bool.not_eq_eq_eq_not.mp hnot)
  simp only [block_tracing] at hblock
  exact ⟨fun words => (hblock words).1, (hblock []).2.1, (hblock []).2.2⟩

/-- Straight-line code of `n` instructions, up to and including an instruction that ends the run. -/
theorem loop_block_exit (p : Program) (exit : Nat → Bool) (code : List Instr) (last : Instr)
    (rest : List Instr) {c : Cpu} {n : Nat} (hlen : code.length = n) (hat : c.eip = p.addr i)
    (htext : p.text.drop i = code ++ last :: rest) (hseq : code.all Instr.sequential = true)
    (hexit : (List.range' i n).all (fun k => !exit k) = true) (hlast : exit (i + n) = true)
    (words : List Nat) (fuel : Nat) :
    loop (p.next exit) (fuel + 1 + n) (c, words) =
      some (last.exec (p.addr (i + n + 1)) (block executing p.addr i code c),
        words ++ (blockWords p.addr i code c ++ last.stackWords (block executing p.addr i code c))) := by
  obtain ⟨hleads, heip, hdrop⟩ := leads_block p exit code (last :: rest) hlen hat htext hseq hexit
  rw [hleads, loop_end (next_exit heip hdrop hlast), ← List.append_assoc]
  rfl

end Program

end I386
