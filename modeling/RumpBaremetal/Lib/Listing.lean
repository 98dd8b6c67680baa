/-
Module: RumpBaremetal.Lib.Listing
Layer: Lib
Purpose: Machine code as a listing.  The instructions, of any kind, are fetched by their addresses, whatever
  addresses the assembler has given to them; a processor says what each of them does.  A run repeats one
  step until a step ends it.  The rule for straight-line code turns a piece of a listing into one function
  on the states.
Trusted boundary: human-reviewed spec
Main exports: Listing, Listing.fetch, loop, LeadsIn, Processor, block, leadsIn_block
-/
import Mathlib.Tactic

namespace MachineCode

/-! ### Listings -/

/-- A listing, and the address of each of its instructions. -/
structure Listing (Ins : Type*) where
  text : List Ins
  addr : Nat → UInt32
  distinct : ∀ i j, i < text.length → j < text.length → addr i = addr j → i = j

namespace Listing

variable {Ins : Type*} {p : Listing Ins} {i : Nat} {ins : Ins} {rest : List Ins}

/-- The instruction at an address, with its position. -/
def fetch (p : Listing Ins) (a : UInt32) : Option (Nat × Ins) :=
  match (List.range p.text.length).find? fun i => p.addr i = a with
  | none => none
  | some i => p.text[i]?.map fun ins => (i, ins)

theorem drop_succ (htext : p.text.drop i = ins :: rest) : p.text.drop (i + 1) = rest := by
  rw [← List.tail_drop, htext]
  rfl

/-- The address of an instruction leads back to it. -/
theorem fetch_addr (htext : p.text.drop i = ins :: rest) : p.fetch (p.addr i) = some (i, ins) := by
  have hins : p.text[i]? = some ins := by
    rw [← List.head?_drop, htext]
    rfl
  have hi : i < p.text.length := (List.getElem?_eq_some_iff.mp hins).1
  have hfind : ((List.range p.text.length).find? fun j => p.addr j = p.addr i) = some i := by
    rw [List.find?_range_eq_some]
    refine ⟨decide_eq_true rfl, List.mem_range.mpr hi, fun j hj => ?_⟩
    simp only [Bool.not_eq_eq_eq_not, Bool.not_true, decide_eq_false_iff_not]
    intro heq
    have hsame := p.distinct j i (hj.trans hi) hi heq
    omega
  simp only [fetch, hfind, hins, Option.map_some]

theorem fetch_outside {a : UInt32} (hout : ∀ i < p.text.length, p.addr i ≠ a) : p.fetch a = none := by
  have hfind : ((List.range p.text.length).find? fun i => p.addr i = a) = none :=
    List.find?_eq_none.mpr fun i hi heq => hout i (List.mem_range.mp hi) (of_decide_eq_true heq)
  rw [fetch, hfind]

end Listing

/-! ### Runs -/

section Runs

variable {σ ρ : Type*} {next : σ → Option (σ ⊕ ρ)} {n m : Nat} {s s' s'' : σ}

/-- Repeat a step until it ends the run with a result, `fuel` times at most. -/
def loop (next : σ → Option (σ ⊕ ρ)) : Nat → σ → Option ρ
  | 0, _ => none
  | fuel + 1, s =>
      match next s with
      | none => none
      | some (.inl s') => loop next fuel s'
      | some (.inr r) => some r

/-- Whatever follows, the run from the one state is after `n` steps that from the other. -/
def LeadsIn (next : σ → Option (σ ⊕ ρ)) (n : Nat) (s s' : σ) : Prop :=
  ∀ fuel, loop next (fuel + n) s = loop next fuel s'

theorem LeadsIn.refl (s : σ) : LeadsIn next 0 s s := fun _ => rfl

theorem LeadsIn.trans (h : LeadsIn next n s s') (h' : LeadsIn next m s' s'') :
    LeadsIn next (m + n) s s'' := by
  intro fuel
  rw [← Nat.add_assoc, h, h']

theorem LeadsIn.congr (h : LeadsIn next n s s') (heq : s' = s'') : LeadsIn next n s s'' := by
  rwa [← heq]

theorem LeadsIn.one (h : next s = some (.inl s')) : LeadsIn next 1 s s' := by
  intro fuel
  rw [loop, h]

theorem loop_end {r : ρ} (h : next s = some (.inr r)) (fuel : Nat) : loop next (fuel + 1) s = some r := by
  rw [loop, h]

end Runs

/-! ### Straight-line code -/

/-- What the instructions do.  `exec` is given the address behind the instruction, and a sequential
    instruction goes on there. -/
structure Processor (Ins σ : Type*) where
  exec : UInt32 → σ → Ins → σ
  eip : σ → UInt32
  sequential : Ins → Bool
  exec_eip : ∀ {ins : Ins}, sequential ins = true → ∀ next s, eip (exec next s ins) = next

section Blocks

variable {Ins σ ρ : Type*} (cpu : Processor Ins σ) (p : Listing Ins) {next : σ → Option (σ ⊕ ρ)}

/-- What a piece of straight-line code from position `i` does. -/
def block (addr : Nat → UInt32) : Nat → List Ins → σ → σ
  | _, [], s => s
  | i, ins :: code, s => block addr (i + 1) code (cpu.exec (addr (i + 1)) s ins)

/-- The rule for straight-line code, by induction along it: the steps execute its instructions if each of
    them goes on where it is. -/
theorem leadsIn_block (code : List Ins) : ∀ {rest : List Ins} {i : Nat} {s : σ}, cpu.eip s = p.addr i →
    p.text.drop i = code ++ rest → code.all cpu.sequential = true →
    (∀ k ins rest s, i ≤ k → k < i + code.length → p.text.drop k = ins :: rest → cpu.sequential ins = true →
      cpu.eip s = p.addr k → next s = some (.inl (cpu.exec (p.addr (k + 1)) s ins))) →
    LeadsIn next code.length s (block cpu p.addr i code s) ∧
      cpu.eip (block cpu p.addr i code s) = p.addr (i + code.length) ∧
      p.text.drop (i + code.length) = rest := by
  induction code with
  | nil =>
      intro rest i s hat htext _ _
      exact ⟨.refl s, hat, htext⟩
  | cons ins code ih =>
      intro rest i s hat htext hseq hgo
      simp only [List.all_cons, Bool.and_eq_true] at hseq
      have hlen : i + 1 + code.length = i + (ins :: code).length := by
        simp only [List.length_cons]
        omega
      have hone : LeadsIn next 1 s (cpu.exec (p.addr (i + 1)) s ins) :=
        .one (hgo i ins _ s le_rfl (by simp) htext hseq.1 hat)
      obtain ⟨hleads, heip, hdrop⟩ :=
        ih (cpu.exec_eip hseq.1 (p.addr (i + 1)) s) (Listing.drop_succ htext) hseq.2
          fun k ins' rest' s' hlo hhi => hgo k ins' rest' s' (by omega) (by omega)
      rw [hlen] at heip hdrop
      exact ⟨hone.trans hleads, heip, hdrop⟩

end Blocks

end MachineCode
