/-
Module: RumpBaremetal.Lib.Pic
Layer: Lib
Purpose: Two 8259A interrupt controllers, one behind a line of the other, as software and devices see them:
  the words that initialise a chip, its mask, requests on its lines, the acknowledgement by the processor,
  and the end of an interrupt.  The chips are edge triggered and fully nested, so a line that is in service
  holds back itself and every line behind it.  A request stays until it is acknowledged.  Commands that are
  outside of this have no meaning here.
Trusted boundary: human-reviewed spec
Main exports: Pic.Chip, Pic.Chip.command, Pic.Chip.data, Pic.Chip.select, Pic.Chip.eoi, Pic.Pair,
  Pic.Pair.request, Pic.Pair.acknowledge, Pic.Chip.select_eq_some, Pic.Chip.SetUp, Pic.Pair.acknowledge_inv,
  Pic.Pair.acknowledge_isSome
-/
import Mathlib.Tactic

namespace Pic

/-- What the next byte at the data port is taken for. -/
inductive Expects where
  | icw2
  | icw3
  | icw4
  | mask
deriving DecidableEq, Repr

/-- One controller.  `vector` is the interrupt vector of its first line; `cascade` has a bit for each line
    that has a chip behind it, or, in a chip that is behind a line, the number of that line. -/
structure Chip where
  expects : Expects
  single : Bool
  needsIcw4 : Bool
  i8086 : Bool
  autoEoi : Bool
  vector : UInt8
  cascade : UInt8
  imr : UInt8
  irr : Nat → Bool
  isr : Nat → Bool

def bit (x : UInt8) (i : Nat) : Bool := x.toNat.testBit i

/-- The line of the highest priority. -/
def first (lines : Nat → Bool) : Option Nat := (List.range 8).find? lines

theorem first_eq_some {lines : Nat → Bool} {i : Nat} :
    first lines = some i ↔ i < 8 ∧ lines i = true ∧ ∀ j < i, lines j = false := by
  rw [first, List.find?_range_eq_some]
  simp only [List.mem_range, Bool.not_eq_true']
  exact and_left_comm

theorem first_isSome {lines : Nat → Bool} {i : Nat} (hi : i < 8) (hline : lines i = true) :
    (first lines).isSome = true := by
  rw [first, List.find?_isSome]
  exact ⟨i, List.mem_range.mpr hi, hline⟩

/-! ### One chip -/

namespace Chip

/-- The line in service with the highest priority is done. -/
def eoi (c : Chip) : Chip :=
  match first c.isr with
  | none => c
  | some i => { c with isr := Function.update c.isr i false }

/-- A byte at the command port. -/
def command (c : Chip) (v : UInt8) : Option Chip :=
  if bit v 4 then
    -- bit 3 is for level triggered lines
    if bit v 3 then none
    else
      some { c with
        expects := .icw2
        single := bit v 1
        needsIcw4 := bit v 0
        i8086 := false
        autoEoi := false
        imr := 0
        irr := fun _ => false
        isr := fun _ => false }
  else if v = 0x20 then some c.eoi
  else none

/-- What follows the third word of the initialisation, or the second if there is no third. -/
def afterIcw3 (c : Chip) : Expects := if c.needsIcw4 then .icw4 else .mask

/-- A byte at the data port. -/
def data (c : Chip) (v : UInt8) : Option Chip :=
  match c.expects with
  | .icw2 => some { c with vector := v &&& 0xf8, expects := if c.single then c.afterIcw3 else .icw3 }
  | .icw3 => some { c with cascade := v, expects := c.afterIcw3 }
  | .icw4 =>
      if v &&& 0xfc = 0 then some { c with i8086 := bit v 0, autoEoi := bit v 1, expects := .mask }
      else none
  | .mask => some { c with imr := v }

/-- The chip would interrupt for this line: it is requested, on its own or by what is `behind` it, not
    masked, and neither it nor a line before it is in service. -/
def offers (c : Chip) (behind : Nat → Bool) (i : Nat) : Bool :=
  (c.irr i || behind i) && !bit c.imr i && (List.range (i + 1)).all fun j => !c.isr j

/-- The line that the chip interrupts for, if its initialisation is complete. -/
def select (c : Chip) (behind : Nat → Bool) : Option Nat :=
  if c.expects = .mask ∧ c.i8086 then first (c.offers behind) else none

/-- The processor takes the interrupt of a line. -/
def serve (c : Chip) (i : Nat) : Chip :=
  { c with irr := Function.update c.irr i false, isr := Function.update c.isr i (!c.autoEoi) }

variable {c : Chip} {behind : Nat → Bool} {i : Nat}

theorem offers_iff :
    c.offers behind i = true ↔ (c.irr i = true ∨ behind i = true) ∧ bit c.imr i = false ∧
    ∀ j ≤ i, c.isr j = false := by
  simp only [offers, Bool.and_eq_true, Bool.or_eq_true, Bool.not_eq_true', List.all_eq_true, List.mem_range,
    Nat.lt_succ_iff, and_assoc]

theorem select_eq_some (h : c.select behind = some i) :
    i < 8 ∧ (c.irr i = true ∨ behind i = true) ∧ bit c.imr i = false ∧ ∀ j ≤ i, c.isr j = false := by
  unfold select at h
  split at h
  · obtain ⟨hi, hoffers, -⟩ := first_eq_some.mp h
    exact ⟨hi, offers_iff.mp hoffers⟩
  · cases h

theorem select_isSome (hready : c.expects = .mask) (hmode : c.i8086 = true) (hi : i < 8)
    (hrequest : c.irr i = true ∨ behind i = true) (hmask : bit c.imr i = false)
    (hidle : ∀ j, c.isr j = false) :
    (c.select behind).isSome = true := by
  rw [select, if_pos ⟨hready, hmode⟩]
  exact first_isSome hi (offers_iff.mpr ⟨hrequest, hmask, fun j _ => hidle j⟩)

/-- The line in service with the highest priority is the one that ends. -/
theorem eoi_isr (hi : i < 8) (hfirst : ∀ j < i, c.isr j = false) (hservice : c.isr i = true) :
    c.eoi = { c with isr := Function.update c.isr i false } := by
  rw [eoi, first_eq_some.mpr ⟨hi, hservice, hfirst⟩]

/-- An interrupt that ends before any other is taken leaves only its request behind it. -/
theorem eoi_serve (hi : i < 8) (hauto : c.autoEoi = false) (hidle : ∀ j ≤ i, c.isr j = false) :
    (c.serve i).eoi = { c with irr := Function.update c.irr i false } := by
  have hbefore : ∀ j < i, (c.serve i).isr j = false := by
    intro j hj
    simp only [serve, Function.update_of_ne hj.ne]
    exact hidle j hj.le
  have hserved : (c.serve i).isr i = true := by
    simp only [serve, Function.update_self, hauto, Bool.not_false]
  rw [eoi_isr hi hbefore hserved]
  simp only [serve, Function.update_idem]
  rw [← hidle i (Nat.le_refl i), Function.update_eq_self]

/-- The chip has been initialised, with these vectors and this place, for ends of interrupts by command. -/
structure SetUp (vector cascade : UInt8) (c : Chip) : Prop where
  expects : c.expects = .mask
  i8086 : c.i8086 = true
  autoEoi : c.autoEoi = false
  vector : c.vector = vector
  cascade : c.cascade = cascade

namespace SetUp

variable {vector cascade : UInt8}

theorem mask (h : SetUp vector cascade c) (v : UInt8) : c.data v = some { c with imr := v } := by
  rw [data, h.expects]

theorem eoi (h : SetUp vector cascade c) : SetUp vector cascade c.eoi := by
  unfold Chip.eoi
  split
  · exact h
  · exact ⟨h.expects, h.i8086, h.autoEoi, h.vector, h.cascade⟩

end SetUp

end Chip

/-! ### Two chips -/

structure Pair where
  master : Chip
  slave : Chip

namespace Pair

/-- A device requests an interrupt; the lines of the slave follow those of the master. -/
def request (p : Pair) (line : Nat) : Pair :=
  if line < 8 then { p with master := { p.master with irr := Function.update p.master.irr line true } }
  else { p with slave := { p.slave with irr := Function.update p.slave.irr (line - 8) true } }

/-- The slave interrupts for a line of its own. -/
def slaveSelect (p : Pair) : Option Nat := p.slave.select fun _ => false

/-- The slave requests an interrupt on the line of the master that it is behind. -/
def behind (p : Pair) (i : Nat) : Bool := bit p.master.cascade i && p.slaveSelect.isSome

/-- The processor acknowledges an interrupt, and gets its vector; `none` if there is none.  On a line with a
    chip behind it the vector comes from that chip, if it is the one that is asked. -/
def acknowledge (p : Pair) : Option (UInt8 × Pair) :=
  match p.master.select p.behind with
  | none => none
  | some i =>
      match if bit p.master.cascade i then p.slaveSelect else none with
      | none => some (p.master.vector + UInt8.ofNat i, { p with master := p.master.serve i })
      | some j =>
          some (if p.slave.cascade.toNat = i then p.slave.vector + UInt8.ofNat j else 0xff,
            ⟨p.master.serve i, p.slave.serve j⟩)

variable {p p' : Pair} {v : UInt8}

/-- An interrupt of the master's own, or of the slave's. -/
theorem acknowledge_inv (h : p.acknowledge = some (v, p')) :
    (∃ i, p.master.select p.behind = some i ∧ (bit p.master.cascade i = false ∨ p.slaveSelect = none) ∧
        v = p.master.vector + UInt8.ofNat i ∧ p' = { p with master := p.master.serve i }) ∨
      ∃ i j, p.master.select p.behind = some i ∧ bit p.master.cascade i = true ∧ p.slaveSelect = some j ∧
        (p.slave.cascade.toNat = i → v = p.slave.vector + UInt8.ofNat j) ∧
        p' = ⟨p.master.serve i, p.slave.serve j⟩ := by
  unfold acknowledge at h
  cases hmaster : p.master.select p.behind with
  | none =>
      rw [hmaster] at h
      cases h
  | some i =>
      simp only [hmaster] at h
      by_cases hcascade : bit p.master.cascade i = true
      · rw [if_pos hcascade] at h
        cases hslave : p.slaveSelect with
        | none =>
            simp only [hslave, Option.some.injEq, Prod.mk.injEq] at h
            exact Or.inl ⟨i, rfl, Or.inr rfl, h.1.symm, h.2.symm⟩
        | some j =>
            simp only [hslave, Option.some.injEq, Prod.mk.injEq] at h
            refine Or.inr ⟨i, j, rfl, hcascade, rfl, fun hasked => ?_, h.2.symm⟩
            rw [← h.1, if_pos hasked]
      · rw [if_neg hcascade] at h
        simp only [Option.some.injEq, Prod.mk.injEq] at h
        exact Or.inl ⟨i, rfl, Or.inl (Bool.eq_false_iff.mpr hcascade), h.1.symm, h.2.symm⟩

theorem acknowledge_isSome (h : (p.master.select p.behind).isSome = true) :
    p.acknowledge.isSome = true := by
  obtain ⟨i, hi⟩ := Option.isSome_iff_exists.mp h
  unfold acknowledge
  rw [hi]
  dsimp only
  split
  · rfl
  · rfl

end Pair

end Pic
