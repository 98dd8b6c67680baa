/-
Module: RumpBaremetal.Kernel.Rumppci
Layer: Kernel
Purpose: rumppci.c: the table that takes the interrupt line of a device from `rumpcomp_pci_irq_map` to
  `rumpcomp_pci_irq_establish`, and the memory that devices write to.  The table is C memory: every access
  through `intrs` is recorded with its index, and the words behind the table belong to other variables,
  which change at any time.
Trusted boundary: human-reviewed spec
Main exports: IntrTable, rumpcompPciIrqMap, rumpcompPciIrqEstablish, PciWorld, PciEvent, pciStep, Dmalloc,
  rumpcompPciDmalloc
-/
import RumpBaremetal.Kernel.Intr
import RumpBaremetal.Kernel.Store

namespace RumpBaremetal

/-! ### The cookie table -/

/-- The words from `&intrs[0]` on, and the indexes that were used with `intrs`, the latest first.
    [SRC rumppci.c:44] -/
structure IntrTable where
  intrs : Nat → Int32
  accessed : List Nat

namespace IntrTable

def read (t : IntrTable) (i : Nat) : Int32 × IntrTable :=
  (t.intrs i, { t with accessed := i :: t.accessed })

def write (t : IntrTable) (i : Nat) (line : Int32) : IntrTable :=
  ⟨Function.update t.intrs i line, i :: t.accessed⟩

end IntrTable

/-- The error, `0` for success, and the table.  The cookie is unsigned, and so is the comparison.
    [SRC rumppci.c:46-56] -/
def rumpcompPciIrqMap (t : IntrTable) (_bus _device _function : UInt32) (intrline : Int32)
    (cookie : UInt32) :
    UInt32 × IntrTable :=
  if cookie > bmkMaxintr.toUInt32 then (eGeneric, t) else (0, t.write cookie.toNat intrline)

variable {Fun Arg : Type*}

/-- The table, and the index whose address is returned, none for `NULL`, with the state of the handlers.  It
    does not return if `bmk_xmalloc` panics.  [SRC rumppci.c:58-66] -/
def rumpcompPciIrqEstablish (s : Stubs) (t : IntrTable) (w : IntrWorld Fun Arg) (cookie : UInt32)
    (handler : Fun) (data : Arg) (found : Bool) : IntrTable × Option (Option Nat × IntrWorld Fun Arg) :=
  match t.read cookie.toNat with
  | (line, t) =>
      (t, (bmkIsrNetinit s w handler data line found).map fun r =>
        (if r.1 = 0 then some cookie.toNat else none, r.2))

/-- The table, the handlers, and a record of the line that the latest successful map of each cookie has
    given. -/
structure PciWorld (Fun Arg : Type*) where
  table : IntrTable
  intr : IntrWorld Fun Arg
  mapped : UInt32 → Option Int32

/-- The table is zero-initialised. -/
def PciWorld.boot (intr : IntrWorld Fun Arg) : PciWorld Fun Arg := ⟨⟨fun _ => 0, []⟩, intr, fun _ => none⟩

inductive PciEvent (Fun Arg : Type*) where
  | irqMap (bus device function : UInt32) (intrline : Int32) (cookie : UInt32)
  | irqEstablish (cookie : UInt32) (handler : Fun) (data : Arg) (found : Bool)
  /-- The owner of a word behind the table changes it. -/
  | neighbour (i : Nat) (value : Int32)
deriving DecidableEq, Repr

/-- A cookie is established only after it was mapped with success. -/
def pciEnabled (w : PciWorld Fun Arg) : PciEvent Fun Arg → Bool
  | .irqMap _ _ _ _ _ => !w.intr.halted
  | .irqEstablish cookie _ _ _ => !w.intr.halted && (w.mapped cookie).isSome
  | .neighbour i _ => decide (bmkMaxintr.toNatClampNeg ≤ i)

def pciEffect (s : Stubs) (w : PciWorld Fun Arg) : PciEvent Fun Arg → PciWorld Fun Arg
  | .irqMap bus device function intrline cookie =>
      match rumpcompPciIrqMap w.table bus device function intrline cookie with
      | (error, table) =>
          { w with
            table := table
            mapped := if error = 0 then Function.update w.mapped cookie (some intrline) else w.mapped }
  | .irqEstablish cookie handler data found =>
      match rumpcompPciIrqEstablish s w.table w.intr cookie handler data found with
      | (table, some (_, intr)) => { w with table := table, intr := intr }
      | (table, none) => { w with table := table, intr := { w.intr with halted := true } }
  | .neighbour i value =>
      { w with table := { w.table with intrs := Function.update w.table.intrs i value } }

def pciStep (s : Stubs) (w : PciWorld Fun Arg) (e : PciEvent Fun Arg) : Option (PciWorld Fun Arg) :=
  if pciEnabled w e then some (pciEffect s w e) else none

theorem pciStep_inv {s : Stubs} {w w' : PciWorld Fun Arg} {e : PciEvent Fun Arg}
    (h : pciStep s w e = some w') :
    pciEnabled w e = true ∧ w' = pciEffect s w e := by
  unfold pciStep at h
  split at h
  · rename_i henabled
    exact ⟨henabled, (Option.some.inj h).symm⟩
  · cases h

/-! ### Memory for devices -/

/-- What a call of `rumpcomp_pci_dmalloc` leaves: the return value, `*pap`, `*vap` and the page source. -/
structure Dmalloc where
  rv : Int
  pa : UInt32
  va : UInt32
  pages : PageHistory
deriving DecidableEq, Repr

/-- `*pap` and `*vap` hold `pa` and `va` before the call; the alignment is not looked at.
    [SRC rumppci.c:80-93] -/
def rumpcompPciDmalloc (pages : PageHistory) (size _align pa va : UInt32) : Dmalloc :=
  match pages.allocpg (roundPage size / pageSize) with
  | (rv, pages) => if rv = 0 then ⟨1, pa, va, pages⟩ else ⟨0, rv, rv, pages⟩

end RumpBaremetal
