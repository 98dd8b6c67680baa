/-
Module: RumpBaremetal.Kernel.Pages
Layer: Kernel
Purpose: The page source of kernel.c.  `bmk_allocpg` hands out consecutive page runs behind a static
  counter that is never wound back, with all arithmetic modulo `2^32` as on i386.
Trusted boundary: human-reviewed spec
Main exports: pageSize, roundPage, PageState, bmkAllocpg, PageHistory, PageHistory.allocpg, allocStep
-/
import Mathlib.Tactic
import RumpBaremetal.Lib.Extent

namespace RumpBaremetal

/-- `PAGE_SIZE`.  [SRC include/bmk/kernel.h:8] -/
def pageSize : UInt32 := 0x1000

/-- `round_page(x)`.  [SRC include/bmk/kernel.h:11] -/
def roundPage (x : UInt32) : UInt32 := (x + (pageSize - 1)) &&& ~~~(pageSize - 1)

/-- The globals `bmk_membase` and `bmk_memsize`, and the static counter of `bmk_allocpg`. -/
structure PageState where
  bmkMembase : UInt32
  bmkMemsize : UInt32
  current : UInt32
deriving DecidableEq, Repr

/-- `bmk_allocpg`: the returned pointer, `0` for `NULL`, and the state afterwards.  The counter has
    moved on before the bound is looked at, so it moves on failure too.  [SRC kernel.c:16-28] -/
def bmkAllocpg (s : PageState) (howmany : UInt32) : UInt32 × PageState :=
  let rv := s.bmkMembase + pageSize * s.current
  let current := s.current + howmany
  if current * pageSize > s.bmkMemsize then
    (0, { s with current := current })
  else
    (rv, { s with current := current })

/-- A successful request: the pointer returned and the number of pages asked for. -/
structure PageGrant where
  rv : UInt32
  howmany : UInt32
deriving DecidableEq, Repr

/-- The bytes a requester takes a grant to be, with the exact product as their number. -/
def PageGrant.extent (g : PageGrant) : Extent :=
  ⟨g.rv.toNat, g.howmany.toNat * 4096⟩

/-- The page source together with everything it has granted, latest first. -/
structure PageHistory where
  pages : PageState
  granted : List PageGrant
deriving DecidableEq, Repr

/-- The state `parsemem` leaves behind. -/
def PageHistory.boot (bmkMembase bmkMemsize : UInt32) : PageHistory :=
  ⟨⟨bmkMembase, bmkMemsize, 0⟩, []⟩

/-- `bmk_allocpg` with a record of what it has granted; a `NULL` answer leaves no grant. -/
def PageHistory.allocpg (h : PageHistory) (howmany : UInt32) : UInt32 × PageHistory :=
  match bmkAllocpg h.pages howmany with
  | (rv, pages) => (rv, ⟨pages, if rv = 0 then h.granted else ⟨rv, howmany⟩ :: h.granted⟩)

/-- One request.  It always returns. -/
def allocStep (h : PageHistory) (howmany : UInt32) : Option PageHistory := some (h.allocpg howmany).2

/-- The memory `bmk_allocpg` is there to manage. -/
def PageState.managed (s : PageState) : Extent :=
  ⟨s.bmkMembase.toNat, s.bmkMemsize.toNat⟩

end RumpBaremetal
