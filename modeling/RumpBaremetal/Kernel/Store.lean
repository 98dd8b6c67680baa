/-
Module: RumpBaremetal.Kernel.Store
Layer: Kernel
Purpose: memalloc.c on top of the page source of kernel.c, as one store that answers requests:
  `bmk_memalloc`, `bmk_memfree`, `bmk_allocpg`, and the clients' writes to memory in between.
Trusted boundary: human-reviewed spec
Main exports: Store, StoreRequest, Answer, Store.request, storeStep, answers, pagesAsked
-/
import RumpBaremetal.Kernel.Memalloc

namespace RumpBaremetal

/-- The number of pages of all requests that have been granted. -/
def PageHistory.total (h : PageHistory) : Nat := (h.granted.map fun g => g.howmany.toNat).sum

/-- The allocator and its page source.  `halted` is a failed assertion. -/
structure Store where
  heap : Heap
  pages : PageHistory
  halted : Bool

/-- Before the first request, with anything in memory. -/
def Store.boot (mem : ByteMem) (bmkMembase bmkMemsize : UInt32) : Store :=
  ⟨⟨mem, fun _ => 0, 0, 0⟩, .boot bmkMembase bmkMemsize, false⟩

inductive StoreRequest where
  | memalloc (nbytes align : UInt32)
  | memfree (cp : UInt32)
  | allocpg (howmany : UInt32)
  /-- A client writes to memory. -/
  | write (addr : Nat) (byte : UInt8)
deriving DecidableEq, Repr

inductive Answer where
  | ptr (rv : UInt32)
  | done
  | botched
deriving DecidableEq, Repr

namespace Store

/-- What a request is answered, and what it leaves. -/
def request (s : Store) : StoreRequest → Answer × Store
  | .memalloc nbytes align =>
      match bmkMemalloc PageHistory.allocpg s.heap s.pages nbytes align with
      | (rv, heap, pages) => (.ptr rv, { s with heap := heap, pages := pages })
  | .memfree cp =>
      match bmkMemfree s.heap cp with
      | some heap => (.done, { s with heap := heap })
      | none => (.botched, { s with halted := true })
  | .allocpg howmany =>
      match s.pages.allocpg howmany with
      | (rv, pages) => (.ptr rv, { s with pages := pages })
  | .write addr byte =>
      (.done, { s with heap := { s.heap with mem := Function.update s.heap.mem addr byte } })

/-- The answers to a sequence of requests; there are none after a failed assertion. -/
def answers : Store → List StoreRequest → List Answer
  | _, [] => []
  | s, r :: rs => if s.halted then [] else (s.request r).1 :: answers (s.request r).2 rs

end Store

def storeStep (s : Store) (r : StoreRequest) : Option Store :=
  if s.halted then none else some (s.request r).2

/-! ### What a request asks of the page source -/

/-- How many pages a request asks `bmk_allocpg` for, if it asks. -/
def pagesAsked (s : Store) : StoreRequest → Option UInt32
  | .memalloc nbytes align =>
      let h := initPagesz s.heap
      (classOf h nbytes align).bind fun bucket =>
        if h.nextf bucket = 0 then
          some (1 <<< UInt32.ofNat (if bucket < h.pagebucket then 0 else bucket - h.pagebucket))
        else none
  | .allocpg howmany => some howmany
  | .memfree _ => none
  | .write _ _ => none

end RumpBaremetal
