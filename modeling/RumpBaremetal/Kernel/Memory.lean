/-
Module: RumpBaremetal.Kernel.Memory
Layer: Kernel
Purpose: The memory of the running kernel: the store of memalloc.c and kernel.c as `parsemem` leaves it to
  its clients, with a record of what they hold.  A client may ask for anything; it gives back only what it
  holds, and writes only there.
Trusted boundary: human-reviewed spec
Main exports: Live.extent, PageHistory.carries, Memory, Memory.boot, Memory.request, Memory.writeBytes,
  memoryEnabled, memoryStep
-/
import RumpBaremetal.Kernel.Store

namespace RumpBaremetal

open ByteMem

/-- The bytes of an allocation: its header, and as many as were asked for. -/
def Live.extent (l : Live) : Extent := ⟨l.rv.toNat - 8, 8 + l.nbytes.toNat⟩

/-- The request takes the product of `bmk_allocpg` past `2^32`, and what is left of it passes the check.
    [SRC kernel.c:23-24] -/
def PageHistory.carries (p : PageHistory) (howmany : UInt32) : Bool :=
  2 ^ 32 ≤ (p.pages.current * pageSize).toNat + howmany.toNat * 4096 ∧
    (p.pages.current + howmany) * pageSize ≤ p.pages.bmkMemsize

/-- The store, what its clients hold of it, the latest first, and whether a request has carried.  There is
    no way to give back a page run. -/
structure Memory where
  store : Store
  live : List Live
  taken : List PageGrant
  carried : Bool

/-- Before the first request, with anything in memory. -/
def Memory.boot (mem : ByteMem) (bmkMembase bmkMemsize : UInt32) : Memory :=
  ⟨.boot mem bmkMembase bmkMemsize, [], [], false⟩

namespace Memory

/-- What the clients hold in the heap after a request, from its answer and the memory it leaves. -/
def liveAfter (mem : ByteMem) (live : List Live) : StoreRequest → Answer → List Live
  | .memalloc nbytes align, .ptr rv =>
      if rv = 0 then live
      else
        let header := (rv - sizeofOverhead).toNat
        ⟨rv, nbytes, align, rv - load32 mem header, (mem (header + 5)).toNat⟩ :: live
  | .memfree cp, .done => live.eraseP fun l => l.rv = cp
  | _, _ => live

/-- The page runs that clients hold after a request, from its answer. -/
def takenAfter (taken : List PageGrant) : StoreRequest → Answer → List PageGrant
  | .allocpg howmany, .ptr rv => if rv = 0 then taken else ⟨rv, howmany⟩ :: taken
  | _, _ => taken

def request (m : Memory) (r : StoreRequest) : Memory :=
  match m.store.request r with
  | (answer, store) =>
      { store := store
        live := liveAfter store.heap.mem m.live r answer
        taken := takenAfter m.taken r answer
        carried := m.carried || (pagesAsked m.store r).any m.store.pages.carries }

/-- A client writes several bytes, from one address on. -/
def writeBytes (m : Memory) (addr : Nat) : List UInt8 → Memory
  | [] => m
  | byte :: rest => (m.request (.write addr byte)).writeBytes (addr + 1) rest

/-- A client holds the byte. -/
def Held (m : Memory) (addr : Nat) : Prop :=
  (∃ l ∈ m.live, l.rv.toNat ≤ addr ∧ addr < l.rv.toNat + l.nbytes.toNat) ∨
    ∃ g ∈ m.taken, g.extent.start ≤ addr ∧ addr < g.extent.fin

instance (m : Memory) (addr : Nat) : Decidable (m.Held addr) :=
  inferInstanceAs (Decidable ((∃ l ∈ m.live, _) ∨ ∃ g ∈ m.taken, _))

end Memory

/-- Requests fit into 32 bits with their header, and what is freed or written to is held. -/
def memoryEnabled (m : Memory) : StoreRequest → Prop
  | .memalloc nbytes align => nbytes.toNat + (headerRoom (effectiveAlign align)).toNat < 2 ^ 32
  | .memfree cp => cp = 0 ∨ ∃ l ∈ m.live, l.rv = cp
  | .allocpg _ => True
  | .write addr _ => m.Held addr

instance (m : Memory) : (r : StoreRequest) → Decidable (memoryEnabled m r)
  | .memalloc _ _ => inferInstanceAs (Decidable (_ < _))
  | .memfree _ => inferInstanceAs (Decidable (_ ∨ ∃ l ∈ m.live, _))
  | .allocpg _ => inferInstanceAs (Decidable True)
  | .write _ _ => inferInstanceAs (Decidable (m.Held _))

def memoryStep (m : Memory) (r : StoreRequest) : Option Memory :=
  if m.store.halted = false ∧ memoryEnabled m r then some (m.request r) else none

theorem memoryStep_inv {m m' : Memory} {r : StoreRequest} (h : memoryStep m r = some m') :
    m.store.halted = false ∧ memoryEnabled m r ∧ m' = m.request r := by
  unfold memoryStep at h
  split at h
  · rename_i hok
    exact ⟨hok.1, hok.2, (Option.some.inj h).symm⟩
  · cases h

end RumpBaremetal
