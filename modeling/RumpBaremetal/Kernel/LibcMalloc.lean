/-
Module: RumpBaremetal.Kernel.LibcMalloc
Layer: Kernel
Purpose: `bmk_memrealloc` and the functions of libc_malloc.c, which hand the allocator to libc.  The page
  source stays a parameter.  The second half extends the machine of the allocator and its clients with the
  two calls that do more than pass a request on: `realloc` and `calloc`.
Trusted boundary: human-reviewed spec
Main exports: bytesLeft, bmkMemrealloc, posixMemalign, malloc, calloc, realloc, free, Live.room, HeaderFits,
  bytesBehindHeader, LibcEvent, libcStep
-/
import RumpBaremetal.Kernel.Memalloc
import RumpBaremetal.Kernel.Subr

namespace RumpBaremetal

open ByteMem

/-- `(1<<(size+MINSHIFT)) - (alignpad+sizeof(*op))`, which `bmk_memrealloc` computes from the header below
    `cp`.
    [SRC memalloc.c:437-442] -/
def bytesLeft (h : Heap) (cp : UInt32) : UInt32 :=
  let op := (cp - sizeofOverhead).toNat
  let size := (h.mem (op + 5)).toNat
  let alignpad := load32 h.mem op
  (1 <<< UInt32.ofNat (size + minShift)) - (alignpad + sizeofOverhead)

section PageSource

variable {Pages : Type*} (allocpg : Pages → UInt32 → UInt32 × Pages)

/-- `bmk_memrealloc`; `none` is a failed assertion of `bmk_memfree`.  [SRC memalloc.c:415-453] -/
def bmkMemrealloc (h : Heap) (pages : Pages) (cp nbytes : UInt32) : Option (UInt32 × Heap × Pages) :=
  if cp = 0 then some (bmkMemalloc allocpg h pages nbytes 8)
  else if nbytes = 0 then (bmkMemfree h cp).map fun h => (0, h, pages)
  else
    -- class and padding are read before anything changes
    let left := bytesLeft h cp
    if left ≥ nbytes then some (cp, h, pages)
    else
      match bmkMemalloc allocpg h pages nbytes 8 with
      | (np, h, pages) =>
          if np = 0 then some (0, h, pages)
          else (bmkMemfree { h with mem := bmkMemcpy h.mem np cp left } cp).map fun h => (np, h, pages)

/-- The error, and `*rv`, which holds `p` before the call.  [SRC libc_malloc.c:6-18] -/
def posixMemalign (h : Heap) (pages : Pages) (p nbytes align : UInt32) : Int × UInt32 × Heap × Pages :=
  match bmkMemalloc allocpg h pages nbytes align with
  | (v, h, pages) => if v ≠ 0 then (0, v, h, pages) else (10, p, h, pages)

/-- [SRC libc_malloc.c:20-25] -/
def malloc (h : Heap) (pages : Pages) (size : UInt32) : UInt32 × Heap × Pages :=
  bmkMemalloc allocpg h pages size 8

/-- [SRC libc_malloc.c:27-38] -/
def calloc (h : Heap) (pages : Pages) (n size : UInt32) : UInt32 × Heap × Pages :=
  let tot := n * size
  match malloc allocpg h pages tot with
  | (v, h, pages) => if v ≠ 0 then (v, { h with mem := bmkMemset h.mem v 0 tot }, pages) else (v, h, pages)

/-- [SRC libc_malloc.c:40-45] -/
def realloc (h : Heap) (pages : Pages) (cp nbytes : UInt32) : Option (UInt32 × Heap × Pages) :=
  bmkMemrealloc allocpg h pages cp nbytes

end PageSource

/-- [SRC libc_malloc.c:47-52] -/
def free (h : Heap) (cp : UInt32) : Option Heap := bmkMemfree h cp

/-! ### The clients of libc -/

/-- An allocation with the block and the class that its header names. -/
def Live.ofHeader (mem : ByteMem) (rv nbytes align : UInt32) : Live :=
  ⟨rv, nbytes, align, rv - load32 mem (rv - sizeofOverhead).toNat,
    (mem ((rv - sizeofOverhead).toNat + 5)).toNat⟩

/-- The bytes from the pointer to the end of the block. -/
def Live.room (l : Live) : Nat := l.op.toNat + 2 ^ (l.bucket + 5) - l.rv.toNat

/-- The allocation after its size was changed in place.  No client of this machine runs over the end of a
    block: where the new size does not fit, the allocation counts with its old one. -/
def Live.resized (l : Live) (nbytes : UInt32) : Live :=
  if nbytes.toNat ≤ l.room then { l with nbytes := nbytes } else l

/-- The rounded header is not larger than the blocks of the class that the request gets. -/
def HeaderFits (h : Heap) (nbytes align : UInt32) : Prop :=
  ∀ cls ∈ classOf h nbytes align, (headerRoom (effectiveAlign align)).toNat ≤ 2 ^ (cls + 5)

instance (h : Heap) (nbytes align : UInt32) : Decidable (HeaderFits h nbytes align) := by
  unfold HeaderFits
  infer_instance

/-- What the block of the class that the request gets has behind the rounded header. -/
def bytesBehindHeader (h : Heap) (nbytes align : UInt32) : UInt32 :=
  match classOf h nbytes align with
  | none => 0
  | some cls => UInt32.ofNat (2 ^ (cls + 5) - (headerRoom (effectiveAlign align)).toNat)

/-- The live allocations after `realloc(cp, nbytes)` has returned `np` and left `mem`. -/
def reallocLive (live : List Live) (cp nbytes np : UInt32) (mem : ByteMem) : List Live :=
  if np = 0 then
    if nbytes = 0 then live.eraseP fun l => l.rv = cp else live
  else if np = cp then live.map fun l => if l.rv = cp then l.resized nbytes else l
  else Live.ofHeader mem np nbytes 8 :: live.eraseP fun l => l.rv = cp

inductive LibcEvent where
  /-- An allocation, a release or a write.  `malloc`, `posix_memalign` and `free` do nothing else to the
      heap. -/
  | heap (e : HeapEvent)
  /-- An allocation whose size wraps with its header. -/
  | wraps (nbytes align answer : UInt32)
  | realloc (cp nbytes answer : UInt32)
  | calloc (n size answer : UInt32)
deriving DecidableEq, Repr

/-- Requests fit into 32 bits with their header, or are allocations that have at least the header in their
    block; and only live pointers are passed to `realloc`.  The answer of the page source matters where it
    may be asked. -/
def libcEnabled (w : HeapWorld) : LibcEvent → Prop
  | .heap e => heapEnabled w e
  | .wraps nbytes align answer =>
      2 ^ 32 ≤ nbytes.toNat + (headerRoom (effectiveAlign align)).toNat ∧
        HeaderFits (initPagesz w.heap) nbytes align ∧
        GrantsGood (bmkMemalloc (answering answer) w.heap w.granted nbytes align).2.2
  | .realloc cp nbytes answer =>
      (cp = 0 ∨ ∃ l ∈ w.live, l.rv = cp) ∧ nbytes.toNat + 8 < 2 ^ 32 ∧
        (cp = 0 ∨ bytesLeft w.heap cp < nbytes →
          GrantsGood (bmkMemalloc (answering answer) w.heap w.granted nbytes 8).2.2)
  | .calloc n size answer =>
      n.toNat * size.toNat + 8 < 2 ^ 32 ∧ GrantsGood (calloc (answering answer) w.heap w.granted n size).2.2

instance (w : HeapWorld) : (e : LibcEvent) → Decidable (libcEnabled w e)
  | .heap e => inferInstanceAs (Decidable (heapEnabled w e))
  | .wraps _ _ _ => inferInstanceAs (Decidable (_ ∧ _ ∧ _))
  | .realloc _ _ _ => inferInstanceAs (Decidable ((_ ∨ ∃ l ∈ w.live, _) ∧ _ ∧ (_ → GrantsGood _)))
  | .calloc _ _ _ => inferInstanceAs (Decidable (_ ∧ _))

def libcEffect (w : HeapWorld) : LibcEvent → HeapWorld
  | .heap e => heapEffect w e
  | .wraps nbytes align answer =>
      match bmkMemalloc (answering answer) w.heap w.granted nbytes align with
      | (rv, heap, granted) =>
          -- the client is content with what the block has
          { w with
            heap := heap
            granted := granted
            live :=
              if rv = 0 then w.live
              else
                Live.ofHeader heap.mem rv (bytesBehindHeader (initPagesz w.heap) nbytes align) align ::
                  w.live }
  | .realloc cp nbytes answer =>
      match realloc (answering answer) w.heap w.granted cp nbytes with
      | none => { w with botched := true }
      | some (np, heap, granted) =>
          { w with heap := heap, granted := granted, live := reallocLive w.live cp nbytes np heap.mem }
  | .calloc n size answer =>
      match calloc (answering answer) w.heap w.granted n size with
      | (v, heap, granted) =>
          { w with
            heap := heap
            granted := granted
            live := if v = 0 then w.live else Live.ofHeader heap.mem v (n * size) 8 :: w.live }

def libcStep (w : HeapWorld) (e : LibcEvent) : Option HeapWorld :=
  if libcEnabled w e then some (libcEffect w e) else none

theorem libcStep_inv {w w' : HeapWorld} {e : LibcEvent} (h : libcStep w e = some w') :
    libcEnabled w e ∧ w' = libcEffect w e := by
  unfold libcStep at h
  split at h
  · rename_i hok
    exact ⟨hok, (Option.some.inj h).symm⟩
  · exact absurd h (by simp)

end RumpBaremetal
