/-
Module: RumpBaremetal.Kernel.LibcEmul
Layer: Kernel
Purpose: The emulation of `mmap` in libc_emul.c: memory of the allocator, filled from the file for a mapping
  of one.  The numbers of the C headers are a parameter, and so is what `pread` answers.
Trusted boundary: human-reviewed spec
Main exports: Mman, PreadReply, MmapExit, mapFailed, mmap, munmap, Heap.nextBlock, fileData
-/
import RumpBaremetal.Kernel.LibcMalloc
import RumpBaremetal.Kernel.Rumpuser

namespace RumpBaremetal

/-- `PROT_READ`, `MAP_ANON` and `ENOTSUP`, which come with the headers of libc. -/
structure Mman where
  protRead : Int32
  mapAnon : Int32
  enotsup : Int
deriving DecidableEq, Repr

/-- `MAP_FAILED`, which is `(void *)-1`. -/
def mapFailed : UInt32 := 0xffffffff

/-- The bytes that `pread` has read: as many as were asked for at most, and as many as an `ssize_t` can
    count. -/
structure PreadReply (len : UInt32) where
  data : List UInt8
  length_le : data.length ≤ len.toNat
  length_lt : data.length < 2 ^ 31

/-- The pointer, `errno`, the heap and the page source. -/
structure MmapExit (Pages : Type*) where
  rv : UInt32
  errno : Int
  heap : Heap
  pages : Pages

section PageSource

variable {Pages : Type*} (allocpg : Pages → UInt32 → UInt32 × Pages)

/-- `pread` answers with the number of an error or with bytes of the file.  The result is `none` if an
    assertion of `bmk_memfree` fails.  [SRC libc_emul.c:24-51] -/
def mmap (c : Mman) (h : Heap) (pages : Pages) (errno : Int) (_addr len : UInt32) (prot flags fd : Int32)
    (_off : Int64) (pread : Except Int (PreadReply len)) : Option (MmapExit Pages) :=
  if fd ≠ -1 ∧ prot ≠ c.protRead then some ⟨mapFailed, c.enotsup, h, pages⟩
  else
    match posixMemalign allocpg h pages 0 len 0x1000 with
    | (error, v, h, pages) =>
        if error ≠ 0 then some ⟨mapFailed, error, h, pages⟩
        else if flags &&& c.mapAnon ≠ 0 then some ⟨v, errno, h, pages⟩
        else
          match pread with
          | .error error => (free h v).map fun h => ⟨mapFailed, error, h, pages⟩
          | .ok reply => some ⟨v, errno, { h with mem := storeBytes h.mem v reply.data }, pages⟩

end PageSource

/-- The return value and the heap.  [SRC libc_emul.c:70-76] -/
def munmap (h : Heap) (addr _len : UInt32) : Option (Int × Heap) := (free h addr).map fun h => (0, h)

/-- The block that a request of a class gets: the first of its free list, or the page run that the page
    source has for it if the list is empty. -/
def Heap.nextBlock (h : Heap) (answer : UInt32) (cls : Nat) : UInt32 :=
  if h.nextf cls = 0 then answer else h.nextf cls

/-- The bytes of the file that a mapping starts with: none for an anonymous one. -/
def fileData (c : Mman) (flags : Int32) {len : UInt32} (pread : Except Int (PreadReply len)) : List UInt8 :=
  if flags &&& c.mapAnon ≠ 0 then []
  else
    match pread with
    | .error _ => []
    | .ok reply => reply.data

end RumpBaremetal
