/-
Module: RumpBaremetal.Kernel.Boot
Layer: Kernel
Purpose: The bootstrap of kernel.c: `parsemem`, which looks for the kernel's memory in the map that the
  loader has left, and `bmk_main` up to the point where the machine is set up.  The map is read from a byte
  memory, record by record, with the stride that each record gives for itself.
Trusted boundary: human-reviewed spec
Main exports: MultibootMmapEntry, entryAt, KernelImage, scanMem, PageState.fromEntry, ParsememExit,
  parsemem, MultibootInfo, Boot, MainExit, bmkMain, MapAt
-/
import RumpBaremetal.Kernel.Pages
import RumpBaremetal.Lib.ByteMem
import RumpBaremetal.Lib.Cursor

namespace RumpBaremetal

open ByteMem

/-! ### The memory map -/

/-- `MEMSTART` [SRC kernel.h:7] -/
def memstart : UInt64 := 0x100000

/-- `MULTIBOOT_MEMORY_AVAILABLE` [SRC multiboot.h:164] -/
def multibootMemoryAvailable : UInt32 := 1

/-- [SRC multiboot.h:160-167] -/
structure MultibootMmapEntry where
  size : UInt32
  addr : UInt64
  len : UInt64
  type : UInt32
deriving DecidableEq, Repr

/-- A doubleword, least significant word first. -/
def load64 (mem : ByteMem) (a : Nat) : UInt64 :=
  (load32 mem a).toUInt64 + (load32 mem (a + 4)).toUInt64 * 0x100000000

/-- The record behind a pointer; the structure is packed. -/
def entryAt (mem : ByteMem) (mbm : UInt32) : MultibootMmapEntry where
  size := load32 mem mbm.toNat
  addr := load64 mem (mbm + 4).toNat
  len := load64 mem (mbm + 12).toNat
  type := load32 mem (mbm + 20).toNat

namespace MultibootMmapEntry

/-- The test of the loop.  [SRC kernel.c:45-46] -/
def usable (e : MultibootMmapEntry) : Bool := e.addr = memstart && e.type = multibootMemoryAvailable

/-- `mbm->size + sizeof(mbm->size)` [SRC kernel.c:43] -/
def stride (e : MultibootMmapEntry) : UInt32 := e.size + 4

end MultibootMmapEntry

/-- `off < len` -/
def offInside (len off : UInt32) : Bool := off < len

/-- The record at `off` can be used. -/
def usableAt (mem : ByteMem) (addr off : UInt32) : Bool := (entryAt mem (addr + off)).usable

/-- The offset behind the record at `off`. -/
def nextOff (mem : ByteMem) (addr off : UInt32) : UInt32 := off + (entryAt mem (addr + off)).stride

/-- The loop of `parsemem` from an offset on, for a number of rounds: the offsets of the records it has
    looked at, and `off` behind it.  [SRC kernel.c:43-49] -/
def scanMem (mem : ByteMem) (addr len : UInt32) (rounds : Nat) (off : UInt32) :
    Option (List UInt32 × UInt32) :=
  Cursor.walk (offInside len) (usableAt mem addr) (nextOff mem addr) rounds off

/-- Where the linker has put `_begin` and `_end`.  The script defines `_end` last.  [SRC
    kern.ldscript:6-41] -/
structure KernelImage where
  imageBegin : UInt32
  imageEnd : UInt32
  begin_le_end : imageBegin ≤ imageEnd

/-- `ossize` [SRC kernel.c:53-55] -/
def KernelImage.ossize (img : KernelImage) : UInt32 := roundPage img.imageEnd - img.imageBegin

/-- The globals that `parsemem` computes from the record it has found.  [SRC kernel.c:52-58] -/
def PageState.fromEntry (pages : PageState) (img : KernelImage) (mbm : MultibootMmapEntry) : PageState :=
  let memsize := mbm.len.toUInt32
  { pages with
    bmkMembase := (mbm.addr + img.ossize.toUInt64).toUInt32
    bmkMemsize := memsize - img.ossize }

inductive ParsememExit where
  /-- The return value, and the globals as it leaves them. -/
  | returned (rv : Int) (pages : PageState)
  /-- `assert(off < len)` has failed. -/
  | asserted
  /-- The loop does not end. -/
  | endless
deriving DecidableEq, Repr

/-- `parsemem`.  There are `2^32` offsets, so a loop that has not ended after as many rounds never ends.
    [SRC kernel.c:30-61] -/
def parsemem (mem : ByteMem) (img : KernelImage) (pages : PageState) (addr len : UInt32) : ParsememExit :=
  match scanMem mem addr len (2 ^ 32) 0 with
  | none => .endless
  | some (_, off) =>
      if off < len then .returned 0 (pages.fromEntry img (entryAt mem (addr + off)))
      else .asserted

/-! ### `bmk_main` -/

/-- `MULTIBOOT_MEMORY_INFO`, a flag of the multiboot header [SRC multiboot.h:44] -/
def multibootMemoryInfo : UInt32 := 0x00000002

/-- `MULTIBOOT_INFO_MEM_MAP`, a flag of the multiboot info structure [SRC multiboot.h:58] -/
def multibootInfoMemMap : UInt32 := 0x00000040

/-- The fields of `struct multiboot_info` that are read.  [SRC multiboot.h:111-158] -/
structure MultibootInfo where
  flags : UInt32
  mmapLength : UInt32
  mmapAddr : UInt32
deriving DecidableEq, Repr

/-- The globals, and the strings that were passed to `bmk_cons_puts`, in order. -/
structure Boot where
  pages : PageState
  console : List String
deriving DecidableEq, Repr

def Boot.puts (s : Boot) (str : String) : Boot := { s with console := s.console ++ [str] }

inductive MainExit where
  | returned
  /-- The memory is known and `bmk_cpu_init` is called.  Nothing behind this point looks at the info
      structure. -/
  | started
  | asserted
  | endless
deriving DecidableEq, Repr

/-- [SRC kernel.c:67] -/
def banner : String := "rump kernel bare metal bootstrap\n\n"

/-- `bmk_main` behind the call of `parsemem`.  [SRC kernel.c:72-76, kernel.h:14-19] -/
def afterParsemem (s : Boot) : ParsememExit → MainExit × Boot
  | .returned rv pages =>
      let s := { s with pages := pages }
      if rv ≠ 0 then (.returned, s) else (.started, s)
  | .asserted => (.asserted, s.puts "assert \"off < len\" FAILED\n")
  | .endless => (.endless, s)

/-- [SRC kernel.c:63-82] -/
def bmkMain (mem : ByteMem) (img : KernelImage) (mbi : MultibootInfo) (s : Boot) : MainExit × Boot :=
  let s := s.puts banner
  if mbi.flags &&& multibootMemoryInfo = 0 then (.returned, s.puts "multiboot memory info not available\n")
  else afterParsemem s (parsemem mem img s.pages mbi.mmapAddr mbi.mmapLength)

/-! ### Well-formed maps -/

/-- The records lie back to back from a pointer on. -/
def MapAt (mem : ByteMem) : UInt32 → List MultibootMmapEntry → Prop
  | _, [] => True
  | p, e :: entries => entryAt mem p = e ∧ MapAt mem (p + e.stride) entries

instance decidableMapAt (mem : ByteMem) :
    (p : UInt32) → (entries : List MultibootMmapEntry) → Decidable (MapAt mem p entries)
  | _, [] => inferInstanceAs (Decidable True)
  | p, e :: entries =>
      have := decidableMapAt mem (p + e.stride) entries
      inferInstanceAs (Decidable (_ ∧ _))

/-- The number of bytes that the records take. -/
def mapBytes (entries : List MultibootMmapEntry) : Nat := (entries.map fun e => e.size.toNat + 4).sum

end RumpBaremetal
