/-
Module: RumpBaremetal.Kernel.Memalloc
Layer: Kernel
Purpose: The allocator of memalloc.c with the sizes of i386: power-of-two blocks cut from page runs, one
  free list for each size class, threaded through the first word of the free blocks, and an eight-byte
  header below each pointer handed out.  The page source is a parameter.  The second half puts the
  allocator together with clients that allocate, free what is live and write into what is live.
Trusted boundary: human-reviewed spec
Main exports: Heap, pageClass, sizeSearch, searchStart, headerRoom, classOf, carve, morecore, bmkMemalloc,
  memfreeExit, bmkMemfree, Live, HeapWorld, HeapEvent, heapStep
-/
import RumpBaremetal.Kernel.Pages
import RumpBaremetal.Lib.ByteMem

namespace RumpBaremetal

open ByteMem

/-- `MAGIC` [SRC memalloc.c:104] -/
def magic : UInt8 := 0xef

/-- `MINSHIFT` [SRC memalloc.c:122] -/
def minShift : Nat := 5

/-- `NBUCKETS` [SRC memalloc.c:123] -/
def nbuckets : Nat := 30

/-- `sizeof(union overhead)`: the padding word, the magic byte, the index byte, and two bytes of
    structure padding.  [SRC memalloc.c:86-102] -/
def sizeofOverhead : UInt32 := 8

/-- The static data of memalloc.c and the memory it works on.  `pagesz` is `0` until the first
    call.  [SRC memalloc.c:124-127] -/
structure Heap where
  mem : ByteMem
  nextf : Nat → UInt32
  pagesz : UInt32
  pagebucket : Nat

/-- The loop that finds `pagebucket`; 32 shifts empty any word.  [SRC memalloc.c:220-226] -/
def pageClass (pagesz : UInt32) : Nat → UInt32 → Nat → Nat
  | 0, _, bucket => bucket
  | shifts + 1, amt, bucket =>
      if pagesz > amt then pageClass pagesz shifts (amt <<< 1) (bucket + 1) else bucket

/-- [SRC memalloc.c:203-227] -/
def initPagesz (h : Heap) : Heap :=
  if h.pagesz = 0 then
    { h with pagesz := pageSize, pagebucket := pageClass pageSize 32 (1 <<< UInt32.ofNat minShift) 0 }
  else h

/-- How the search for the size class ends. -/
inductive SearchExit where
  /-- The shift has emptied `amt`. -/
  | null
  | found (amt : UInt32) (bucket : Nat)
deriving DecidableEq, Repr

/-- The class that the search has found. -/
def SearchExit.cls : SearchExit → Option Nat
  | .null => none
  | .found _ bucket => some bucket

/-- The search for the size class, round by round; `none` says that it goes on after so many of them.
    [SRC memalloc.c:254-259] -/
def sizeSearch (allocbytes : UInt32) : Nat → UInt32 → Nat → Option SearchExit
  | 0, _, _ => none
  | rounds + 1, amt, bucket =>
      if allocbytes > amt then
        let amt := amt <<< 1
        if amt = 0 then some .null else sizeSearch allocbytes rounds amt (bucket + 1)
      else some (.found amt bucket)

/-- The size and the class that `bmk_memalloc` starts the search from: the smallest ones, or those of a
    page.
    [SRC memalloc.c:242-253] -/
def searchStart (h : Heap) (allocbytes : UInt32) : UInt32 × Nat :=
  if allocbytes ≤ h.pagesz then (1 <<< UInt32.ofNat minShift, 0) else (h.pagesz, h.pagebucket)

/-- The header rounded up to the alignment.  [SRC memalloc.c:235] -/
def headerRoom (align : UInt32) : UInt32 := (sizeofOverhead + (align - 1)) &&& ~~~(align - 1)

/-- The alignment that `bmk_memalloc` works with.  [SRC memalloc.c:231-232] -/
def effectiveAlign (align : UInt32) : UInt32 := if align < 4 then 4 else align

/-- The size class that `bmk_memalloc` settles on, or `none` where it returns `NULL` before it looks at a
    free list; for a heap whose page size is set up.  The search is over after 33 rounds, whatever its
    start: so many shifts empty any word.  [SRC memalloc.c:229-259] -/
def classOf (h : Heap) (nbytes align : UInt32) : Option Nat :=
  if align &&& (align - 1) ≠ 0 then none
  else
    let allocbytes := nbytes + headerRoom (effectiveAlign align)
    let (amt, bucket) := searchStart h allocbytes
    (sizeSearch allocbytes 33 amt bucket).bind SearchExit.cls

/-- Write the header of an allocated block at `op`.  [SRC memalloc.c:282-285] -/
def writeHeader (mem : ByteMem) (op : Nat) (bucket : Nat) (alignpad : UInt32) : ByteMem :=
  store32 (Function.update (Function.update mem (op + 4) magic) (op + 5) (UInt8.ofNat bucket)) op
    alignpad

/-- The loop of `morecore` that threads the new blocks, with `rest` of them behind `op`.
    [SRC memalloc.c:357-362] -/
def carve (mem : ByteMem) (op sz : UInt32) : Nat → ByteMem
  | 0 => store32 mem op.toNat 0
  | rest + 1 => carve (store32 mem op.toNat (op + sz)) (op + sz) sz rest

section PageSource

variable {Pages : Type*} (allocpg : Pages → UInt32 → UInt32 × Pages)

/-- [SRC memalloc.c:314-326] -/
def corealloc (pages : Pages) (shift : Nat) : UInt32 × Pages :=
  allocpg pages (1 <<< UInt32.ofNat shift)

/-- [SRC memalloc.c:331-363] -/
def morecore (h : Heap) (pages : Pages) (bucket : Nat) : Heap × Pages :=
  let small := bucket < h.pagebucket
  let nblks := if small then h.pagesz / (1 <<< UInt32.ofNat (bucket + minShift)) else 1
  let sz := if small then h.pagesz / nblks else 0
  let amt := if small then 0 else bucket - h.pagebucket
  match corealloc allocpg pages amt with
  | (op, pages) =>
      if op = 0 then (h, pages)
      else
        ({ h with
            nextf := Function.update h.nextf bucket op
            mem := carve h.mem op sz (nblks.toNat - 1) }, pages)

/-- The last part of `bmk_memalloc`, for a block at `op` that heads its free list.
    [SRC memalloc.c:271-285] -/
def takeBlock (h : Heap) (bucket : Nat) (op align : UInt32) : UInt32 × Heap :=
  let rv := (op + sizeofOverhead + (align - 1)) &&& ~~~(align - 1)
  (rv,
    { h with
      nextf := Function.update h.nextf bucket (load32 h.mem op.toNat)
      mem := writeHeader h.mem (rv - sizeofOverhead).toNat bucket (rv - op) })

/-- `bmk_memalloc`: the pointer, `0` for `NULL`, and the state afterwards.  [SRC memalloc.c:191-301] -/
def bmkMemalloc (h : Heap) (pages : Pages) (nbytes align : UInt32) : UInt32 × Heap × Pages :=
  let h := initPagesz h
  match classOf h nbytes align with
  | none => (0, h, pages)
  | some bucket =>
      let (h, pages) := if h.nextf bucket = 0 then morecore allocpg h pages bucket else (h, pages)
      let op := h.nextf bucket
      if op = 0 then (0, h, pages)
      else
        let (rv, h) := takeBlock h bucket op (effectiveAlign align)
        (rv, h, pages)

end PageSource

/-- Where `bmk_memfree` leaves. -/
inductive MemfreeExit where
  | null
  /-- The return behind the check of the magic byte. -/
  | sanity
  /-- The assertion fails. -/
  | botched
  | freed
deriving DecidableEq, Repr

/-- The tests of `bmk_memfree`.  [SRC memalloc.c:373-391] -/
def memfreeExit (h : Heap) (cp : UInt32) : MemfreeExit :=
  if cp = 0 then .null
  else
    let op := (cp - sizeofOverhead).toNat
    if h.mem (op + 4) ≠ magic then .sanity
    else if (h.mem (op + 5)).toNat < nbuckets then .freed
    else .botched

/-- `bmk_memfree`; `none` is a failed assertion.  [SRC memalloc.c:365-413] -/
def bmkMemfree (h : Heap) (cp : UInt32) : Option Heap :=
  match memfreeExit h cp with
  | .null => some h
  | .sanity => some h
  | .botched => none
  | .freed =>
      let op := (cp - sizeofOverhead).toNat
      let size := (h.mem (op + 5)).toNat
      let alignpad := load32 h.mem op
      let origp := cp - alignpad
      some { h with
        mem := store32 h.mem origp.toNat (h.nextf size)
        nextf := Function.update h.nextf size origp }

/-! ### The allocator and its clients -/

/-- An allocation that has not been freed: what was asked for, the pointer, and the block and class that
    its header named when it was handed out. -/
structure Live where
  rv : UInt32
  nbytes : UInt32
  align : UInt32
  op : UInt32
  bucket : Nat
deriving DecidableEq, Repr

/-- The heap with a record of the page runs it has been granted and of what is live, the latest first.
    `botched` says that the assertion of `bmk_memfree` has failed. -/
structure HeapWorld where
  heap : Heap
  granted : List PageGrant
  live : List Live
  botched : Bool

/-- Before the first call, with anything in memory. -/
def HeapWorld.boot (mem : ByteMem) : HeapWorld :=
  ⟨⟨mem, fun _ => 0, 0, 0⟩, [], [], false⟩

/-- The page source of a run: it gives the answer it is told to, and keeps a record. -/
def answering (answer : UInt32) (granted : List PageGrant) (howmany : UInt32) :
    UInt32 × List PageGrant :=
  if answer = 0 then (0, granted) else (answer, ⟨answer, howmany⟩ :: granted)

/-- What the allocator may rely on: page runs are page-aligned, end below `2^32`, and are apart. -/
def GrantsGood (granted : List PageGrant) : Prop :=
  (∀ g ∈ granted, g.rv.toNat % 4096 = 0 ∧ g.extent.fin < 2 ^ 32) ∧
    granted.Pairwise fun g g' => g.extent.Apart g'.extent

instance (granted : List PageGrant) : Decidable (GrantsGood granted) :=
  inferInstanceAs (Decidable (_ ∧ _))

inductive HeapEvent where
  /-- A call of `bmk_memalloc`, with what `bmk_allocpg` answers should it be asked. -/
  | alloc (nbytes align answer : UInt32)
  | free (cp : UInt32)
  | write (addr : Nat) (byte : UInt8)
deriving DecidableEq, Repr

/-- Requests fit into 32 bits with their header, only live pointers are freed, and clients write into
    live payloads only. -/
def heapEnabled (w : HeapWorld) : HeapEvent → Prop
  | .alloc nbytes align answer =>
      nbytes.toNat + (headerRoom (effectiveAlign align)).toNat < 2 ^ 32 ∧
        GrantsGood (bmkMemalloc (answering answer) w.heap w.granted nbytes align).2.2
  | .free cp => ∃ l ∈ w.live, l.rv = cp
  | .write addr _ => ∃ l ∈ w.live, l.rv.toNat ≤ addr ∧ addr < l.rv.toNat + l.nbytes.toNat

instance (w : HeapWorld) : (e : HeapEvent) → Decidable (heapEnabled w e)
  | .alloc _ _ _ => inferInstanceAs (Decidable (_ ∧ _))
  | .free _ => inferInstanceAs (Decidable (∃ l ∈ w.live, _))
  | .write _ _ => inferInstanceAs (Decidable (∃ l ∈ w.live, _))

def heapEffect (w : HeapWorld) : HeapEvent → HeapWorld
  | .alloc nbytes align answer =>
      match bmkMemalloc (answering answer) w.heap w.granted nbytes align with
      | (rv, heap, granted) =>
          let header := (rv - sizeofOverhead).toNat
          { w with
            heap := heap
            granted := granted
            live :=
              if rv = 0 then w.live
              else ⟨rv, nbytes, align, rv - load32 heap.mem header, (heap.mem (header + 5)).toNat⟩ ::
                w.live }
  | .free cp =>
      match bmkMemfree w.heap cp with
      | some heap => { w with heap := heap, live := w.live.eraseP fun l => l.rv = cp }
      | none => { w with botched := true }
  | .write addr byte => { w with heap := { w.heap with mem := Function.update w.heap.mem addr byte } }

def heapStep (w : HeapWorld) (e : HeapEvent) : Option HeapWorld :=
  if heapEnabled w e then some (heapEffect w e) else none

theorem heapStep_inv {w w' : HeapWorld} {e : HeapEvent} (h : heapStep w e = some w') :
    heapEnabled w e ∧ w' = heapEffect w e := by
  unfold heapStep at h
  split at h
  · rename_i hok
    exact ⟨hok, (Option.some.inj h).symm⟩
  · exact absurd h (by simp)

end RumpBaremetal
