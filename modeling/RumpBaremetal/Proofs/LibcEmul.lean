/-
Module: RumpBaremetal.Proofs.LibcEmul
Layer: Proofs
Purpose: What is in the memory that `mmap` returns.  Nothing clears it: behind the bytes of the file it is
  what the memory held before the call, on every heap that clients of libc can reach.  So a mapping is clean
  exactly where that was zero, and two heaps that differ in the contents of free blocks alone give different
  mappings unless no such byte is part of them.
Trusted boundary: none (fully proved)
Main exports: mmap_inv, mmap_served, PageServed, HeapInv.pageRequest, MappingClean, Layout.Stale,
  SameButStale, ZeroBefore, NoneStale, munmap_mapping, mmap_clean_iff
-/
import RumpBaremetal.Kernel.LibcEmul
import RumpBaremetal.Proofs.LibcMalloc
import RumpBaremetal.Proofs.Subr

namespace RumpBaremetal

open ByteMem StepSystem

/-! ### One call -/

section Call

variable {Pages : Type*} (allocpg : Pages → UInt32 → UInt32 × Pages) {c : Mman} {h : Heap} {pages : Pages}
  {errno : Int} {addr₀ len : UInt32} {prot flags fd : Int32} {off : Int64}
  {pread : Except Int (PreadReply len)}

/-- The arguments are those of a supported mapping, and the file can be read if it is one of a file. -/
structure Supported (c : Mman) (prot flags fd : Int32) {len : UInt32}
    (pread : Except Int (PreadReply len)) : Prop where
  mode : ¬(fd ≠ -1 ∧ prot ≠ c.protRead)
  readable : flags &&& c.mapAnon ≠ 0 ∨ ∃ reply, pread = .ok reply

theorem length_fileData (c : Mman) (flags : Int32) (pread : Except Int (PreadReply len)) :
    (fileData c flags pread).length ≤ len.toNat := by
  unfold fileData
  split
  · exact Nat.zero_le _
  · cases pread with
    | error e => exact Nat.zero_le _
    | ok reply => exact reply.length_le

theorem length_fileData_lt (c : Mman) (flags : Int32) (pread : Except Int (PreadReply len)) :
    (fileData c flags pread).length < 2 ^ 31 := by
  unfold fileData
  split
  · exact Nat.two_pow_pos 31
  · cases pread with
    | error e => exact Nat.two_pow_pos 31
    | ok reply => exact reply.length_lt

/-- The heap and the page source are left as `bmk_memalloc` leaves them. -/
theorem posixMemalign_rest (p nbytes align : UInt32) :
    (posixMemalign allocpg h pages p nbytes align).2.2 = (bmkMemalloc allocpg h pages nbytes align).2 := by
  by_cases hnull : (bmkMemalloc allocpg h pages nbytes align).1 = 0
  · rw [posixMemalign_refused allocpg hnull]
  · rw [posixMemalign_served allocpg hnull]

/-- A supported mapping for which there is memory. -/
theorem mmap_served (hmode : Supported c prot flags fd pread)
    (hne : (bmkMemalloc allocpg h pages len 0x1000).1 ≠ 0) :
    mmap allocpg c h pages errno addr₀ len prot flags fd off pread =
      some ⟨(bmkMemalloc allocpg h pages len 0x1000).1, errno,
        { (bmkMemalloc allocpg h pages len 0x1000).2.1 with
          mem :=
            storeBytes (bmkMemalloc allocpg h pages len 0x1000).2.1.mem
              (bmkMemalloc allocpg h pages len 0x1000).1 (fileData c flags pread) },
        (bmkMemalloc allocpg h pages len 0x1000).2.2⟩ := by
  simp only [mmap, if_neg hmode.mode, posixMemalign_served allocpg hne, ne_eq, not_true_eq_false, if_false,
    fileData]
  by_cases hanon : flags &&& c.mapAnon = 0
  · obtain ⟨reply, rfl⟩ := hmode.readable.resolve_left (not_not.mpr hanon)
    simp only [hanon, not_true_eq_false, if_false]
  · simp only [hanon, not_false_eq_true, if_true, storeBytes]

/-- A mapping that was made. -/
theorem mmap_inv {out : MmapExit Pages}
    (hcall : mmap allocpg c h pages errno addr₀ len prot flags fd off pread = some out)
    (hok : out.rv ≠ mapFailed) :
    Supported c prot flags fd pread ∧ (bmkMemalloc allocpg h pages len 0x1000).1 ≠ 0 := by
  by_cases hmode : fd ≠ -1 ∧ prot ≠ c.protRead
  · rw [mmap, if_pos hmode] at hcall
    cases hcall
    exact absurd rfl hok
  by_cases hnull : (bmkMemalloc allocpg h pages len 0x1000).1 = 0
  · simp only [mmap, if_neg hmode, posixMemalign_refused allocpg hnull, ne_eq,
      show ¬(10 : Int) = 0 by decide, not_false_eq_true, if_true] at hcall
    cases hcall
    exact absurd rfl hok
  refine ⟨⟨hmode, ?_⟩, hnull⟩
  by_contra hread
  rw [not_or, not_not] at hread
  cases pread with
  | ok reply => exact hread.2 ⟨reply, rfl⟩
  | error e =>
      simp only [mmap, if_neg hmode, posixMemalign_served allocpg hnull, ne_eq, not_true_eq_false, if_false,
        hread.1]
        at hcall
      obtain ⟨h', -, rfl⟩ := Option.map_eq_some_iff.mp hcall
      exact hok rfl

end Call

/-! ### A request for pages -/

/-- The heap with other contents in memory. -/
def Heap.setMem (h : Heap) (mem : ByteMem) : Heap := { h with mem := mem }

theorem Heap.setMem_self (h : Heap) : h.setMem h.mem = h := rfl

theorem initPagesz_setMem (h : Heap) (mem : ByteMem) :
    initPagesz (h.setMem mem) = (initPagesz h).setMem mem := by
  by_cases hfirst : h.pagesz = 0
  · simp only [initPagesz, Heap.setMem, hfirst, if_true]
  · simp only [initPagesz, Heap.setMem, hfirst, if_false]

theorem classOf_setMem (h : Heap) (mem : ByteMem) (nbytes align : UInt32) :
    classOf (h.setMem mem) nbytes align = classOf h nbytes align := by
  have hstart : ∀ allocbytes, searchStart (h.setMem mem) allocbytes = searchStart h allocbytes :=
    fun _ => rfl
  simp only [classOf, hstart]

/-- Memory with the links that `morecore` stores, if it is called for the class. -/
def Heap.linked (h : Heap) (answer : UInt32) (cls : Nat) (mem : ByteMem) : ByteMem :=
  if h.nextf cls = 0 then carve mem answer (UInt32.ofNat (2 ^ (cls + 5))) (2 ^ (7 - cls) - 1) else mem

/-- The pointer at the start of a page that is cut from a block. -/
def pageBehind (op : UInt32) : UInt32 := roundPage (op + sizeofOverhead)

/-- The block of a request for pages: from the free list of its class, or a page run that is new. -/
structure PageServed (L : Layout) (h : Heap) (answer len : UInt32) (cls : Nat) : Prop where
  cls_eq : classOf (initPagesz h) len 0x1000 = some cls
  cls_le : cls ≤ 26
  least : cls = leastClass ((len.toNat + 4096) % 2 ^ 32)
  base : 2 ^ (min cls 7 + 5) ∣ (h.nextBlock answer cls).toNat
  below : (h.nextBlock answer cls).toNat + 2 ^ (cls + 5) + 4096 ≤ 2 ^ 32
  nonNull : h.nextBlock answer cls ≠ 0
  /-- A new run is page-aligned, and apart from the old ones. -/
  fresh : h.nextf cls = 0 → answer.toNat % 4096 = 0 ∧
    ∀ r ∈ L.runs, Extent.Apart ⟨answer.toNat, 2 ^ (7 - cls) * 2 ^ (cls + 5)⟩ r.grant.extent

/-- The list of a class starts with a free block. -/
theorem HeapInv.head_free {L : Layout} {h : Heap} {live : List Live} (inv : HeapInv L h live) {cls : Nat}
    (hop : h.nextf cls ≠ 0) : (h.nextf cls).toNat ∈ L.free cls := by
  obtain ⟨-, rest, hfree⟩ := inv.head_block hop
  rw [hfree]
  exact List.mem_cons_self

/-- The stride of the loop does not matter for a single block. -/
theorem carve_stride (mem : ByteMem) (op : UInt32) {sz sz' : UInt32} {rest : Nat}
    (h : rest ≠ 0 → sz = sz') :
    carve mem op sz rest = carve mem op sz' rest := by
  cases rest with
  | zero => rfl
  | succ rest => rw [h (Nat.succ_ne_zero rest)]

/-- What is left of a request when its list is empty and there is a page run. -/
theorem serve_fresh {h : Heap} (granted : List PageGrant) (hsz : h.pagesz = pageSize)
    (hbucket : h.pagebucket = 7) {cls : Nat} (hcls : cls ≤ 26) (hempty : h.nextf cls = 0)
    {answer : UInt32} (hanswer : answer ≠ 0) (align : UInt32) :
    ∃ h' howmany, h'.mem = h.linked answer cls h.mem ∧ howmany.toNat = 2 ^ (cls - 7) ∧
      serve (answering answer) h granted cls align =
        ((takeBlock h' cls answer align).1, (takeBlock h' cls answer align).2,
          ⟨answer, howmany⟩ :: granted) := by
  obtain ⟨howmany, sz, hpages, hblk, heq⟩ := morecore_granted granted hcls hsz hbucket hanswer
  have hsize : 2 ^ (7 - cls) - 1 ≠ 0 → sz = UInt32.ofNat (2 ^ (cls + 5)) := by
    intro hmany
    have hlarge := largest_block hcls
    apply UInt32.toNat_inj.mp
    rw [hblk hmany, UInt32.toNat_ofNat_of_lt' (show _ < 2 ^ 32 by omega)]
  refine ⟨{ h with nextf := Function.update h.nextf cls answer, mem := h.linked answer cls h.mem }, howmany,
    rfl, hpages, ?_⟩
  simp only [serve, refill, if_pos hempty, heq, Function.update_self, if_neg hanswer, Heap.linked,
    carve_stride h.mem answer hsize]

theorem serve_recycled (h : Heap) (granted : List PageGrant) {cls : Nat} (hop : h.nextf cls ≠ 0)
    (answer align : UInt32) :
    serve (answering answer) h granted cls align =
      ((takeBlock h cls (h.nextf cls) align).1, (takeBlock h cls (h.nextf cls) align).2, granted) := by
  simp only [serve, refill, if_neg hop]

theorem serve_exhausted {h : Heap} (granted : List PageGrant) (hsz : h.pagesz = pageSize)
    (hbucket : h.pagebucket = 7) {cls : Nat} (hcls : cls ≤ 26) (hempty : h.nextf cls = 0) (align : UInt32) :
    (serve (answering 0) h granted cls align).1 = 0 := by
  simp only [serve, refill, if_pos hempty, morecore_denied granted hcls hsz hbucket]

/-- What the allocator leaves in memory for a page-aligned pointer. -/
def Heap.handedOut (h : Heap) (answer : UInt32) (cls : Nat) (mem : ByteMem) : ByteMem :=
  writeHeader (h.linked answer cls mem) (pageBehind (h.nextBlock answer cls) - sizeofOverhead).toNat cls
    (pageBehind (h.nextBlock answer cls) - h.nextBlock answer cls)

/-- The pointer to a page, and its header. -/
theorem takeBlock_page (h : Heap) (cls : Nat) (op : UInt32) :
    (takeBlock h cls op 0x1000).1 = pageBehind op ∧
      (takeBlock h cls op 0x1000).2.mem =
        writeHeader h.mem (pageBehind op - sizeofOverhead).toNat cls (pageBehind op - op) :=
  ⟨rfl, rfl⟩

section PageRequest

variable {L : Layout} {h : Heap} {live : List Live} {granted : List PageGrant} {len answer : UInt32}
  {cls : Nat}

/-- A new page run. -/
theorem HeapInv.served_fresh (hsz : h.pagesz = pageSize) (hbucket : h.pagebucket = 7)
    (hgranted : L.runs.map (·.grant) = granted)
    (hclass : classOf (RumpBaremetal.initPagesz h) len 0x1000 = some cls) (hcls : cls ≤ 26)
    (hleast : cls = leastClass ((len.toNat + 4096) % 2 ^ 32)) (hempty : h.nextf cls = 0)
    (hanswer : answer ≠ 0)
    (hgood : GrantsGood (RumpBaremetal.serve (answering answer) h granted cls 0x1000).2.2) :
    PageServed L h answer len cls := by
  have hblock : h.nextBlock answer cls = answer := if_pos hempty
  obtain ⟨h₁, howmany, -, hpages, heq⟩ := serve_fresh granted hsz hbucket hcls hempty hanswer 0x1000
  rw [heq] at hgood
  obtain ⟨heach, hpairs⟩ := hgood
  obtain ⟨haligned, hbelow⟩ := heach _ List.mem_cons_self
  have hextent : PageGrant.extent ⟨answer, howmany⟩ = ⟨answer.toNat, 2 ^ (7 - cls) * 2 ^ (cls + 5)⟩ := by
    simp only [PageGrant.extent, hpages, class_sizes]
  obtain ⟨r, hr, rfl⟩ : ∃ r : PageRun, r.grant = ⟨answer, howmany⟩ ∧ r.cls = cls :=
    ⟨⟨⟨answer, howmany⟩, cls, hcls, hpages, hanswer, haligned, hbelow⟩, rfl, rfl⟩
  have hfirst : answer.toNat ∈ r.blocks :=
    PageRun.mem_blocks.mpr ⟨0, Nat.two_pow_pos _, by rw [hr, Nat.zero_mul, Nat.add_zero]⟩
  refine ⟨hclass, hcls, hleast, ?_, ?_, ?_, fun _ => ⟨haligned, fun r' hr' => ?_⟩⟩
  · rw [hblock]
    exact PageRun.block_base hfirst
  · rw [hblock]
    exact PageRun.block_end hfirst
  · rwa [hblock]
  · rw [← hextent]
    refine (List.pairwise_cons.mp hpairs).1 r'.grant ?_
    rw [← hgranted]
    exact List.mem_map_of_mem hr'

/-- A block that is free. -/
theorem HeapInv.served_recycled (inv : HeapInv L h live)
    (hclass : classOf (RumpBaremetal.initPagesz h) len 0x1000 = some cls) (hcls : cls ≤ 26)
    (hleast : cls = leastClass ((len.toNat + 4096) % 2 ^ 32)) (hhead : h.nextf cls ≠ 0) :
    PageServed L h answer len cls := by
  have hblock : h.nextBlock answer cls = h.nextf cls := if_neg hhead
  obtain ⟨hmem, -⟩ := inv.head_block hhead
  obtain ⟨-, -, hbase, hend⟩ := Layout.block_facts hmem
  refine ⟨hclass, hcls, hleast, ?_, ?_, ?_, fun h0 => absurd h0 hhead⟩
  · rwa [hblock]
  · rwa [hblock]
  · rwa [hblock]

/-- What is left of the request, with any contents of memory. -/
theorem serve_page (hsz : h.pagesz = pageSize) (hbucket : h.pagebucket = 7) (hcls : cls ≤ 26)
    (hne : (serve (answering answer) h granted cls 0x1000).1 ≠ 0) (mem : ByteMem) :
    (serve (answering answer) (h.setMem mem) granted cls 0x1000).1 = pageBehind (h.nextBlock answer cls) ∧
      (serve (answering answer) (h.setMem mem) granted cls 0x1000).2.1.mem =
      h.handedOut answer cls mem := by
  unfold Heap.handedOut Heap.nextBlock
  by_cases hempty : h.nextf cls = 0
  · rw [if_pos hempty]
    have hanswer : answer ≠ 0 := by
      rintro rfl
      exact hne (serve_exhausted granted hsz hbucket hcls hempty 0x1000)
    obtain ⟨h', howmany, hmem, -, heq⟩ :=
      serve_fresh (h := h.setMem mem) granted hsz hbucket hcls hempty hanswer 0x1000
    obtain ⟨hptr, hheader⟩ := takeBlock_page h' cls answer
    have hlinked : h'.mem = h.linked answer cls mem := hmem
    rw [heq, ← hlinked]
    exact ⟨hptr, hheader⟩
  · rw [if_neg hempty, serve_recycled (h.setMem mem) granted hempty, Heap.linked, if_neg hempty]
    exact takeBlock_page (h.setMem mem) cls (h.nextf cls)

/-- A request for pages, on a heap with any contents in the same places. -/
theorem HeapInv.pageRequest (inv : HeapInv L h live) (hgranted : L.runs.map (·.grant) = granted)
    (hne : (RumpBaremetal.bmkMemalloc (answering answer) h granted len 0x1000).1 ≠ 0)
    (hgood : GrantsGood (RumpBaremetal.bmkMemalloc (answering answer) h granted len 0x1000).2.2) :
    ∃ cls, PageServed L h answer len cls ∧ ∀ mem,
      (RumpBaremetal.bmkMemalloc (answering answer) (h.setMem mem) granted len 0x1000).1 =
        pageBehind (h.nextBlock answer cls) ∧
      (RumpBaremetal.bmkMemalloc (answering answer) (h.setMem mem) granted len 0x1000).2.1.mem =
        h.handedOut answer cls mem := by
  obtain ⟨inv', hsz, hbucket⟩ := inv.initPagesz
  have hnextf := initPagesz_nextf h
  have hmem := initPagesz_mem h
  cases hclass : classOf (RumpBaremetal.initPagesz h) len 0x1000 with
  | none =>
      rw [bmkMemalloc_eq, hclass] at hne
      exact absurd rfl hne
  | some cls =>
      obtain ⟨hcls, -, -⟩ := classOf_fits hsz hbucket hclass
      have heffective : effectiveAlign 0x1000 = 0x1000 := by decide
      have hcall : ∀ mem, RumpBaremetal.bmkMemalloc (answering answer) (h.setMem mem) granted len 0x1000 =
          RumpBaremetal.serve (answering answer) ((RumpBaremetal.initPagesz h).setMem mem)
            granted cls 0x1000 := by
        intro mem
        simp only [bmkMemalloc_eq, initPagesz_setMem, classOf_setMem, hclass, heffective]
      have hleast : cls = leastClass ((len.toNat + 4096) % 2 ^ 32) := by
        have hfound := hclass
        rw [classOf_eq hsz hbucket] at hfound
        split at hfound
        · rw [← Option.some.inj hfound, UInt32.toNat_add]
          rfl
        · cases hfound
      have hself := hcall h.mem
      rw [Heap.setMem_self, ← hmem, Heap.setMem_self] at hself
      rw [hself] at hne hgood
      -- the page size alone is set up, and the rest is as before
      have hblock : (RumpBaremetal.initPagesz h).nextBlock answer cls = h.nextBlock answer cls := by
        simp only [Heap.nextBlock, hnextf]
      have hlinked : ∀ mem, (RumpBaremetal.initPagesz h).handedOut answer cls mem =
          h.handedOut answer cls mem := by
        intro mem
        simp only [Heap.handedOut, Heap.linked, hblock, hnextf]
      have hserved : PageServed L (RumpBaremetal.initPagesz h) answer len cls := by
        have hclass' :
            classOf (RumpBaremetal.initPagesz (RumpBaremetal.initPagesz h)) len 0x1000 = some cls := by
          rw [initPagesz_idem, hclass]
        by_cases hempty : (RumpBaremetal.initPagesz h).nextf cls = 0
        · refine served_fresh hsz hbucket hgranted hclass' hcls hleast hempty ?_ hgood
          rintro rfl
          exact hne (serve_exhausted granted hsz hbucket hcls hempty 0x1000)
        · exact inv'.served_recycled hclass' hcls hleast hempty
      refine ⟨cls,
        ⟨hclass, hcls, hleast, hblock ▸ hserved.base, hblock ▸ hserved.below, hblock ▸ hserved.nonNull,
          fun h0 => hserved.fresh (by rw [hnextf, h0])⟩, fun mem => ?_⟩
      obtain ⟨hptr, hleft⟩ := serve_page hsz hbucket hcls hne mem
      rw [hcall, hptr, hleft, hblock, hlinked]
      exact ⟨rfl, rfl⟩

end PageRequest

/-! ### What the allocator stores -/

theorem store32_pointwise {m m' : ByteMem} (a : Nat) (x : UInt32) {c : Nat} (h : m' c = m c) :
    store32 m' a x c = store32 m a x c := by
  simp only [store32, h]

theorem carve_pointwise (sz : UInt32) (rest : Nat) :
    ∀ {m m' : ByteMem} (op : UInt32) {c : Nat}, m' c = m c →
      carve m' op sz rest c = carve m op sz rest c := by
  induction rest with
  | zero =>
      intro m m' op c h
      exact store32_pointwise _ _ h
  | succ rest ih =>
      intro m m' op c h
      exact ih _ (store32_pointwise _ _ h)

/-- A byte is left as it was, or becomes what does not depend on it. -/
theorem Heap.handedOut_pointwise (h : Heap) (answer : UInt32) (cls : Nat) {m m' : ByteMem} {c : Nat}
    (hc : m' c = m c) :
    h.handedOut answer cls m' c = h.handedOut answer cls m c := by
  have hlinked : h.linked answer cls m' c = h.linked answer cls m c := by
    unfold Heap.linked
    split
    · exact carve_pointwise _ _ _ hc
    · exact hc
  unfold Heap.handedOut writeHeader
  refine store32_pointwise _ _ ?_
  simp only [Function.update_apply, hlinked]

namespace PageServed

variable {L : Layout} {h : Heap} {answer len : UInt32} {cls : Nat}

/-- The pointer is at most a page behind the start of its block. -/
theorem pointer (hs : PageServed L h answer len cls) :
    (pageBehind (h.nextBlock answer cls)).toNat % 4096 = 0 ∧
      (h.nextBlock answer cls).toNat + 8 ≤ (pageBehind (h.nextBlock answer cls)).toNat ∧
      (pageBehind (h.nextBlock answer cls)).toNat ≤ (h.nextBlock answer cls).toNat + 4096 := by
  have hbelow := hs.below
  have hsize := smallest_block cls
  have hsum : (h.nextBlock answer cls + sizeofOverhead).toNat = (h.nextBlock answer cls).toNat + 8 :=
    add_overhead_toNat (by omega)
  have hround : (pageBehind (h.nextBlock answer cls)).toNat =
      roundUp ((h.nextBlock answer cls).toNat + 8) (2 ^ 12) := by
    rw [← hsum]
    exact UInt32.toNat_round (k := 12) rfl (by rw [hsum]; omega)
  have hdvd := dvd_roundUp ((h.nextBlock answer cls).toNat + 8) (2 ^ 12)
  have hle := le_roundUp (Nat.two_pow_pos 12) ((h.nextBlock answer cls).toNat + 8)
  have hlt := roundUp_lt (Nat.two_pow_pos 12) ((h.nextBlock answer cls).toNat + 8)
  have hblock : 2 ^ 5 ∣ (h.nextBlock answer cls).toNat :=
    (pow_dvd_pow 2 (Nat.le_add_left 5 _)).trans hs.base
  rw [← hround] at hdvd hle hlt
  omega

/-- A block at the start of a page. -/
theorem pointer_of_page (hs : PageServed L h answer len cls)
    (hpage : (h.nextBlock answer cls).toNat % 4096 = 0) :
    (pageBehind (h.nextBlock answer cls)).toNat = (h.nextBlock answer cls).toNat + 4096 := by
  obtain ⟨hmod, hlow, hhigh⟩ := hs.pointer
  omega

theorem page_of_large (hs : PageServed L h answer len cls) (hlarge : 7 ≤ cls) :
    (h.nextBlock answer cls).toNat % 4096 = 0 := by
  have hbase := hs.base
  rw [show min cls 7 + 5 = 12 by omega] at hbase
  exact Nat.mod_eq_zero_of_dvd hbase

theorem pointer_of_fresh (hs : PageServed L h answer len cls) (hempty : h.nextf cls = 0) :
    h.nextBlock answer cls = answer ∧ (pageBehind (h.nextBlock answer cls)).toNat =
    answer.toNat + 4096 := by
  have hblock : h.nextBlock answer cls = answer := if_pos hempty
  refine ⟨hblock, ?_⟩
  rw [hs.pointer_of_page (by rw [hblock]; exact (hs.fresh hempty).1), hblock]

/-- New links lie in the first page of the run. -/
theorem linked_frame (hs : PageServed L h answer len cls) (mem : ByteMem) {c : Nat}
    (hc : h.nextf cls = 0 → c < answer.toNat ∨ answer.toNat + 4096 ≤ c) :
    h.linked answer cls mem c = mem c := by
  unfold Heap.linked
  split
  · rename_i hempty
    have hlarge := largest_block hs.cls_le
    have hbelow := hs.below
    rw [(hs.pointer_of_fresh hempty).1] at hbelow
    have hne : answer ≠ 0 := by
      have := hs.nonNull
      rwa [(hs.pointer_of_fresh hempty).1] at this
    have hstride : (UInt32.ofNat (2 ^ (cls + 5))).toNat = 2 ^ (cls + 5) :=
      UInt32.toNat_ofNat_of_lt' (show _ < 2 ^ 32 by omega)
    have hsmall := smallest_block cls
    -- one link, or links in a single page
    have hreach : (2 ^ (7 - cls) - 1) * 2 ^ (cls + 5) + 4 ≤ 4096 := by
      rcases Nat.lt_or_ge cls 7 with hless | hmore
      · have hrun : 2 ^ (7 - cls) * 2 ^ (cls + 5) = 4096 := by
          rw [class_sizes, show cls - 7 = 0 by omega, Nat.pow_zero, Nat.one_mul]
        have hpos := Nat.two_pow_pos (7 - cls)
        rw [Nat.sub_mul, hrun]
        omega
      · rw [show 7 - cls = 0 by omega, Nat.pow_zero, Nat.sub_self, Nat.zero_mul]
        decide
    obtain ⟨-, hframe⟩ := carve_spec (UInt32.ofNat (2 ^ (cls + 5))) (2 ^ (7 - cls) - 1) mem answer hne
      (fun _ => by rw [hstride]; omega) (by rw [hstride]; omega)
    refine hframe c ?_
    rw [hstride]
    have := hc hempty
    omega
  · rfl

/-- The header lies right below the pointer. -/
theorem handedOut_linked (hs : PageServed L h answer len cls) (mem : ByteMem) {c : Nat}
    (hc : c + 8 < (pageBehind (h.nextBlock answer cls)).toNat ∨
      (pageBehind (h.nextBlock answer cls)).toNat ≤ c + 2) :
    h.handedOut answer cls mem c = h.linked answer cls mem c := by
  obtain ⟨-, hlow, -⟩ := hs.pointer
  unfold Heap.handedOut
  refine writeHeader_of_apart _ _ _ ?_
  rw [sub_overhead_toNat (by omega)]
  omega

/-- Nothing outside the page below the pointer changes. -/
theorem handedOut_frame (hs : PageServed L h answer len cls) (mem : ByteMem) {c : Nat}
    (hc : c + 4096 < (pageBehind (h.nextBlock answer cls)).toNat ∨
      (pageBehind (h.nextBlock answer cls)).toNat ≤ c) :
    h.handedOut answer cls mem c = mem c := by
  rw [hs.handedOut_linked mem (by omega)]
  refine hs.linked_frame mem fun hempty => ?_
  have := (hs.pointer_of_fresh hempty).2
  omega

/-! A length that wraps with a page: the mapping goes around the address space and into the page below the
    pointer. -/

section Around

/-- The class of what is left of the sum. -/
theorem around_cls (hs : PageServed L h answer len cls) (hwraps : 2 ^ 32 ≤ len.toNat + 4096) :
    cls ≤ 7 ∧ (2 ^ 32 - 2048 < len.toNat ↔ cls = 7) ∧ (cls ≠ 0 → 2 ^ 32 - 4096 + 32 < len.toNat) := by
  have hlt := len.toNat_lt
  have hrest : (len.toNat + 4096) % 2 ^ 32 = len.toNat + 4096 - 2 ^ 32 := by omega
  have hleast := hs.least
  rw [hrest] at hleast
  have hle : ∀ n, cls ≤ n ↔ len.toNat + 4096 - 2 ^ 32 ≤ 2 ^ (n + 5) := by
    intro n
    rw [hleast]
    exact leastClass_le_iff
  have hseven := hle 7
  have hsix := hle 6
  have hzero := hle 0
  omega

/-- The bytes of the page below the pointer that the mapping reaches. -/
theorem around_addr (hs : PageServed L h answer len cls) {i : Nat} (hi : i < 2 ^ 32) :
    (i < 2 ^ 32 - 4096 →
      addr (pageBehind (h.nextBlock answer cls)) i + 4096 < (pageBehind (h.nextBlock answer cls)).toNat ∨
      (pageBehind (h.nextBlock answer cls)).toNat ≤ addr (pageBehind (h.nextBlock answer cls)) i) ∧
    (2 ^ 32 - 4096 ≤ i → addr (pageBehind (h.nextBlock answer cls)) i + 2 ^ 32 =
      (pageBehind (h.nextBlock answer cls)).toNat + i) := by
  obtain ⟨hmod, hlow, -⟩ := hs.pointer
  have hlt := (pageBehind (h.nextBlock answer cls)).toNat_lt
  unfold addr
  omega

/-- The first two bytes of the header's word, for a block of a page. -/
theorem header_bytes (hs : PageServed L h answer len cls) (hcls : cls = 7) (mem : ByteMem) :
    h.handedOut answer cls mem ((pageBehind (h.nextBlock answer cls)).toNat - 8) = 0 ∧
      h.handedOut answer cls mem ((pageBehind (h.nextBlock answer cls)).toNat - 7) = 16 := by
  have hptr := hs.pointer_of_page (hs.page_of_large hcls.ge)
  have hpad : pageBehind (h.nextBlock answer cls) - h.nextBlock answer cls = 4096 := by
    apply UInt32.toNat_inj.mp
    rw [UInt32.toNat_sub_of_le _ _ (UInt32.le_iff_toNat_le.mpr (by omega)), hptr]
    exact Nat.add_sub_cancel_left _ _
  have hover : (pageBehind (h.nextBlock answer cls) - sizeofOverhead).toNat =
      (pageBehind (h.nextBlock answer cls)).toNat - 8 := sub_overhead_toNat (by omega)
  have hbyte : ∀ j < 4, h.handedOut answer cls mem ((pageBehind (h.nextBlock answer cls)).toNat - 8 + j) =
      byte 4096 j := by
    intro j hj
    rw [Heap.handedOut, hpad, ← hover]
    exact store32_self _ _ _ hj
  refine ⟨hbyte 0 (by decide), ?_⟩
  rw [show (pageBehind (h.nextBlock answer cls)).toNat - 7 =
    (pageBehind (h.nextBlock answer cls)).toNat - 8 + 1 by omega]
  exact hbyte 1 (by decide)

/-- The first link of a new page of several blocks. -/
theorem first_link (hs : PageServed L h answer len cls) (hempty : h.nextf cls = 0) (hsmall : cls < 7)
    (mem : ByteMem) :
    (load32 (h.handedOut answer cls mem) answer.toNat).toNat = answer.toNat + 2 ^ (cls + 5) := by
  have hptr := (hs.pointer_of_fresh hempty).2
  have hbelow := hs.below
  rw [(hs.pointer_of_fresh hempty).1] at hbelow
  have hsame :
      load32 (h.handedOut answer cls mem) answer.toNat = load32 (h.linked answer cls mem) answer.toNat :=
    load32_congr fun b _ _ => hs.handedOut_linked mem (by omega)
  have hlarge := largest_block hs.cls_le
  have hleast := smallest_block cls
  have hstride : (UInt32.ofNat (2 ^ (cls + 5))).toNat = 2 ^ (cls + 5) :=
    UInt32.toNat_ofNat_of_lt' (show _ < 2 ^ 32 by omega)
  have hrun : 2 ^ (7 - cls) * 2 ^ (cls + 5) = 4096 := by
    rw [class_sizes, show cls - 7 = 0 by omega, Nat.pow_zero, Nat.one_mul]
  have hmany : 2 ^ 1 ≤ 2 ^ (7 - cls) := Nat.pow_le_pow_right (by decide) (by omega)
  obtain ⟨hlinks, -⟩ := carve_links (UInt32.ofNat (2 ^ (cls + 5))) (2 ^ (7 - cls) - 1) mem answer
    (fun _ => by rw [hstride]; omega) (by rw [hstride, Nat.sub_mul, hrun]; omega)
  have hfirst := hlinks 0 (by omega)
  rw [Nat.zero_mul, addr_zero, Nat.zero_add, Nat.one_mul, hstride, addr_of_lt (by omega)] at hfirst
  rw [hsame, Heap.linked, if_pos hempty]
  exact hfirst

/-- The link of a new page that is one block. -/
theorem single_link (hs : PageServed L h answer len cls) (hempty : h.nextf cls = 0) (hcls : cls = 7)
    (mem : ByteMem) :
    h.linked answer cls mem = store32 mem answer.toNat 0 := by
  subst hcls
  exact if_pos hempty

end Around

end PageServed

/-! ### What is in a mapping -/

/-- The bytes of the file, followed by zeros. -/
def MappingClean {Pages : Type*} (out : MmapExit Pages) (len : UInt32) (data : List UInt8) : Prop :=
  ∀ i < len.toNat, out.heap.mem (addr out.rv i) = data.getD i 0

/-- A byte of a free block behind its link. -/
def Layout.Stale (L : Layout) (b : Nat) : Prop := ∃ cls, ∃ a ∈ L.free cls, a + 4 ≤ b ∧ b < a + 2 ^ (cls + 5)

/-- The two heaps differ in the contents of free blocks at most. -/
structure SameButStale (w w' : HeapWorld) : Prop where
  rest : w' = { w with heap := w.heap.setMem w'.heap.mem }
  mem : ∀ L, HeapInv L w.heap w.live → ∀ b, ¬L.Stale b → w'.heap.mem b = w.heap.mem b

/-- Before the call, memory is zero where the mapping is going to be, behind the bytes that are read from
    the file.  The mapping starts with the page behind the block that the request gets.

    A length that wraps with a page makes it go around the address space and into the page below.  There it
    meets what the allocator stores itself: the padding `4096` in the header, of which one byte at most may
    be part of the mapping, and the links of a new page, which must be a single block unless the mapping
    ends below it. -/
structure ZeroBefore (h : Heap) (answer len : UInt32) (read cls : Nat) : Prop where
  zero : ∀ i, read ≤ i → i < len.toNat → i ≠ 2 ^ 32 - 8 →
    (h.nextf cls = 0 → i < 2 ^ 32 - 4096 ∨ 2 ^ 32 - 4092 ≤ i) →
    h.mem (addr (pageBehind (h.nextBlock answer cls)) i) = 0
  around : 2 ^ 32 ≤ len.toNat + 4096 → len.toNat ≤ 2 ^ 32 - 7 ∧
    (h.nextf cls = 0 → len.toNat = 2 ^ 32 - 4096 ∨ 2 ^ 32 - 2048 < len.toNat)

/-- Before the call, no free block has a byte where the mapping is going to be, behind the bytes that are
    read from the file. -/
def NoneStale (w : HeapWorld) (answer len : UInt32) (read cls : Nat) : Prop :=
  ∀ L, HeapInv L w.heap w.live → ∀ i, read ≤ i → i < len.toNat →
    ¬ L.Stale (addr (pageBehind (w.heap.nextBlock answer cls)) i)

theorem storeBytes_addr (mem : ByteMem) (v : UInt32) {data : List UInt8} (hlen : data.length ≤ 2 ^ 32)
    {i : Nat} (hi : i < 2 ^ 32) :
    storeBytes mem v data (addr v i) = if i < data.length then data.getD i 0 else mem (addr v i) := by
  rw [storeBytes_eq mem v hlen]
  split
  · rename_i hin
    exact patch_addr hlen hin
  · rename_i hout
    refine patch_of_outside fun j hj heq => ?_
    have := addr_inj v hi (by omega) heq
    omega

section Mapping

variable {c : Mman} {w : HeapWorld} {h : Heap} {granted : List PageGrant} {errno : Int}
  {addr₀ len answer : UInt32} {prot flags fd : Int32} {off : Int64} {pread : Except Int (PreadReply len)}
  {out : MmapExit (List PageGrant)}

/-- Behind the bytes of the file a mapping is as `posix_memalign` leaves it. -/
theorem mmap_byte
    (hcall : mmap (answering answer) c h granted errno addr₀ len prot flags fd off pread = some out)
    (hok : out.rv ≠ mapFailed) {i : Nat} (hi : i < len.toNat) :
    out.heap.mem (addr out.rv i) =
      if i < (fileData c flags pread).length then (fileData c flags pread).getD i 0
      else (posixMemalign (answering answer) h granted 0 len 0x1000).2.2.1.mem (addr out.rv i) := by
  obtain ⟨hmode, hne⟩ := mmap_inv _ hcall hok
  rw [mmap_served _ hmode hne] at hcall
  rw [posixMemalign_rest]
  generalize bmkMemalloc (answering answer) h granted len 0x1000 = r at hcall ⊢
  obtain rfl := Option.some.inj hcall
  have hlt := len.toNat_lt
  have hle := length_fileData c flags pread
  exact storeBytes_addr _ _ (by omega) (by omega)

/-- The bytes of the file are as they should be, so that the others decide. -/
theorem clean_iff {f g : Nat → UInt8} {data : List UInt8} {n : Nat}
    (hbytes : ∀ i < n, f i = if i < data.length then data.getD i 0 else g i) :
    (∀ i < n, f i = data.getD i 0) ↔ ∀ i, data.length ≤ i → i < n → g i = 0 := by
  refine ⟨fun hclean i hlo hhi => ?_, fun hzero i hhi => ?_⟩
  · have hbyte := hclean i hhi
    rw [hbytes i hhi, if_neg (by omega)] at hbyte
    rw [hbyte]
    exact List.getD_eq_default _ _ hlo
  · rw [hbytes i hhi]
    split
    · rfl
    · rename_i hlo
      rw [hzero i (by omega) hhi]
      exact (List.getD_eq_default _ _ (by omega)).symm

/-- Where the bytes of a mapping are, and what they hold, on a heap that clients of libc can reach, and on
    one with any other contents of memory. -/
theorem mapping_block {L : Layout} (inv : HeapInv L w.heap w.live)
    (hgranted : L.runs.map (·.grant) = w.granted)
    (hcall : mmap (answering answer) c w.heap w.granted errno addr₀ len prot flags fd off pread = some out)
    (hok : out.rv ≠ mapFailed) (hgood : GrantsGood out.pages) :
    ∃ cls, PageServed L w.heap answer len cls ∧ out.rv = pageBehind (w.heap.nextBlock answer cls) ∧
      ∀ mem, ∃ out',
        mmap (answering answer) c (w.heap.setMem mem) w.granted errno addr₀ len prot flags fd off pread =
          some out' ∧ out'.rv = out.rv ∧ ∀ i < len.toNat, out'.heap.mem (addr out.rv i) =
        if i < (fileData c flags pread).length then (fileData c flags pread).getD i 0
        else w.heap.handedOut answer cls mem (addr out.rv i) := by
  obtain ⟨hmode, hne⟩ := mmap_inv _ hcall hok
  rw [mmap_served _ hmode hne] at hcall
  have hrv : out.rv = (bmkMemalloc (answering answer) w.heap w.granted len 0x1000).1 := by
    rw [← Option.some.inj hcall]
  have hpages : out.pages = (bmkMemalloc (answering answer) w.heap w.granted len 0x1000).2.2 := by
    rw [← Option.some.inj hcall]
  rw [hpages] at hgood
  obtain ⟨cls, hserved, hreq⟩ := inv.pageRequest hgranted hne hgood
  have hptr : out.rv = pageBehind (w.heap.nextBlock answer cls) := by
    have hself := (hreq w.heap.mem).1
    rwa [Heap.setMem_self, ← hrv] at hself
  refine ⟨cls, hserved, hptr, fun mem => ?_⟩
  obtain ⟨hptr', hleft⟩ := hreq mem
  have hne' : (bmkMemalloc (answering answer) (w.heap.setMem mem) w.granted len 0x1000).1 ≠ 0 := by
    rwa [hptr', ← hptr, hrv]
  obtain ⟨out', hcall', hrv'⟩ :
    ∃ out', mmap (answering answer) c (w.heap.setMem mem) w.granted errno addr₀ len prot flags
      fd off pread = some out' ∧ out'.rv = out.rv :=
    ⟨_, mmap_served _ hmode hne', by rw [hptr', ← hptr]⟩
  refine ⟨out', hcall', hrv', fun i hi => ?_⟩
  have hbyte := mmap_byte hcall' (by rw [hrv']; exact hok) hi
  rw [hrv', posixMemalign_rest, hleft] at hbyte
  exact hbyte

/-- A mapping is an allocation like any other: the heap stays in order, and `munmap` gives the block
    back. -/
theorem munmap_mapping {L : Layout} (inv : HeapInv L w.heap w.live)
    (hgranted : L.runs.map (·.grant) = w.granted)
    (hcall : mmap (answering answer) c w.heap w.granted errno addr₀ len prot flags fd off pread = some out)
    (hok : out.rv ≠ mapFailed) (hgood : GrantsGood out.pages) (hfit : len.toNat + 4096 < 2 ^ 32) :
    ∃ L' r, r.rv = out.rv ∧ r.nbytes = len ∧ HeapInv L' out.heap (r :: w.live) ∧
      ∃ L'' h', munmap out.heap out.rv len = some (0, h') ∧ HeapInv L'' h' w.live := by
  obtain ⟨hmode, hne⟩ := mmap_inv _ hcall hok
  rw [mmap_served _ hmode hne] at hcall
  generalize hresult : bmkMemalloc (answering answer) w.heap w.granted len 0x1000 = result at hcall hne
  obtain rfl := Option.some.inj hcall
  have hroom : len.toNat + (headerRoom (effectiveAlign 0x1000)).toNat < 2 ^ 32 := hfit
  obtain ⟨L', r, hrv, hbytes, -, -, inv'⟩ := inv.alloc_new hgranted hroom hresult hgood hne
  have hlen : (fileData c flags pread).length ≤ r.nbytes.toNat := by
    rw [hbytes]
    exact length_fileData c flags pread
  have hlt := r.nbytes.toNat_lt
  -- the bytes of the file stay in the payload
  have inv'' := inv'.patch_live List.mem_cons_self hlen fun i => (fileData c flags pread).getD i 0
  rw [hrv, ← storeBytes_eq _ _ (by omega)] at inv''
  obtain ⟨L'', h', inv₀, -, hfree, -⟩ := inv''.free_live List.mem_cons_self
  have herase : (r :: w.live).eraseP (fun l => l.rv = r.rv) = w.live :=
    List.eraseP_cons_of_pos (decide_eq_true rfl)
  rw [herase] at inv₀
  refine ⟨L', r, hrv, hbytes, inv'', L'', h', ?_, inv₀⟩
  rw [hrv] at hfree
  simp only [munmap, free, hfree, Option.map_some]

/-- A heap with one stale byte changed. -/
theorem sameButStale_update {b : Nat} (hstale : ∀ L, HeapInv L w.heap w.live → L.Stale b) (byte : UInt8) :
    SameButStale w { w with heap := w.heap.setMem (Function.update w.heap.mem b byte) } where
  rest := rfl
  mem := by
    intro L inv b' hb'
    refine Function.update_of_ne ?_ _ _
    rintro rfl
    exact hb' (hstale L inv)

/-- A page run that is new has no stale byte of the old ones. -/
theorem PageServed.not_stale {L : Layout} {h : Heap} {live : List Live} (inv : HeapInv L h live) {cls : Nat}
    (hs : PageServed L h answer len cls) (hempty : h.nextf cls = 0) {b : Nat} (hlo : answer.toNat ≤ b)
    (hhi : b < answer.toNat + 2 ^ (7 - cls) * 2 ^ (cls + 5)) : ¬ L.Stale b := by
  rintro ⟨j, a, ha, halo, hahi⟩
  obtain ⟨r, hr, rfl, hra⟩ := Layout.mem_blocks.mp (inv.free_block ha)
  obtain ⟨hstart, hfin⟩ := Extent.piece_inside hra
  have hrun := (hs.fresh hempty).2 r hr
  simp only [Extent.Apart, Extent.fin] at hstart hfin hrun
  omega

/-- Which bytes are stale does not depend on the layout: the links fix the free lists. -/
theorem Layout.Stale.congr {L L' : Layout} {h : Heap} {live : List Live} (inv : HeapInv L h live)
    (inv' : HeapInv L' h live) {b : Nat} (hstale : L.Stale b) : L'.Stale b := by
  obtain ⟨cls, a, ha, hb⟩ := hstale
  rw [Chain.unique (inv.lists cls) (inv'.lists cls)] at ha
  exact ⟨cls, a, ha, hb⟩

namespace PageServed

variable {L : Layout} {cls : Nat}

/-- What the allocator stores in the part of a mapping that has gone around. -/
theorem around_byte (hs : PageServed L h answer len cls) (hwraps : 2 ^ 32 ≤ len.toNat + 4096)
    (haround : len.toNat ≤ 2 ^ 32 - 7 ∧
      (h.nextf cls = 0 → len.toNat = 2 ^ 32 - 4096 ∨ 2 ^ 32 - 2048 < len.toNat))
    (mem : ByteMem) {i : Nat} (hlo : 2 ^ 32 - 4096 ≤ i) (hhi : i < len.toNat) :
    h.handedOut answer cls mem (addr (pageBehind (h.nextBlock answer cls)) i) =
      if i ≠ 2 ^ 32 - 8 ∧ (h.nextf cls = 0 → i < 2 ^ 32 - 4096 ∨ 2 ^ 32 - 4092 ≤ i) then
        mem (addr (pageBehind (h.nextBlock answer cls)) i)
      else 0 := by
  obtain ⟨-, hseven, -⟩ := hs.around_cls hwraps
  have haddr := (hs.around_addr (i := i) (by omega)).2 hlo
  obtain ⟨-, hlow, -⟩ := hs.pointer
  by_cases hheader : i = 2 ^ 32 - 8
  · rw [if_neg fun h => h.1 hheader]
    have hbyte := (hs.header_bytes (hseven.mp (by omega)) mem).1
    rwa [show addr (pageBehind (h.nextBlock answer cls)) i =
      (pageBehind (h.nextBlock answer cls)).toNat - 8 by omega]
  · rw [hs.handedOut_linked mem (by omega)]
    by_cases hempty : h.nextf cls = 0
    · have hptr := (hs.pointer_of_fresh hempty).2
      have hone : cls = 7 := hseven.mp ((haround.2 hempty).resolve_left (by omega))
      rw [hs.single_link hempty hone mem]
      by_cases hlink : 2 ^ 32 - 4092 ≤ i
      · rw [if_pos ⟨hheader, fun _ => .inr hlink⟩]
        exact store32_of_apart _ _ (by omega)
      · rw [if_neg fun h => hlink ((h.2 hempty).resolve_left (by omega))]
        have hbyte := store32_self mem answer.toNat 0 (i := i - (2 ^ 32 - 4096)) (by omega)
        rw [show addr (pageBehind (h.nextBlock answer cls)) i =
          answer.toNat + (i - (2 ^ 32 - 4096)) by omega, hbyte]
        simp [byte]
    · rw [if_pos ⟨hheader, fun h0 => absurd h0 hempty⟩, hs.linked_frame mem fun h0 => absurd h0 hempty]

/-- What the allocator leaves is zero in the part of a mapping that has gone around only if the length is
    one of a few. -/
theorem around_of_zero (hs : PageServed L h answer len cls) (hwraps : 2 ^ 32 ≤ len.toNat + 4096)
    (mem : ByteMem)
    (hzero : ∀ i, 2 ^ 32 - 4096 ≤ i → i < len.toNat →
      h.handedOut answer cls mem (addr (pageBehind (h.nextBlock answer cls)) i) = 0) :
    len.toNat ≤ 2 ^ 32 - 7 ∧ (h.nextf cls = 0 → len.toNat = 2 ^ 32 - 4096 ∨ 2 ^ 32 - 2048 < len.toNat) := by
  obtain ⟨hpage, hseven, hfirst⟩ := hs.around_cls hwraps
  obtain ⟨-, hlow, -⟩ := hs.pointer
  have hlt := len.toNat_lt
  constructor
  · -- the second byte of the padding
    by_contra hlong
    have hbyte := (hs.header_bytes (hseven.mp (by omega)) mem).2
    have haddr := (hs.around_addr (i := 2 ^ 32 - 7) (by omega)).2 (by omega)
    have hclear := hzero (2 ^ 32 - 7) (by omega) (by omega)
    rw [show addr (pageBehind (h.nextBlock answer cls)) (2 ^ 32 - 7) =
      (pageBehind (h.nextBlock answer cls)).toNat - 7 by omega,
      hbyte] at hclear
    exact absurd hclear (by decide)
  · -- the first link
    intro hempty
    by_contra hother
    have hsmall : cls < 7 := by omega
    have hptr := (hs.pointer_of_fresh hempty).2
    have hmod := (hs.fresh hempty).1
    have hlink := hs.first_link hempty hsmall mem
    have hclear : ∀ j < 4, 2 ^ 32 - 4096 + j < len.toNat →
        h.handedOut answer cls mem (answer.toNat + j) = 0 := by
      intro j hj hless
      have haddr := (hs.around_addr (i := 2 ^ 32 - 4096 + j) (by omega)).2 (by omega)
      have hbyte := hzero (2 ^ 32 - 4096 + j) (by omega) hless
      rwa [show addr (pageBehind (h.nextBlock answer cls)) (2 ^ 32 - 4096 + j) = answer.toNat + j by omega]
        at hbyte
    by_cases hleast : cls = 0
    · -- `answer + 32`, whose first byte is 32
      have hbyte := hclear 0 (by decide) (by omega)
      rw [Nat.add_zero] at hbyte
      subst hleast
      rw [load32, hbyte, UInt32.toNat_ofNat'] at hlink
      simp only [UInt8.toNat_zero] at hlink
      omega
    · have hlong := hfirst hleast
      rw [load32_zero fun b hlo hhi => ?_] at hlink
      · have hpos := Nat.two_pow_pos (cls + 5)
        simp only [UInt32.toNat_zero] at hlink
        omega
      · have hbyte := hclear (b - answer.toNat) (by omega) (by omega)
        rwa [show answer.toNat + (b - answer.toNat) = b by omega] at hbyte

/-- What the allocator leaves is zero exactly if memory was before the call. -/
theorem zero_iff (hs : PageServed L h answer len cls) {read : Nat} (hread : read < 2 ^ 31) :
    (∀ i, read ≤ i → i < len.toNat →
      h.handedOut answer cls h.mem (addr (pageBehind (h.nextBlock answer cls)) i) = 0) ↔
      ZeroBefore h answer len read cls := by
  have hlt := len.toNat_lt
  have hframe :
    ∀ i < 2 ^ 32 - 4096, h.handedOut answer cls h.mem (addr (pageBehind (h.nextBlock answer cls)) i) =
      h.mem (addr (pageBehind (h.nextBlock answer cls)) i) := fun i hi =>
    hs.handedOut_frame h.mem ((hs.around_addr (by omega)).1 hi)
  constructor
  · intro hzero
    have haround : 2 ^ 32 ≤ len.toNat + 4096 → _ := fun hwraps =>
      hs.around_of_zero hwraps h.mem fun i hlo hhi => hzero i (by omega) hhi
    refine ⟨fun i hlo hhi hheader hlinks => ?_, haround⟩
    by_cases hlow : i < 2 ^ 32 - 4096
    · rw [← hframe i hlow]
      exact hzero i hlo hhi
    · have hbyte := hs.around_byte (by omega) (haround (by omega)) h.mem (Nat.le_of_not_lt hlow) hhi
      rw [if_pos ⟨hheader, hlinks⟩] at hbyte
      rw [← hbyte]
      exact hzero i hlo hhi
  · intro hbefore i hlo hhi
    by_cases hlow : i < 2 ^ 32 - 4096
    · rw [hframe i hlow]
      exact hbefore.zero i hlo hhi (by omega) fun _ => .inl hlow
    · rw [hs.around_byte (by omega) (hbefore.around (by omega)) h.mem (Nat.le_of_not_lt hlow) hhi]
      split
      · rename_i hplain
        exact hbefore.zero i hlo hhi hplain.1 hplain.2
      · rfl

end PageServed

/-- A stale byte of the mapping, behind the bytes of the file, that the allocator does not overwrite. -/
theorem PageServed.stale_left {L : Layout} {cls : Nat} (inv : HeapInv L w.heap w.live)
    (hs : PageServed L w.heap answer len cls) {read i : Nat} (hread : read < 2 ^ 31) (hlo : read ≤ i)
    (hhi : i < len.toNat) (hstale : L.Stale (addr (pageBehind (w.heap.nextBlock answer cls)) i)) :
    ∃ j, read ≤ j ∧ j < len.toNat ∧ L.Stale (addr (pageBehind (w.heap.nextBlock answer cls)) j) ∧
      ∀ mem, w.heap.handedOut answer cls mem (addr (pageBehind (w.heap.nextBlock answer cls)) j) =
        mem (addr (pageBehind (w.heap.nextBlock answer cls)) j) := by
  have hlt := len.toNat_lt
  by_cases hlow : i < 2 ^ 32 - 4096
  · exact ⟨i, hlo, hhi, hstale, fun mem => hs.handedOut_frame mem ((hs.around_addr (by omega)).1 hlow)⟩
  have haddr := (hs.around_addr (i := i) (by omega)).2 (by omega)
  obtain ⟨hpage, hseven, -⟩ := hs.around_cls (by omega)
  obtain ⟨-, hptr, -⟩ := hs.pointer
  -- a page that is new has no stale byte
  have hhead : w.heap.nextf cls ≠ 0 := by
    intro hempty
    have hfresh := (hs.pointer_of_fresh hempty).2
    have hrun : 2 ^ (7 - cls) * 2 ^ (cls + 5) = 4096 := by
      rw [class_sizes, show cls - 7 = 0 by omega, Nat.pow_zero, Nat.one_mul]
    exact hs.not_stale inv hempty (by omega) (by omega) hstale
  have hlinked : ∀ mem c, w.heap.linked answer cls mem c = mem c := fun mem c =>
    hs.linked_frame mem fun h0 => absurd h0 hhead
  by_cases hheader : i < 2 ^ 32 - 8
  · refine ⟨i, hlo, hhi, hstale, fun mem => ?_⟩
    rw [hs.handedOut_linked mem (by omega), hlinked]
  · -- the header is part of the mapping, and so is the rest of the block below it
    have hcls : cls = 7 := hseven.mp (by omega)
    have hblock : w.heap.nextBlock answer cls = w.heap.nextf cls := if_neg hhead
    have hstart := hs.pointer_of_page (hs.page_of_large hcls.ge)
    have haddr' := (hs.around_addr (i := 2 ^ 32 - 4092) (by omega)).2 (by omega)
    refine ⟨2 ^ 32 - 4092, by omega, by omega, ⟨cls, _, inv.head_free hhead, ?_, ?_⟩, fun mem => ?_⟩
    · rw [← hblock]
      omega
    · have hsize : 2 ^ (cls + 5) = 4096 := by rw [hcls]; rfl
      rw [← hblock]
      omega
    · rw [hs.handedOut_linked mem (by omega), hlinked]

/-- For a length that fits with a page into 32 bits the conditions are about the block that the request
    gets. -/
theorem PageServed.fits {L : Layout} {cls : Nat} (inv : HeapInv L w.heap w.live)
    (hs : PageServed L w.heap answer len cls) (hfit : len.toNat + 4096 < 2 ^ 32) (read : Nat) :
    (ZeroBefore w.heap answer len read cls ↔
      ∀ i, read ≤ i → i < len.toNat → w.heap.mem ((w.heap.nextBlock answer cls).toNat + 4096 + i) = 0) ∧
    (NoneStale w answer len read cls ↔ len.toNat ≤ read ∨ w.heap.nextf cls = 0) := by
  have hplace : ∀ i < len.toNat, 8 ≤ cls ∧ len.toNat + 4096 ≤ 2 ^ (cls + 5) ∧
      addr (pageBehind (w.heap.nextBlock answer cls)) i =
        (w.heap.nextBlock answer cls).toNat + 4096 + i := by
    intro i hi
    have hleast := hs.least
    rw [Nat.mod_eq_of_lt hfit] at hleast
    have hroom : len.toNat + 4096 ≤ 2 ^ (cls + 5) := leastClass_le_iff.mp hleast.ge
    have hlarge : 8 ≤ cls := by
      by_contra hsmall
      have hle : len.toNat + 4096 ≤ 2 ^ (7 + 5) := leastClass_le_iff.mp (by omega)
      omega
    have hbelow := hs.below
    refine ⟨hlarge, hroom, ?_⟩
    rw [addr_of_lt, hs.pointer_of_page (hs.page_of_large (by omega))]
    rw [hs.pointer_of_page (hs.page_of_large (by omega))]
    omega
  constructor
  · refine ⟨fun hbefore i hlo hhi => ?_, fun hzero => ⟨fun i hlo hhi _ _ => ?_, fun hwraps => by omega⟩⟩
    · rw [← (hplace i hhi).2.2]
      exact hbefore.zero i hlo hhi (by omega) fun _ => .inl (by omega)
    · rw [(hplace i hhi).2.2]
      exact hzero i hlo hhi
  · constructor
    · intro hnone
      by_contra hnot
      rw [not_or, Nat.not_le] at hnot
      obtain ⟨hshort, hhead⟩ := hnot
      obtain ⟨-, hroom, haddr⟩ := hplace read hshort
      have hblock : w.heap.nextBlock answer cls = w.heap.nextf cls := if_neg hhead
      rw [hblock] at haddr
      refine hnone L inv read le_rfl hshort ⟨cls, _, inv.head_free hhead, ?_, ?_⟩
      · rw [hblock]
        omega
      · rw [hblock]
        omega
    · intro hwhen L' inv' i hlo hhi hstale
      have hempty := hwhen.resolve_left (by omega)
      obtain ⟨hlarge, hroom, haddr⟩ := hplace i hhi
      have hblock := (hs.pointer_of_fresh hempty).1
      rw [haddr, hblock] at hstale
      have hrun : 2 ^ (7 - cls) * 2 ^ (cls + 5) = 2 ^ (cls + 5) := by
        rw [show 7 - cls = 0 by omega, Nat.pow_zero, Nat.one_mul]
      exact hs.not_stale inv hempty (by omega) (by omega) (Layout.Stale.congr inv' inv hstale)

/-- For every heap that clients of libc can reach, every length and every mode, a mapping that is made is
    clean exactly if memory was zero, before the call, where the mapping is behind the bytes of the file.
    And any two heaps that differ in the contents of free blocks alone give the same mapping, exactly if
    none of its bytes, behind those of the file, was part of a free block.  For a length that fits with a
    page into 32 bits the place is the block that heads the free list of the class, or the new page run if
    the list is empty, from its second page on; then no byte was part of a free block exactly if the file
    covers the length or the list is empty. -/
theorem mmap_clean_iff {mem : ByteMem} {events : List LibcEvent}
    (hrun : run libcStep (HeapWorld.boot mem) events = some w)
    (hcall : mmap (answering answer) c w.heap w.granted errno addr₀ len prot flags fd off pread = some out)
    (hok : out.rv ≠ mapFailed) (hgood : GrantsGood out.pages) :
    ∃ cls, classOf (initPagesz w.heap) len 0x1000 = some cls ∧
      (MappingClean out len (fileData c flags pread) ↔
        ZeroBefore w.heap answer len (fileData c flags pread).length cls) ∧
      ((∀ w', SameButStale w w' → ∃ out',
          mmap (answering answer) c w'.heap w'.granted errno addr₀ len prot flags fd off pread = some out' ∧
          out'.rv = out.rv ∧ ∀ i < len.toNat, out'.heap.mem (addr out.rv i) =
          out.heap.mem (addr out.rv i)) ↔
        NoneStale w answer len (fileData c flags pread).length cls) ∧
      (len.toNat + 4096 < 2 ^ 32 →
        (ZeroBefore w.heap answer len (fileData c flags pread).length cls ↔
          ∀ i, (fileData c flags pread).length ≤ i → i < len.toNat →
            w.heap.mem ((w.heap.nextBlock answer cls).toNat + 4096 + i) = 0) ∧
        (NoneStale w answer len (fileData c flags pread).length cls ↔
          len.toNat ≤ (fileData c flags pread).length ∨ w.heap.nextf cls = 0)) := by
  obtain ⟨⟨L, inv, hgranted, -⟩, -⟩ := LiveAligned.of_run hrun
  obtain ⟨cls, hs, hrv, hany⟩ := mapping_block inv hgranted hcall hok hgood
  have hread := length_fileData_lt c flags pread
  -- the call itself is the one with the memory as it is
  have hself : ∀ i < len.toNat, out.heap.mem (addr out.rv i) =
      if i < (fileData c flags pread).length then (fileData c flags pread).getD i 0
      else w.heap.handedOut answer cls w.heap.mem (addr out.rv i) := by
    obtain ⟨out', hcall', -, hbytes⟩ := hany w.heap.mem
    rw [Heap.setMem_self, hcall] at hcall'
    obtain rfl := Option.some.inj hcall'
    exact hbytes
  refine ⟨cls, hs.cls_eq, ?_, ⟨fun hsame L' inv' i hlo hhi hstale => ?_, fun hnone w' hw' => ?_⟩,
    fun hfit =>
    hs.fits inv hfit _⟩
  · rw [← hs.zero_iff hread, ← hrv]
    exact clean_iff hself
  · -- let a stale byte be another one
    obtain ⟨j, hjlo, hjhi, hjstale, hleft⟩ :=
      hs.stale_left inv hread hlo hhi (Layout.Stale.congr inv' inv hstale)
    rw [← hrv] at hjstale hleft
    have hw' := sameButStale_update (fun L' inv' => Layout.Stale.congr inv inv' hjstale)
      (w.heap.mem (addr out.rv j) + 1)
    obtain ⟨out', hcall', -, hequal⟩ := hsame _ hw'
    obtain ⟨out'', hcall'', -, hbytes⟩ :=
      hany (Function.update w.heap.mem (addr out.rv j) (w.heap.mem (addr out.rv j) + 1))
    obtain rfl : out' = out'' := Option.some.inj (hcall'.symm.trans hcall'')
    have hbyte := hequal j hjhi
    rw [hself j hjhi, hbytes j hjhi, if_neg (by omega), if_neg (by omega), hleft, hleft,
      Function.update_self] at hbyte
    have hnat := congrArg UInt8.toNat hbyte
    rw [UInt8.toNat_add, show (1 : UInt8).toNat = 1 from rfl] at hnat
    have hlt := UInt8.toNat_lt (w.heap.mem (addr out.rv j))
    omega
  · obtain ⟨out', hcall', hrv', hbytes⟩ := hany w'.heap.mem
    have hheap : w'.heap = w.heap.setMem w'.heap.mem := congrArg HeapWorld.heap hw'.rest
    have hpages : w'.granted = w.granted := by rw [hw'.rest]
    refine ⟨out', ?_, hrv', fun i hi => ?_⟩
    · rw [hpages, hheap]
      exact hcall'
    · rw [hself i hi, hbytes i hi]
      split
      · rfl
      · rename_i hbehind
        refine w.heap.handedOut_pointwise answer cls (hw'.mem L inv _ ?_)
        rw [hrv]
        exact hnone L inv i (by omega) hi

end Mapping

/-- Some numbers for the constants. -/
def sampleMman : Mman := ⟨1, 0x1000, 86⟩

/-- 100 anonymous bytes from a new page run, in a memory of zeros. -/
theorem mmap_clean_iff_fresh :
    ∃ out, mmap (answering 0x200000) sampleMman (HeapWorld.boot fun _ => 0).heap [] 0 0 100 3 0x1000 (-1) 0
      (.error 0) =
        some out ∧ out.rv = 0x201000 ∧ MappingClean out 100 [] := by
  have h : (mmap (answering 0x200000) sampleMman (HeapWorld.boot fun _ => 0).heap [] 0 0 100 3 0x1000 (-1) 0
      (.error 0)).map (fun out => (out.rv, decide (GrantsGood out.pages))) = some (0x201000, true) := by
    decide +kernel
  obtain ⟨out, hcall, hends⟩ := Option.map_eq_some_iff.mp h
  obtain ⟨hrv, hgood⟩ := Prod.mk.inj hends
  have hok : out.rv ≠ mapFailed := by
    rw [hrv]
    decide
  have hrun : run libcStep (HeapWorld.boot fun _ => 0) [] = some (HeapWorld.boot fun _ => 0) := rfl
  obtain ⟨cls, -, hclean, -, hfits⟩ := mmap_clean_iff hrun hcall hok (of_decide_eq_true hgood)
  exact ⟨out, hcall, hrv, hclean.mpr ((hfits (by decide)).1.mpr fun _ _ _ => rfl)⟩

/-- A byte that was written to an allocation, which was freed, is part of an anonymous mapping. -/
theorem mmap_returns_freed_byte :
    ∃ w out, run libcStep (HeapWorld.boot fun _ => 0)
        [.heap (.alloc 5000 8 0x200000), .heap (.write 0x201005 42), .heap (.free 0x200008)] = some w ∧
        w.live = [] ∧
      mmap (answering 0) sampleMman w.heap w.granted 0 0 100 3 0x1000 (-1) 0 (.error 0) = some out ∧
      out.rv = 0x201000 ∧
      GrantsGood out.pages ∧ out.heap.mem (addr out.rv 5) = 42 := by
  have h : (run libcStep (HeapWorld.boot fun _ => 0)
      [.heap (.alloc 5000 8 0x200000), .heap (.write 0x201005 42), .heap (.free 0x200008)]).map
      (fun w => (w.live,
        (mmap (answering 0) sampleMman w.heap w.granted 0 0 100 3 0x1000 (-1) 0 (.error 0)).map fun out =>
          (out.rv, decide (GrantsGood out.pages), out.heap.mem (addr out.rv 5)))) =
      some ([], some (0x201000, true, 42)) := by
    decide +kernel
  obtain ⟨w, hrun, hends⟩ := Option.map_eq_some_iff.mp h
  obtain ⟨hlive, hmap⟩ := Prod.mk.inj hends
  obtain ⟨out, hcall, hout⟩ := Option.map_eq_some_iff.mp hmap
  obtain ⟨hrv, hrest⟩ := Prod.mk.inj hout
  obtain ⟨hgood, hbyte⟩ := Prod.mk.inj hrest
  exact ⟨w, out, hrun, hlive, hcall, hrv, of_decide_eq_true hgood, hbyte⟩

end RumpBaremetal
