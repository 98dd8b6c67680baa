/-
Module: RumpBaremetal.Proofs.LibcMalloc
Layer: Proofs
Purpose: Which requests of libc the allocator serves as they were meant.  The sum of a request and its
  header and the product of `calloc` are formed modulo `2^32`; `posix_memalign` passes its arguments on in
  the order of `bmk_memalloc`, where the header of libc declares them the other way round.  For each the
  exact condition is worked out.
Trusted boundary: none (fully proved)
Main exports: memalloc_contains_iff, calloc_covers_iff, MemalignHonoured, posixMemalign_honoured_iff
-/
import RumpBaremetal.Proofs.Realloc

namespace RumpBaremetal

open ByteMem StepSystem

/-! ### `bmk_memalloc` -/

/-- On every heap that clients of libc can reach, and for every request: the block of a pointer that
    `bmk_memalloc` returns contains the bytes asked for exactly if the request and its header fit into 32
    bits.  A sum above the largest block that does fit is refused. -/
theorem memalloc_contains_iff {mem : ByteMem} {events : List LibcEvent} {w : HeapWorld}
    (hrun : run libcStep (HeapWorld.boot mem) events = some w) {nbytes align answer rv : UInt32}
    {heap : Heap} {granted : List PageGrant}
    (hcall : bmkMemalloc (answering answer) w.heap w.granted nbytes align = (rv, heap, granted))
    (hgood : GrantsGood granted) :
    (rv ≠ 0 → ∃ L : Layout, L.runs.map (·.grant) = granted ∧
      (Live.ofHeader heap.mem rv nbytes align).op.toNat ∈
      L.blocks (Live.ofHeader heap.mem rv nbytes align).bucket ∧
      (Extent.Inside ⟨rv.toNat, nbytes.toNat⟩
          ⟨(Live.ofHeader heap.mem rv nbytes align).op.toNat,
            2 ^ ((Live.ofHeader heap.mem rv nbytes align).bucket + 5)⟩ ↔
        nbytes.toNat + (headerRoom (effectiveAlign align)).toNat < 2 ^ 32)) ∧
    (2 ^ 31 < nbytes.toNat + (headerRoom (effectiveAlign align)).toNat →
      nbytes.toNat + (headerRoom (effectiveAlign align)).toNat < 2 ^ 32 → rv = 0) := by
  obtain ⟨⟨L, inv, hgranted, -⟩, -⟩ := LiveAligned.of_run hrun
  refine ⟨fun hne => ?_, fun hlarge hfit => ?_⟩
  · by_cases hfit : nbytes.toNat + (headerRoom (effectiveAlign align)).toNat < 2 ^ 32
    · obtain ⟨L', r, rfl, rfl, rfl, hgranted', inv'⟩ := inv.alloc_new hgranted hfit hcall hgood hne
      rw [inv'.ofHeader_eq List.mem_cons_self]
      exact ⟨L', hgranted', inv'.live_block List.mem_cons_self, fun _ => hfit,
        fun _ => inv'.payload_inside List.mem_cons_self⟩
    · obtain ⟨L', h', cls, k, hs⟩ := inv.blockTaken hgranted hcall hgood hne
      obtain ⟨hblock, -⟩ := hs.inv.head_block hs.head
      have hrecord : Live.ofHeader heap.mem rv nbytes align = ⟨rv, nbytes, align, h'.nextf cls, cls⟩ :=
        hs.ofHeader_eq nbytes align
      have hptr : (h'.nextf cls).toNat + 8 ≤ rv.toNat := hs.low
      rw [hrecord]
      refine ⟨L', hs.granted, hblock, fun hinside => ?_, fun h => absurd h hfit⟩
      -- the request alone is as large as the largest block, and the header comes before it
      have hroom := headerRoom_le hs.test
      have hsize := largest_block hs.cls_le
      simp only [Extent.Inside, Extent.fin] at hinside
      omega
  · obtain ⟨-, hsz, hbucket⟩ := inv.initPagesz
    rcases bmkMemalloc_cases (answering answer) w.granted hsz hbucket hfit with heq |
      ⟨cls, hcls, -, hroom, -⟩
    · rw [hcall] at heq
      exact (Prod.mk.inj heq).1
    · have hsize := largest_block hcls
      omega

/-- 2000 bytes at a multiple of 64. -/
theorem memalloc_contains_iff_page :
    ∃ rv heap granted, bmkMemalloc (answering 0x200000) (HeapWorld.boot fun _ => 0).heap [] 2000 64 =
      (rv, heap, granted) ∧
      rv = 0x200040 ∧ ∃ L : Layout, L.runs.map (·.grant) = granted ∧
        (Live.ofHeader heap.mem rv 2000 64).op.toNat ∈ L.blocks (Live.ofHeader heap.mem rv 2000 64).bucket ∧
        Extent.Inside ⟨rv.toNat, 2000⟩
          ⟨(Live.ofHeader heap.mem rv 2000 64).op.toNat,
            2 ^ ((Live.ofHeader heap.mem rv 2000 64).bucket + 5)⟩ := by
  rcases hcall : bmkMemalloc (answering 0x200000) (HeapWorld.boot fun _ => 0).heap [] 2000 64
    with ⟨rv, heap, granted⟩
  have hdata : (fun out : UInt32 × Heap × List PageGrant => (out.1, decide (GrantsGood out.2.2)))
      (bmkMemalloc (answering 0x200000) (HeapWorld.boot fun _ => 0).heap [] 2000 64) =
        (0x200040, true) := by
    decide +kernel
  rw [hcall] at hdata
  obtain ⟨hrv, hgood⟩ := Prod.mk.inj hdata
  dsimp only at hrv
  have hrun : run libcStep (HeapWorld.boot fun _ => 0) [] = some (HeapWorld.boot fun _ => 0) := rfl
  obtain ⟨hblock, -⟩ := memalloc_contains_iff hrun hcall (of_decide_eq_true hgood)
  obtain ⟨L, hgranted, hin, hiff⟩ := hblock (by rw [hrv]; decide)
  exact ⟨rv, heap, granted, rfl, hrv, L, hgranted, hin, hiff.mpr (by decide)⟩

/-- Almost `2^32` bytes: the sum with the header is four, and the pointer is cut from a block of 32
    bytes. -/
theorem memalloc_undersized :
    ∃ rv heap granted,
      bmkMemalloc (answering 0x200000) (HeapWorld.boot fun _ => 0).heap [] 0xfffffffc 8 =
      (rv, heap, granted) ∧
      GrantsGood granted ∧ Live.ofHeader heap.mem rv 0xfffffffc 8 = ⟨0x200008, 0xfffffffc, 8, 0x200000, 0⟩ ∧
      ¬ Extent.Inside ⟨rv.toNat, 0xfffffffc⟩ ⟨0x200000, 2 ^ (0 + 5)⟩ :=
  ⟨_, _, _, rfl, by decide +kernel, by decide +kernel, by decide +kernel⟩

/-! ### `calloc` -/

/-- On every heap that clients of libc can reach, and for all operands: the exact product lies in the block
    of the pointer that `calloc` returns exactly if it fits into 32 bits with its header, and then it is
    cleared. -/
theorem calloc_covers_iff {mem : ByteMem} {events : List LibcEvent} {w : HeapWorld}
    (hrun : run libcStep (HeapWorld.boot mem) events = some w) {n size answer v : UInt32} {heap : Heap}
    {granted : List PageGrant}
    (hcall : calloc (answering answer) w.heap w.granted n size = (v, heap, granted))
    (hgood : GrantsGood granted) {header : Live}
    (hheader : header = Live.ofHeader (malloc (answering answer) w.heap w.granted (n * size)).2.1.mem v
      (n * size) 8)
    (hne : v ≠ 0) :
    (∃ L : Layout, L.runs.map (·.grant) = granted ∧ header.op.toNat ∈ L.blocks header.bucket ∧
      (Extent.Inside ⟨v.toNat, n.toNat * size.toNat⟩ ⟨header.op.toNat, 2 ^ (header.bucket + 5)⟩ ↔
        n.toNat * size.toNat + 8 < 2 ^ 32)) ∧
    (n.toNat * size.toNat + 8 < 2 ^ 32 → ∀ i < n.toNat * size.toNat, heap.mem (v.toNat + i) = 0) := by
  obtain ⟨⟨L, inv, hgranted, -⟩, -⟩ := LiveAligned.of_run hrun
  unfold malloc at hheader
  generalize hout : bmkMemalloc (answering answer) w.heap w.granted (n * size) 8 = out at hheader
  simp only [calloc, malloc, hout] at hcall
  have hnull : out.1 ≠ 0 := by
    intro hzero
    rw [if_neg (not_not.mpr hzero)] at hcall
    exact hne ((congrArg Prod.fst hcall).symm.trans hzero)
  rw [if_pos hnull] at hcall
  obtain ⟨rfl, hpair⟩ := Prod.mk.inj hcall
  obtain ⟨rfl, rfl⟩ := Prod.mk.inj hpair
  by_cases hfit : n.toNat * size.toNat + 8 < 2 ^ 32
  · have htot : (n * size).toNat = n.toNat * size.toNat := by
      rw [UInt32.toNat_mul, Nat.mod_eq_of_lt (by omega)]
    have hsum : (n * size).toNat + (headerRoom (effectiveAlign 8)).toNat < 2 ^ 32 := by
      rw [htot]
      exact hfit
    obtain ⟨L', r, hrv, hsize, halign, hgranted', inv'⟩ := inv.alloc_new hgranted hsum hout hgood hnull
    have hrecord := inv'.ofHeader_eq List.mem_cons_self
    rw [hrv, hsize, halign, ← hheader] at hrecord
    subst hrecord
    have hinside := inv'.payload_inside List.mem_cons_self
    obtain ⟨-, hroom, -⟩ := inv'.room_facts List.mem_cons_self
    rw [hsize, htot] at hinside hroom
    rw [hrv] at hinside
    refine ⟨⟨L', hgranted', inv'.live_block List.mem_cons_self, fun _ => hfit, fun _ => hinside⟩,
      fun _ i hi => ?_⟩
    have hclear : bmkMemset out.2.1.mem out.1 0 (n * size) =
        patch out.2.1.mem out.1 (n * size).toNat fun _ => UInt8.ofInt 0 :=
          fillLoop_eq _ _ _ (n * size).toNat_lt.le
    have haddr := inv'.live_addr (i := i) List.mem_cons_self (by omega)
    rw [hrv] at haddr
    have hbyte : patch out.2.1.mem out.1 (n * size).toNat (fun _ => UInt8.ofInt 0) (addr out.1 i) = 0 :=
      patch_addr (n * size).toNat_lt.le (htot ▸ hi)
    rw [hclear, ← haddr]
    exact hbyte
  · obtain ⟨L', h', cls, k, hs⟩ := inv.blockTaken hgranted hout hgood hnull
    obtain ⟨hblock, -⟩ := hs.inv.head_block hs.head
    rw [hs.ofHeader_eq] at hheader
    subst hheader
    refine ⟨⟨L', hs.granted, hblock, fun hinside => ?_, fun h => absurd h hfit⟩, fun h => absurd h hfit⟩
    have hlow := hs.low
    have hsize := largest_block hs.cls_le
    simp only [Extent.Inside, Extent.fin] at hinside
    omega

/-- Three elements of a hundred bytes each, in memory that is all ones. -/
theorem calloc_covers_iff_three :
    ∃ v heap granted, calloc (answering 0x200000) (HeapWorld.boot fun _ => 0xff).heap [] 3 100 =
      (v, heap, granted) ∧
      v = 0x200008 ∧ ∀ i < 300, heap.mem (v.toNat + i) = 0 := by
  rcases hcall : calloc (answering 0x200000) (HeapWorld.boot fun _ => 0xff).heap [] 3 100
    with ⟨v, heap, granted⟩
  have hdata : (fun out : UInt32 × Heap × List PageGrant => (out.1, decide (GrantsGood out.2.2)))
      (calloc (answering 0x200000) (HeapWorld.boot fun _ => 0xff).heap [] 3 100) = (0x200008, true) := by
    decide +kernel
  rw [hcall] at hdata
  obtain ⟨hv, hgood⟩ := Prod.mk.inj hdata
  dsimp only at hv
  have hrun : run libcStep (HeapWorld.boot fun _ => 0xff) [] = some (HeapWorld.boot fun _ => 0xff) := rfl
  obtain ⟨-, hzero⟩ := calloc_covers_iff hrun hcall (of_decide_eq_true hgood) rfl (by rw [hv]; decide)
  exact ⟨v, heap, granted, rfl, hv, hzero (by decide)⟩

/-- The product of 65536 and 65536 is zero modulo `2^32`: a pointer into a block of 32 bytes. -/
theorem calloc_undersized :
    ∃ v heap granted, calloc (answering 0x200000) (HeapWorld.boot fun _ => 0xff).heap [] 65536 65536 =
      (v, heap, granted) ∧
      GrantsGood granted ∧
      Live.ofHeader
        (malloc (answering 0x200000) (HeapWorld.boot fun _ => 0xff).heap [] (65536 * 65536)).2.1.mem v 0 8 =
          ⟨0x200008, 0, 8, 0x200000, 0⟩ ∧
      ¬ Extent.Inside ⟨v.toNat, 65536 * 65536⟩ ⟨0x200000, 2 ^ (0 + 5)⟩ ∧ heap.mem v.toNat = 0xff :=
  ⟨_, _, _, rfl, by decide +kernel, by decide +kernel, by decide +kernel, by decide +kernel⟩

/-! ### `posix_memalign` -/

/-- The header takes eight bytes, or the alignment if that is more. -/
theorem headerRoom_eq_max {align : UInt32} (htest : align &&& (align - 1) = 0) :
    (headerRoom (effectiveAlign align)).toNat = max 8 align.toNat := by
  by_cases hsmall : align < 4
  · have hlt : align.toNat < 4 := UInt32.lt_iff_toNat_lt.mp hsmall
    rw [effectiveAlign, if_pos hsmall, max_eq_left (by omega)]
    rfl
  · obtain ⟨k, hk, -, halign, -⟩ := effectiveAlign_pow htest
    rw [headerRoom_toNat halign]
    rw [effectiveAlign, if_neg hsmall] at halign
    rw [halign]
    by_cases hthree : 3 ≤ k
    · have height : 2 ^ 3 ≤ 2 ^ k := Nat.pow_le_pow_right (by decide) hthree
      rw [max_eq_right (by omega)]
      exact Nat.le_antisymm (roundUp_le_of_dvd (Nat.two_pow_pos k) dvd_rfl (by omega)) (pow_le_headerRoom k)
    · obtain rfl : k = 2 := by omega
      rfl

/-- Sizes between one power of two and the next are of one class. -/
theorem leastClass_eq_of_between {x y j : Nat} (hx : 2 ^ j < x) (hx' : x ≤ 2 ^ (j + 1)) (hy : 2 ^ j < y)
    (hy' : y ≤ 2 ^ (j + 1)) : leastClass x = leastClass y := by
  have hnext : ∀ {z : Nat}, 2 ^ j < z → z ≤ 2 ^ (j + 1) → ∀ m, z ≤ 2 ^ m ↔ j + 1 ≤ m := by
    intro z hz hz' m
    constructor
    · intro hle
      exact (Nat.pow_lt_pow_iff_right (by decide : 1 < 2)).mp (hz.trans_le hle)
    · intro hm
      exact hz'.trans (Nat.pow_le_pow_right (by decide) hm)
  refine eq_of_forall_ge_iff fun cls => ?_
  rw [leastClass_le_iff, leastClass_le_iff, hnext hx hx', hnext hy hy']

theorem leastClass_eq_of_small {x y : Nat} (hx : x ≤ 32) (hy : y ≤ 32) : leastClass x = leastClass y := by
  rw [Nat.le_zero.mp (leastClass_le_iff.mpr hx), Nat.le_zero.mp (leastClass_le_iff.mpr hy)]

/-- The arguments for which the order does not matter: a size that passes for an alignment, and an alignment
    that is no more than that size, or than the eight bytes that every pointer is a multiple of. -/
def MemalignFits (alignment size : UInt32) : Prop :=
  (size = 0 ∨ size.toNat.isPowerOfTwo) ∧ alignment.toNat ≤ max 8 size.toNat

/-- Then the request is of one class in either order, and the class has room for the size beside the
    header. -/
theorem MemalignFits.class_eq {alignment size : UInt32} (h : MemalignFits alignment size)
    (hmin : 4 ≤ alignment.toNat) :
    leastClass (alignment.toNat + max 8 size.toNat) = leastClass (size.toNat + max 8 size.toNat) ∧
      leastClass (size.toNat + max 8 alignment.toNat) = leastClass (size.toNat + max 8 size.toNat) := by
  obtain ⟨hpow, hle⟩ := h
  by_cases hsmall : size.toNat ≤ 8
  · rw [max_eq_left hsmall] at hle ⊢
    rw [max_eq_left hle]
    exact ⟨leastClass_eq_of_small (by omega) (by omega), rfl⟩
  · have hne : size ≠ 0 := by
      rintro rfl
      exact hsmall (by decide)
    obtain ⟨j, hj⟩ := hpow.resolve_left hne
    have hnext : 2 ^ (j + 1) = 2 * 2 ^ j := by rw [Nat.pow_succ, Nat.mul_comm]
    rw [max_eq_right (by omega)] at hle ⊢
    constructor <;> refine leastClass_eq_of_between (j := j) ?_ ?_ ?_ ?_ <;> omega

theorem test_of_isPowerOfTwo {a : UInt32} (h : a = 0 ∨ a.toNat.isPowerOfTwo) : a &&& (a - 1) = 0 := by
  by_cases hzero : a = 0
  · subst hzero
    rfl
  · exact (UInt32.test_iff hzero).mpr (h.resolve_left hzero)

/-- The class of a request whose sum with the header is at most the largest block. -/
theorem classOf_some {h : Heap} (hsz : h.pagesz = pageSize) (hbucket : h.pagebucket = 7)
    {nbytes align : UInt32} (htest : align &&& (align - 1) = 0)
    (hsum : nbytes.toNat + max 8 align.toNat ≤ 2 ^ 31) :
    classOf h nbytes align = some (leastClass (nbytes.toNat + max 8 align.toNat)) := by
  have hbytes : (nbytes + headerRoom (effectiveAlign align)).toNat = nbytes.toNat + max 8 align.toNat := by
    rw [UInt32.toNat_add, headerRoom_eq_max htest, Nat.mod_eq_of_lt (by omega)]
  rw [classOf_eq hsz hbucket, hbytes, if_pos ⟨htest, hsum⟩]

/-- A request whose class is known fails only where its list is empty and the page source is, too. -/
theorem HeapInv.serve_null {L : Layout} {h : Heap} {live : List Live} (inv : HeapInv L h live)
    {granted : List PageGrant} (hgranted : L.runs.map (·.grant) = granted) (hsz : h.pagesz = pageSize)
    (hbucket : h.pagebucket = 7) {cls k : Nat} (hcls : cls ≤ 26) {align answer : UInt32}
    (halign : align.toNat = 2 ^ k) (hroom : roundUp 8 (2 ^ k) ≤ 2 ^ (cls + 5))
    (hgood : GrantsGood (RumpBaremetal.serve (answering answer) h granted cls align).2.2)
    (hnull : (RumpBaremetal.serve (answering answer) h granted cls align).1 = 0) :
    h.nextf cls = 0 ∧ answer = 0 := by
  rw [serve_pages] at hgood
  obtain ⟨L', inv', -⟩ := inv.refill hgranted hsz hbucket hcls hgood
  rcases hpair : RumpBaremetal.refill (answering answer) h granted cls with ⟨h', granted'⟩
  rw [hpair] at inv'
  simp only [RumpBaremetal.serve, hpair] at hnull
  have hempty : h'.nextf cls = 0 := by
    by_contra hop
    have hasked : (0 : UInt32) ≠ 0 → (0 : UInt32).toNat ∣ 2 ^ k := fun hne => absurd rfl hne
    have hbytes : (0 : UInt32).toNat + roundUp 8 (2 ^ k) ≤ 2 ^ (cls + 5) := by
      rw [UInt32.toNat_zero, Nat.zero_add]
      exact hroom
    obtain ⟨free', hne, -⟩ := inv'.take hop halign hasked hbytes
    rw [if_neg hop] at hnull
    exact hne hnull
  unfold RumpBaremetal.refill at hpair
  by_cases hlist : h.nextf cls = 0
  · refine ⟨hlist, ?_⟩
    by_contra hanswer
    obtain ⟨howmany, sz, -, -, heq⟩ := morecore_granted granted hcls hsz hbucket hanswer
    rw [if_pos hlist, heq] at hpair
    obtain ⟨rfl, -⟩ := Prod.mk.inj hpair
    exact hanswer (by simpa using hempty)
  · rw [if_neg hlist] at hpair
    obtain ⟨rfl, -⟩ := Prod.mk.inj hpair
    exact absurd hempty hlist

section PageSource

variable {Pages : Type*} (allocpg : Pages → UInt32 → UInt32 × Pages) {h : Heap} {pages : Pages}
  {p nbytes align : UInt32}

theorem posixMemalign_served (hne : (bmkMemalloc allocpg h pages nbytes align).1 ≠ 0) :
    posixMemalign allocpg h pages p nbytes align = (0, bmkMemalloc allocpg h pages nbytes align) :=
    if_pos hne

theorem posixMemalign_refused (hnull : (bmkMemalloc allocpg h pages nbytes align).1 = 0) :
    posixMemalign allocpg h pages p nbytes align = (10, p, (bmkMemalloc allocpg h pages nbytes align).2) :=
  if_neg (not_not.mpr hnull)

end PageSource

/-- What POSIX promises to the caller of `posix_memalign(&p, alignment, size)`, for the outcome of the call:
    the error, `p` afterwards, and heap and page runs.  `answer` is what the page source says should it be
    asked. -/
structure MemalignHonoured (w : HeapWorld) (answer p alignment size : UInt32)
    (out : Int × UInt32 × Heap × List PageGrant) : Prop where
  served : out.1 = 0 → alignment.toNat ∣ out.2.1.toNat ∧ ∃ L : Layout, L.runs.map (·.grant) = out.2.2.2 ∧
    (Live.ofHeader out.2.2.1.mem out.2.1 size alignment).op.toNat ∈
      L.blocks (Live.ofHeader out.2.2.1.mem out.2.1 size alignment).bucket ∧
    Extent.Inside ⟨out.2.1.toNat, size.toNat⟩
      ⟨(Live.ofHeader out.2.2.1.mem out.2.1 size alignment).op.toNat,
        2 ^ ((Live.ofHeader out.2.2.1.mem out.2.1 size alignment).bucket + 5)⟩
  refused : out.1 ≠ 0 → out.2.1 = p ∧ ∃ cls, classOf (initPagesz w.heap) size alignment = some cls ∧
    w.heap.nextf cls = 0 ∧ answer = 0

/-- A power of two below `2^31` leaves room for itself. -/
theorem double_le {size : UInt32} (hpow : size = 0 ∨ size.toNat.isPowerOfTwo) (hlt : size.toNat < 2 ^ 31) :
    size.toNat + max 8 size.toNat ≤ 2 ^ 31 := by
  by_cases hzero : size = 0
  · subst hzero
    decide
  · obtain ⟨j, hj⟩ := hpow.resolve_left hzero
    rw [hj] at hlt ⊢
    have hjlt : j < 31 := (Nat.pow_lt_pow_iff_right (by decide : 1 < 2)).mp hlt
    have hhalf : 2 ^ j ≤ 2 ^ 30 := Nat.pow_le_pow_right (by decide) (by omega)
    omega

/-- Where the order does not matter, the promise is kept. -/
theorem MemalignFits.honoured {alignment size : UInt32} (h : MemalignFits alignment size)
    (hpow : alignment.toNat.isPowerOfTwo) (hmin : 4 ≤ alignment.toNat)
    (hsum : size.toNat + alignment.toNat < 2 ^ 31) {w : HeapWorld} (hw : LiveAligned w)
    (answer p : UInt32)
    (hgood : GrantsGood (posixMemalign (answering answer) w.heap w.granted p alignment size).2.2.2) :
    MemalignHonoured w answer p alignment size
      (posixMemalign (answering answer) w.heap w.granted p alignment size) := by
  obtain ⟨⟨L, inv, hgranted, -⟩, -⟩ := hw
  obtain ⟨inv', hsz, hbucket⟩ := inv.initPagesz
  have htest : size &&& (size - 1) = 0 := test_of_isPowerOfTwo h.1
  have htest' : alignment &&& (alignment - 1) = 0 := test_of_isPowerOfTwo (.inr hpow)
  obtain ⟨hswapped, hrequired⟩ := h.class_eq hmin
  have hle := h.2
  have hdouble := double_le h.1 (by omega)
  have hfit : size.toNat + (headerRoom (effectiveAlign size)).toNat < 2 ^ 32 := by
    rw [headerRoom_eq_max htest]
    omega
  -- the call is one for `size` bytes at a multiple of `size`
  have hclass := classOf_some hsz hbucket htest hdouble
  have hsame : bmkMemalloc (answering answer) w.heap w.granted alignment size =
      bmkMemalloc (answering answer) w.heap w.granted size size := by
    rw [bmkMemalloc_eq, bmkMemalloc_eq, hclass, classOf_some hsz hbucket htest (by omega), hswapped]
  by_cases hnull : (bmkMemalloc (answering answer) w.heap w.granted alignment size).1 = 0
  · rw [posixMemalign_refused _ hnull] at hgood ⊢
    refine ⟨fun hzero => absurd hzero (show (10 : Int) ≠ 0 by decide), fun _ => ⟨rfl, ?_⟩⟩
    refine ⟨_, classOf_some hsz hbucket htest' (by omega), ?_⟩
    rw [hrequired]
    rw [hsame, bmkMemalloc_eq, hclass] at hgood hnull
    obtain ⟨k, -, -, halign, -⟩ := effectiveAlign_pow htest
    obtain ⟨hcls, -, -⟩ := classOf_fits hsz hbucket hclass
    have hroom : roundUp 8 (2 ^ k) ≤ 2 ^ (leastClass (size.toNat + max 8 size.toNat) + 5) := by
      rw [← headerRoom_toNat halign, headerRoom_eq_max htest]
      exact (Nat.le_add_left _ _).trans (leastClass_le_iff.mp le_rfl)
    have hempty := inv'.serve_null hgranted hsz hbucket hcls halign hroom hgood hnull
    rw [initPagesz_nextf] at hempty
    exact hempty
  · rw [posixMemalign_served _ hnull] at hgood ⊢
    refine ⟨fun _ => ?_, fun hne => absurd rfl hne⟩
    generalize hout : bmkMemalloc (answering answer) w.heap w.granted alignment size = out at hnull hgood ⊢
    rw [hsame] at hout
    dsimp only at hgood ⊢
    obtain ⟨L', r, hrv, hsize, halign, hgranted', inv''⟩ := inv.alloc_new hgranted hfit hout hgood hnull
    obtain ⟨-, hptr, -⟩ := inv.alloc_frame hgranted hfit hout hgood
    have hrecord := inv''.ofHeader_eq List.mem_cons_self
    obtain ⟨-, -, -, hheader, hpayload, haligned⟩ := inv''.good r List.mem_cons_self
    have hblock := inv''.live_block List.mem_cons_self
    rw [hrv, hsize] at hpayload
    rw [hrv, hsize, halign] at hrecord
    rw [hrv] at hheader
    rw [hrv, halign] at haligned
    have hop : (Live.ofHeader out.2.1.mem out.1 size alignment).op = r.op := by rw [← hrecord]; rfl
    have hcls : (Live.ofHeader out.2.1.mem out.1 size alignment).bucket = r.bucket := by rw [← hrecord]; rfl
    rw [hop, hcls]
    refine ⟨?_, L', hgranted', hblock, by dsimp only; omega, hpayload⟩
    obtain ⟨i, hi⟩ := hpow
    by_cases hsmall : alignment.toNat ≤ 8
    · have height : alignment.toNat ∣ 2 ^ 3 := by
        rw [hi] at hsmall ⊢
        exact pow_dvd_of_le hsmall
      exact height.trans (Nat.dvd_of_mod_eq_zero (hptr hnull).2)
    · have hne : size ≠ 0 := by
        rintro rfl
        exact hsmall hle
      obtain ⟨j, hj⟩ := h.1.resolve_left hne
      have hdvd : alignment.toNat ∣ size.toNat := by
        rw [hi, hj] at hle ⊢
        rw [hi] at hsmall
        exact pow_dvd_of_le (by omega)
      exact hdvd.trans (haligned hne)

/-- The first request of all, with a page run at `a`: it is served from the start of the run. -/
theorem boot_serve {a align : UInt32} {k cls : Nat} (hcls : cls ≤ 26) (halign : align.toNat = 2 ^ k)
    (hroom : roundUp 8 (2 ^ k) ≤ 2 ^ (cls + 5)) (ha : a ≠ 0) (hpage : a.toNat % 4096 = 0)
    (hlow : a.toNat ≤ 2 ^ 30) {out : UInt32 × Heap × List PageGrant}
    (hout : serve (answering a) (initPagesz (HeapWorld.boot fun _ => 0).heap) [] cls align = out) :
    out.1.toNat = roundUp (a.toNat + 8) (2 ^ k) ∧ GrantsGood out.2.2 := by
  subst hout
  obtain ⟨howmany, sz, hpages, -, heq⟩ :=
    morecore_granted (h := initPagesz (HeapWorld.boot fun _ => 0).heap) [] hcls rfl rfl ha
  have hrefill : refill (answering a) (initPagesz (HeapWorld.boot fun _ => 0).heap) [] cls =
      morecore (answering a) (initPagesz (HeapWorld.boot fun _ => 0).heap) [] cls := if_pos rfl
  have hsize := largest_block hcls
  refine ⟨?_, ?_⟩
  · simp only [serve, hrefill, heq, Function.update_self, if_neg ha]
    exact takeBlock_pointer _ halign hroom (by omega)
  · rw [serve_pages, hrefill, heq]
    refine ⟨fun g hg => ?_, List.pairwise_singleton _ _⟩
    obtain rfl := List.mem_singleton.mp hg
    refine ⟨hpage, ?_⟩
    -- the run has a page or a block of the class, whichever is more
    have hrun : 2 ^ (cls - 7) * 4096 ≤ 2 ^ 31 := by
      rw [show 4096 = 2 ^ 12 from rfl, ← Nat.pow_add]
      exact Nat.pow_le_pow_right (by decide) (by omega)
    simp only [Extent.fin, PageGrant.extent, hpages]
    omega

/-- A size that is no power of two is refused, whatever memory there is. -/
theorem posixMemalign_refuses (w : HeapWorld) {alignment size : UInt32} (htest : size &&& (size - 1) ≠ 0)
    (answer p : UInt32) : posixMemalign (answering answer) w.heap w.granted p alignment size =
      (10, p, initPagesz w.heap, w.granted) := by
  have hclass : classOf (initPagesz w.heap) alignment size = none := if_pos htest
  have hcall : bmkMemalloc (answering answer) w.heap w.granted alignment size = (0, initPagesz w.heap,
      w.granted) := by
    rw [bmkMemalloc_eq, hclass]
  have hnull : (bmkMemalloc (answering answer) w.heap w.granted alignment size).1 = 0 := by rw [hcall]
  rw [posixMemalign_refused _ hnull, hcall]

/-- With a page run at a multiple of the alignment, the first request of all is served, and its pointer is
    no multiple: it lies behind the header, by less than the alignment. -/
theorem posixMemalign_misaligns {alignment size a : UInt32} {i m : Nat}
    (halignment : alignment.toNat = 2 ^ i) (htest : size &&& (size - 1) = 0)
    (hlarge : max 8 size.toNat < alignment.toNat) (hi : i ≤ 30) (ha : a.toNat = 2 ^ m)
    (hm : 12 ≤ m ∧ i ≤ m ∧ m ≤ 30) (p : UInt32) {out : Int × UInt32 × Heap × List PageGrant}
    (hout : posixMemalign (answering a) (HeapWorld.boot fun _ => 0).heap [] p alignment size = out) :
    GrantsGood out.2.2.2 ∧ out.1 = 0 ∧ ¬ alignment.toNat ∣ out.2.1.toNat := by
  have hhalf : 2 ^ i ≤ 2 ^ 30 := Nat.pow_le_pow_right (by decide) hi
  have hlow : 2 ^ m ≤ 2 ^ 30 := Nat.pow_le_pow_right (by decide) hm.2.2
  have hane : a ≠ 0 := by
    rintro rfl
    exact absurd ha.symm (Nat.two_pow_pos m).ne'
  have hpage : a.toNat % 4096 = 0 := by
    rw [ha]
    exact Nat.mod_eq_zero_of_dvd (pow_dvd_pow 2 hm.1)
  -- the class that the code looks for
  obtain ⟨k, hk, -, halign, -⟩ := effectiveAlign_pow htest
  have hheader := headerRoom_eq_max htest
  rw [headerRoom_toNat halign] at hheader
  have hclass : classOf (initPagesz (HeapWorld.boot fun _ => 0).heap) alignment size =
      some (leastClass (alignment.toNat + max 8 size.toNat)) := classOf_some rfl rfl htest (by omega)
  obtain ⟨hcls, -, -⟩ := classOf_fits rfl rfl hclass
  have hroom : roundUp 8 (2 ^ k) ≤ 2 ^ (leastClass (alignment.toNat + max 8 size.toNat) + 5) := by
    rw [hheader]
    exact (Nat.le_add_left _ _).trans (leastClass_le_iff.mp le_rfl)
  have hcall : serve (answering a) (initPagesz (HeapWorld.boot fun _ => 0).heap) []
        (leastClass (alignment.toNat + max 8 size.toNat)) (effectiveAlign size) =
      bmkMemalloc (answering a) (HeapWorld.boot fun _ => 0).heap [] alignment size := by
    rw [bmkMemalloc_eq, hclass]
  obtain ⟨hptr, hgrants⟩ := boot_serve hcls halign hroom hane hpage (ha ▸ hlow) hcall
  have hkm : 2 ^ k ∣ 2 ^ m := by
    refine pow_dvd_of_le ((pow_le_headerRoom k).trans ?_)
    rw [hheader]
    exact hlarge.le.trans (halignment ▸ Nat.pow_le_pow_right (by decide) hm.2.1)
  rw [ha, roundUp_add_of_dvd (Nat.two_pow_pos k) hkm, hheader] at hptr
  have hne : (bmkMemalloc (answering a) (HeapWorld.boot fun _ => 0).heap [] alignment size).1 ≠ 0 := by
    intro hzero
    rw [hzero, UInt32.toNat_zero] at hptr
    omega
  rw [posixMemalign_served _ hne] at hout
  subst hout
  refine ⟨hgrants, rfl, fun hdvd => ?_⟩
  dsimp only at hdvd
  rw [hptr] at hdvd
  have hbase : alignment.toNat ∣ 2 ^ m := halignment ▸ pow_dvd_pow 2 hm.2.1
  have hrest := (Nat.dvd_add_right hbase).mp hdvd
  have hle := Nat.le_of_dvd (by omega) hrest
  omega

/-- For every alignment and size that POSIX admits, `posix_memalign(&p, alignment, size)` keeps its promise
    on all heaps that clients of libc can reach exactly if the size could be an alignment itself and the
    alignment is at most that size, or at most eight. -/
theorem posixMemalign_honoured_iff {alignment size : UInt32} (hpow : alignment.toNat.isPowerOfTwo)
    (hmult : 4 ∣ alignment.toNat) (hsum : size.toNat + alignment.toNat < 2 ^ 31) :
    (∀ mem events w answer p, run libcStep (HeapWorld.boot mem) events = some w →
        GrantsGood (posixMemalign (answering answer) w.heap w.granted p alignment size).2.2.2 →
        MemalignHonoured w answer p alignment size
          (posixMemalign (answering answer) w.heap w.granted p alignment size)) ↔
      (size = 0 ∨ size.toNat.isPowerOfTwo) ∧ alignment.toNat ≤ max 8 size.toNat := by
  have hpos : 0 < alignment.toNat := by
    obtain ⟨i, hi⟩ := hpow
    rw [hi]
    exact Nat.two_pow_pos i
  have hmin : 4 ≤ alignment.toNat := Nat.le_of_dvd hpos hmult
  refine ⟨fun hall => ?_, fun hfits mem events w answer p hrun hgood =>
    MemalignFits.honoured hfits hpow hmin hsum (LiveAligned.of_run hrun) answer p hgood⟩
  obtain ⟨i, hi⟩ := hpow
  have hi30 : i < 31 := by
    refine (Nat.pow_lt_pow_iff_right (by decide : 1 < 2)).mp ?_
    omega
  -- the heap before the first call, and a page run at a multiple of the alignment
  have hlow : 2 ^ max 12 i ≤ 2 ^ 30 := Nat.pow_le_pow_right (by decide) (by omega)
  have hbase : (UInt32.ofNat (2 ^ max 12 i)).toNat = 2 ^ max 12 i := by
    rw [UInt32.toNat_ofNat', Nat.mod_eq_of_lt (by omega)]
  have hfirst := hall (fun _ => 0) [] (HeapWorld.boot fun _ => 0) (UInt32.ofNat (2 ^ max 12 i)) 0 rfl
  have htest : size &&& (size - 1) = 0 := by
    by_contra hfails
    rw [posixMemalign_refuses _ hfails] at hfirst
    obtain ⟨-, cls, -, -, hanswer⟩ :=
      (hfirst ⟨fun _ hg => absurd hg List.not_mem_nil, List.Pairwise.nil⟩).refused
        (show (10 : Int) ≠ 0 by decide)
    rw [hanswer] at hbase
    exact absurd hbase.symm (Nat.two_pow_pos _).ne'
  refine ⟨?_, ?_⟩
  · by_cases hzero : size = 0
    · exact .inl hzero
    · exact .inr ((UInt32.test_iff hzero).mp htest)
  · by_contra hlarge
    obtain ⟨hgrants, herror, hmisaligned⟩ :=
      posixMemalign_misaligns hi htest (Nat.lt_of_not_le hlarge) (by omega) hbase (by omega) 0 rfl
    exact hmisaligned ((hfirst hgrants).served herror).1

/-- 64 bytes at a multiple of 64. -/
theorem posixMemalign_honoured_iff_square :
    MemalignHonoured (HeapWorld.boot fun _ => 0) 0x200000 0 64 64
      (posixMemalign (answering 0x200000) (HeapWorld.boot fun _ => 0).heap [] 0 64 64) :=
  (posixMemalign_honoured_iff (show (64 : UInt32).toNat.isPowerOfTwo from ⟨6, rfl⟩) (by decide)
    (show (64 : UInt32).toNat + (64 : UInt32).toNat < 2 ^ 31 by decide)).mpr
    ⟨.inr ⟨6, rfl⟩, by decide⟩ (fun _ => 0) [] (HeapWorld.boot fun _ => 0) 0x200000 0 rfl
      (by decide +kernel)

/-- A hundred bytes at a multiple of 64 are refused with memory at hand, which the same request gets from
    `bmk_memalloc`; 64 bytes at a multiple of a page are served at a multiple of 64. -/
theorem posixMemalign_swapped :
    ((posixMemalign (answering 0x200000) (HeapWorld.boot fun _ => 0).heap [] 0 64 100).1 = 10 ∧
      (bmkMemalloc (answering 0x200000) (HeapWorld.boot fun _ => 0).heap [] 100 64).1 = 0x200040) ∧
    (posixMemalign (answering 0x200000) (HeapWorld.boot fun _ => 0).heap [] 0 4096 64).1 = 0 ∧
      GrantsGood (posixMemalign (answering 0x200000) (HeapWorld.boot fun _ => 0).heap [] 0 4096 64).2.2.2 ∧
      (posixMemalign (answering 0x200000) (HeapWorld.boot fun _ => 0).heap [] 0 4096 64).2.1 = 0x200040 ∧
      ¬ 4096 ∣ 0x200040 := by
  decide +kernel

end RumpBaremetal
