/-
Module: RumpBaremetal.Proofs.Memalloc
Layer: Proofs
Purpose: What the parts of the allocator compute: the size class, the place of the pointer in its block,
  the header, and the list that `morecore` threads through a new page run.  All statements are about
  natural numbers; the machine arithmetic is resolved here, with the bounds that keep it from wrapping.
Trusted boundary: none (fully proved)
Main exports: sizeSearch_eq, searchExit, search_from_start, classOf_search, classOf_eq, pointer_in_block,
  headerRoom_toNat, takeBlock_pointer, carve_links, carve_spec, morecore_spec, bmkMemalloc_cases,
  bmkMemfree_cases
-/
import RumpBaremetal.Kernel.Memalloc
import RumpBaremetal.Lib.Align
import RumpBaremetal.Lib.Patch

namespace RumpBaremetal

open ByteMem

/-! ### Size classes -/

theorem one_shiftLeft_toNat {n : Nat} (hn : n < 32) :
    ((1 : UInt32) <<< UInt32.ofNat n).toNat = 2 ^ n := by
  have hpow : 2 ^ n < 2 ^ 32 := Nat.pow_lt_pow_right (by decide) hn
  have hmod : n % 2 ^ 32 = n := Nat.mod_eq_of_lt (by omega)
  rw [UInt32.toNat_shiftLeft, UInt32.toNat_ofNat', hmod, Nat.mod_eq_of_lt hn]
  simp only [UInt32.toNat_one, Nat.shiftLeft_eq, Nat.one_mul]
  exact Nat.mod_eq_of_lt hpow

theorem double_toNat {amt : UInt32} {n : Nat} (hamt : amt.toNat = 2 ^ n) :
    (amt <<< 1).toNat = 2 ^ (n + 1) % 2 ^ 32 := by
  rw [UInt32.toNat_shiftLeft, hamt]
  simp only [UInt32.toNat_one, Nat.shiftLeft_eq]
  rw [show 1 % 32 = 1 from rfl, ← Nat.pow_add]

/-- The smallest class whose blocks have `n` bytes. -/
def leastClass (n : Nat) : Nat := Nat.clog 2 n - 5

theorem leastClass_le_iff {n cls : Nat} : leastClass n ≤ cls ↔ n ≤ 2 ^ (cls + 5) := by
  unfold leastClass
  rw [Nat.sub_le_iff_le_add, Nat.clog_le_iff_le_pow (by decide)]

/-- The end of a search that has found a class. -/
def exitAt (cls : Nat) : SearchExit := .found (UInt32.ofNat (2 ^ (cls + 5))) cls

/-- The search goes upwards from a class and its size, in step, and ends with the smallest class that is
    large enough.  It fails where there is none: the largest has blocks of `2^31` bytes. -/
theorem sizeSearch_eq (allocbytes : UInt32) (rounds : Nat) :
    ∀ {amt : UInt32} {bucket : Nat}, amt.toNat = 2 ^ (bucket + 5) → bucket ≤ 26 → 27 ≤ rounds + bucket →
      sizeSearch allocbytes rounds amt bucket =
        some (if allocbytes.toNat ≤ 2 ^ 31 then exitAt (max bucket (leastClass allocbytes.toNat))
          else .null) := by
  induction rounds with
  | zero =>
      intro amt bucket _ hbucket hrounds
      omega
  | succ rounds ih =>
      intro amt bucket hamt hbucket hrounds
      have hlarger : allocbytes > amt ↔ ¬ leastClass allocbytes.toNat ≤ bucket := by
        rw [leastClass_le_iff, ← hamt, Nat.not_le]
        exact UInt32.lt_iff_toNat_lt
      have hdouble := double_toNat hamt
      simp only [sizeSearch, hlarger]
      by_cases hfits : leastClass allocbytes.toNat ≤ bucket
      · have hbytes : allocbytes.toNat ≤ 2 ^ 31 :=
          (leastClass_le_iff.mp hfits).trans (Nat.pow_le_pow_right (by decide) (by omega))
        rw [if_neg (not_not.mpr hfits), if_pos hbytes, max_eq_left hfits, exitAt, ← hamt,
          UInt32.ofNat_toNat]
      · rw [if_pos hfits]
        by_cases hlast : bucket = 26
        · -- the shift out of the largest class empties `amt`
          subst hlast
          have hbytes : ¬ allocbytes.toNat ≤ 2 ^ 31 := mt leastClass_le_iff.mpr hfits
          have hzero : amt <<< 1 = 0 := UInt32.toNat_inj.mp hdouble
          rw [if_pos hzero, if_neg hbytes]
        · have hsize : (amt <<< 1).toNat = 2 ^ (bucket + 1 + 5) := by
            rw [hdouble]
            exact Nat.mod_eq_of_lt (Nat.pow_lt_pow_right (by decide) (by omega))
          have hnonzero : amt <<< 1 ≠ 0 := by
            intro hzero
            rw [hzero] at hsize
            exact absurd hsize.symm (Nat.two_pow_pos _).ne'
          rw [if_neg hnonzero, ih hsize (by omega) (by omega), max_eq_right (by omega),
            max_eq_right (by omega)]

/-- The end of the search for the smallest class. -/
def searchExit (allocbytes : UInt32) : SearchExit :=
  if allocbytes.toNat ≤ 2 ^ 31 then exitAt (leastClass allocbytes.toNat) else .null

theorem search_from_smallest (allocbytes : UInt32) {rounds : Nat} (hrounds : 27 ≤ rounds) :
    sizeSearch allocbytes rounds (1 <<< UInt32.ofNat minShift) 0 = some (searchExit allocbytes) := by
  have hfirst : ((1 : UInt32) <<< UInt32.ofNat minShift).toNat = 2 ^ (0 + 5) := rfl
  rw [sizeSearch_eq allocbytes rounds hfirst (by decide) (by omega), Nat.zero_max, searchExit]

/-- More than half a page takes a whole one at least, so that nothing is skipped. -/
theorem search_from_page {allocbytes : UInt32} (hlarge : 2 ^ 11 < allocbytes.toNat) {rounds : Nat}
    (hrounds : 27 ≤ rounds) :
    sizeSearch allocbytes rounds pageSize 7 = some (searchExit allocbytes) := by
  have hclass : 7 ≤ leastClass allocbytes.toNat := by
    by_contra hsmall
    have hle : allocbytes.toNat ≤ 2 ^ (6 + 5) := leastClass_le_iff.mp (by omega)
    exact absurd hle (Nat.not_le.mpr hlarge)
  rw [sizeSearch_eq allocbytes rounds rfl (by decide) (by omega), max_eq_right hclass, searchExit]

theorem search_from_start {h : Heap} (hsz : h.pagesz = pageSize) (hbucket : h.pagebucket = 7)
    (allocbytes : UInt32) {rounds : Nat} (hrounds : 27 ≤ rounds) :
    sizeSearch allocbytes rounds (searchStart h allocbytes).1 (searchStart h allocbytes).2 =
      some (searchExit allocbytes) := by
  unfold searchStart
  rw [hsz, hbucket]
  by_cases hpage : allocbytes ≤ pageSize
  · rw [if_pos hpage]
    exact search_from_smallest allocbytes hrounds
  · have hlarge : 2 ^ 12 < allocbytes.toNat :=
      Nat.lt_of_not_le fun h => hpage (UInt32.le_iff_toNat_le.mpr h)
    rw [if_neg hpage]
    exact search_from_page (by omega) hrounds

/-! ### The pointer in its block -/

/-- A power of two that is at most another divides it. -/
theorem pow_dvd_of_le {m n : Nat} (h : 2 ^ m ≤ 2 ^ n) : 2 ^ m ∣ 2 ^ n :=
  pow_dvd_pow 2 ((Nat.pow_le_pow_iff_right (by decide)).mp h)

/-- The rounded header takes at least the alignment. -/
theorem pow_le_headerRoom (k : Nat) : 2 ^ k ≤ roundUp 8 (2 ^ k) := by
  have hpos : 0 < roundUp 8 (2 ^ k) := lt_of_lt_of_le (by decide) (le_roundUp (Nat.two_pow_pos k) 8)
  exact Nat.le_of_dvd hpos (dvd_roundUp 8 _)

/-- Behind the alignment, header and payload stay in the block.  A block is a multiple of its own size
    or of the page size; only when the alignment exceeds both, the pointer moves by less than the
    alignment, and then it moves by at least a page less. -/
theorem pointer_in_block {op k cls : Nat} (hbase : 2 ^ (min cls 7 + 5) ∣ op)
    (hroom : roundUp 8 (2 ^ k) ≤ 2 ^ (cls + 5)) :
    op + 8 ≤ roundUp (op + 8) (2 ^ k) ∧
      roundUp (op + 8) (2 ^ k) ≤ op + roundUp 8 (2 ^ k) := by
  have hpos : 0 < 2 ^ k := Nat.two_pow_pos k
  refine ⟨le_roundUp hpos _, ?_⟩
  by_cases hdvd : 2 ^ k ∣ op
  · rw [roundUp_add_of_dvd hpos hdvd]
  · have hk := pow_le_headerRoom k
    have hkcls : k ≤ cls + 5 := (Nat.pow_le_pow_iff_right (by decide)).mp (hk.trans hroom)
    have hlarge : min cls 7 + 5 < k := by
      by_contra hsmall
      exact hdvd ((pow_dvd_pow 2 (by omega)).trans hbase)
    have hmin : min cls 7 = 7 := by omega
    rw [hmin] at hbase hlarge
    have hpage : 2 ^ (7 + 5) ∣ 2 ^ k := pow_dvd_pow 2 (by omega)
    -- the next multiple of the alignment above `op`
    have hrest : 2 ^ (7 + 5) ∣ op % 2 ^ k := (Nat.dvd_mod_iff hpage).mpr hbase
    have hlt : op % 2 ^ k < 2 ^ k := Nat.mod_lt _ hpos
    have hnonzero : op % 2 ^ k ≠ 0 := fun h => hdvd (Nat.dvd_of_mod_eq_zero h)
    have hgap : 2 ^ (7 + 5) ∣ 2 ^ k - op % 2 ^ k := Nat.dvd_sub hpage hrest
    have hgap8 : 8 ≤ 2 ^ k - op % 2 ^ k :=
      le_trans (by decide) (Nat.le_of_dvd (by omega) hgap)
    have hnext : 2 ^ k ∣ op + (2 ^ k - op % 2 ^ k) := by
      have hdiv := Nat.div_add_mod op (2 ^ k)
      refine ⟨op / 2 ^ k + 1, ?_⟩
      rw [Nat.mul_add, Nat.mul_one]
      omega
    have hle := roundUp_le_of_dvd hpos hnext (show op + 8 ≤ _ by omega)
    omega

/-- The alignment in use is a power of two, and at least a word. -/
theorem effectiveAlign_pow {align : UInt32} (htest : align &&& (align - 1) = 0) :
    ∃ k, 2 ≤ k ∧ k < 32 ∧ (effectiveAlign align).toNat = 2 ^ k ∧
      (align ≠ 0 → align.toNat ∣ 2 ^ k) := by
  unfold effectiveAlign
  split
  · rename_i hsmall
    refine ⟨2, by decide, by decide, rfl, fun hne => ?_⟩
    obtain ⟨k, -, hk⟩ := UInt32.isPowerOfTwo_of_test hne htest
    have hlt : align.toNat < 4 := UInt32.lt_iff_toNat_lt.mp hsmall
    rw [hk] at hlt ⊢
    exact pow_dvd_of_le hlt.le
  · rename_i hlarge
    have hge : 4 ≤ align.toNat := Nat.le_of_not_lt fun h => hlarge (UInt32.lt_iff_toNat_lt.mpr h)
    have hne : align ≠ 0 := by
      rintro rfl
      exact absurd hge (by decide)
    obtain ⟨k, hk32, hk⟩ := UInt32.isPowerOfTwo_of_test hne htest
    refine ⟨k, ?_, hk32, hk, fun _ => by rw [hk]⟩
    rw [hk] at hge
    exact (Nat.pow_le_pow_iff_right (by decide : 1 < 2)).mp hge

theorem headerRoom_toNat {align : UInt32} {k : Nat} (halign : align.toNat = 2 ^ k) :
    (headerRoom align).toNat = roundUp 8 (2 ^ k) := by
  have hlt := align.toNat_lt
  rw [halign] at hlt
  have hhalf : 2 ^ k ≤ 2 ^ 31 := by
    refine Nat.pow_le_pow_right (by decide) ?_
    have := (Nat.pow_lt_pow_iff_right (by decide : 1 < 2)).mp hlt
    omega
  have hbound : sizeofOverhead.toNat + 2 ^ k ≤ 2 ^ 32 := by
    rw [show sizeofOverhead.toNat = 8 from rfl]
    omega
  exact UInt32.toNat_round halign hbound

/-! ### The header -/

theorem writeHeader_of_apart (mem : ByteMem) {o c : Nat} (bucket : Nat) (pad : UInt32)
    (h : c < o ∨ o + 6 ≤ c) : writeHeader mem o bucket pad c = mem c := by
  unfold writeHeader
  rw [store32_of_apart _ _ (by omega), Function.update_of_ne (by omega),
    Function.update_of_ne (by omega)]

@[simp] theorem writeHeader_magic (mem : ByteMem) (o bucket : Nat) (pad : UInt32) :
    writeHeader mem o bucket pad (o + 4) = magic := by
  unfold writeHeader
  rw [store32_of_apart _ _ (by omega), Function.update_of_ne (by omega), Function.update_self]

@[simp] theorem writeHeader_index (mem : ByteMem) (o bucket : Nat) (pad : UInt32) :
    writeHeader mem o bucket pad (o + 5) = UInt8.ofNat bucket := by
  unfold writeHeader
  rw [store32_of_apart _ _ (by omega), Function.update_self]

/-- The index byte holds every class. -/
theorem index_toNat {cls : Nat} (hcls : cls ≤ 26) : (UInt8.ofNat cls).toNat = cls := by
  rw [UInt8.toNat_ofNat']
  exact Nat.mod_eq_of_lt (by omega)

@[simp] theorem writeHeader_pad (mem : ByteMem) (o bucket : Nat) (pad : UInt32) :
    load32 (writeHeader mem o bucket pad) o = pad := by
  unfold writeHeader
  rw [load32_store32]

theorem sub_overhead_toNat {rv : UInt32} (h : 8 ≤ rv.toNat) :
    (rv - sizeofOverhead).toNat = rv.toNat - 8 := by
  have hle : sizeofOverhead ≤ rv := UInt32.le_iff_toNat_le.mpr h
  rw [UInt32.toNat_sub_of_le _ _ hle]
  rfl

theorem add_overhead_toNat {op : UInt32} (h : op.toNat + 8 < 2 ^ 32) :
    (op + sizeofOverhead).toNat = op.toNat + 8 := by
  rw [UInt32.toNat_add, show sizeofOverhead.toNat = 8 from rfl, Nat.mod_eq_of_lt h]

/-- The pointer that `bmk_memalloc` cuts from the block at `op`. -/
theorem takeBlock_pointer (h : Heap) {op align : UInt32} {k cls : Nat} (halign : align.toNat = 2 ^ k)
    (hroom : roundUp 8 (2 ^ k) ≤ 2 ^ (cls + 5)) (hend : op.toNat + 2 ^ (cls + 5) + 8 ≤ 2 ^ 32) :
    (takeBlock h cls op align).1.toNat = roundUp (op.toNat + 8) (2 ^ k) := by
  have hk := pow_le_headerRoom k
  have hpos := Nat.two_pow_pos (cls + 5)
  have hop : (op + sizeofOverhead).toNat = op.toNat + 8 := add_overhead_toNat (by omega)
  have hround := UInt32.toNat_round (x := op + sizeofOverhead) halign (by omega)
  rw [hop] at hround
  exact hround

/-! ### New pages -/

/-- The link of a free block. -/
def nextOf (mem : ByteMem) (a : Nat) : Nat := (load32 mem a).toNat

theorem addr_step (op sz : UInt32) (i : Nat) :
    addr (op + sz) (i * sz.toNat) = addr op ((i + 1) * sz.toNat) := by
  have hadd := addr_add op sz.toNat (i * sz.toNat)
  rw [UInt32.ofNat_toNat] at hadd
  rw [hadd, Nat.add_mul, Nat.one_mul, Nat.add_comm]

/-- The loop of `morecore` stores links, and nothing else. -/
theorem carve_frame (sz : UInt32) (rest : Nat) :
    ∀ (mem : ByteMem) (op : UInt32) {c : Nat},
      (∀ i ≤ rest, c < addr op (i * sz.toNat) ∨ addr op (i * sz.toNat) + 4 ≤ c) →
      carve mem op sz rest c = mem c := by
  induction rest with
  | zero =>
      intro mem op c hc
      have hfirst := hc 0 le_rfl
      rw [Nat.zero_mul, addr_zero] at hfirst
      exact store32_of_apart mem 0 hfirst
  | succ rest ih =>
      intro mem op c hc
      have hfirst := hc 0 (Nat.zero_le _)
      rw [Nat.zero_mul, addr_zero] at hfirst
      simp only [carve]
      rw [ih, store32_of_apart mem _ hfirst]
      intro i hi
      rw [addr_step]
      exact hc (i + 1) (Nat.succ_le_succ hi)

/-- It threads the blocks in order, at whatever address the first one is: the addresses wrap as the machine
    adds. -/
theorem carve_links (sz : UInt32) (rest : Nat) :
    ∀ (mem : ByteMem) (op : UInt32), (rest ≠ 0 → 4 ≤ sz.toNat) → rest * sz.toNat + 4 ≤ 2 ^ 32 →
      (∀ i < rest, nextOf (carve mem op sz rest) (addr op (i * sz.toNat)) = addr op ((i + 1) * sz.toNat)) ∧
        nextOf (carve mem op sz rest) (addr op (rest * sz.toNat)) = 0 := by
  induction rest with
  | zero =>
      intro mem op _ _
      refine ⟨fun i hi => absurd hi (Nat.not_lt_zero i), ?_⟩
      rw [Nat.zero_mul, addr_zero]
      simp [nextOf, carve]
  | succ rest ih =>
      intro mem op hsz hfit
      have hfour := hsz (Nat.succ_ne_zero rest)
      have hless : rest * sz.toNat ≤ (rest + 1) * sz.toNat := Nat.mul_le_mul_right _ (Nat.le_succ rest)
      obtain ⟨hlinks, hlast⟩ := ih (store32 mem op.toNat (op + sz)) (op + sz) (fun _ => hfour) (by omega)
      simp only [carve]
      constructor
      · intro i hi
        cases i with
        | zero =>
            have hsecond : addr op ((0 + 1) * sz.toNat) = (op + sz).toNat := by
              rw [← addr_step, Nat.zero_mul, addr_zero]
            rw [hsecond, Nat.zero_mul, addr_zero, nextOf,
              load32_congr (m := store32 mem op.toNat (op + sz)), load32_store32]
            -- the rest of the loop spares the first link
            intro c hlo hhi
            refine carve_frame sz rest _ _ fun j hj => ?_
            have hlower : 1 * sz.toNat ≤ (j + 1) * sz.toNat := Nat.mul_le_mul_right _ (by omega)
            have hupper : (j + 1) * sz.toNat ≤ (rest + 1) * sz.toNat := Nat.mul_le_mul_right _ (by omega)
            have hapart := addr_apart op (k := (j + 1) * sz.toNat) (by omega) (by omega)
            rw [addr_step]
            omega
        | succ i =>
            rw [← addr_step, ← addr_step]
            exact hlinks i (Nat.lt_of_succ_lt_succ hi)
      · rw [← addr_step]
        exact hlast

/-- Where no address wraps, the links are a list of the blocks. -/
theorem carve_spec (sz : UInt32) (rest : Nat) (mem : ByteMem) (op : UInt32) (hop : op ≠ 0)
    (hsz : rest ≠ 0 → 4 ≤ sz.toNat) (hfit : op.toNat + rest * sz.toNat + 4 ≤ 2 ^ 32) :
    Chain (nextOf (carve mem op sz rest)) op.toNat
        ((List.range (rest + 1)).map fun k => op.toNat + k * sz.toNat) ∧
      ∀ c, c < op.toNat ∨ op.toNat + rest * sz.toNat + 4 ≤ c → carve mem op sz rest c = mem c := by
  have hblock : ∀ i ≤ rest, addr op (i * sz.toNat) = op.toNat + i * sz.toNat ∧
      i * sz.toNat ≤ rest * sz.toNat := by
    intro i hi
    have hle : i * sz.toNat ≤ rest * sz.toNat := Nat.mul_le_mul_right _ hi
    exact ⟨addr_of_lt (by omega), hle⟩
  obtain ⟨hlinks, hlast⟩ := carve_links sz rest mem op hsz (by omega)
  constructor
  · have hne : op.toNat ≠ 0 := fun h => hop (UInt32.toNat_inj.mp h)
    have hchain : Chain (nextOf (carve mem op sz rest)) (op.toNat + 0 * sz.toNat)
        ((List.range (rest + 1)).map fun k => op.toNat + k * sz.toNat) := by
      refine Chain.of_links rest (fun k => op.toNat + k * sz.toNat) (fun i _ => by omega) ?_ ?_
      · intro i hi
        rw [← (hblock i hi.le).1, ← (hblock (i + 1) hi).1]
        exact hlinks i hi
      · rw [← (hblock rest le_rfl).1]
        exact hlast
    rwa [Nat.zero_mul, Nat.add_zero] at hchain
  · intro c hc
    refine carve_frame sz rest mem op fun i hi => ?_
    obtain ⟨haddr, hle⟩ := hblock i hi
    omega

/-- No block is smaller than 32 bytes. -/
theorem smallest_block (cls : Nat) : 2 ^ 5 ≤ 2 ^ (cls + 5) :=
  Nat.pow_le_pow_right (by decide) (Nat.le_add_left 5 cls)

/-- No block is larger than `2^31` bytes. -/
theorem largest_block {cls : Nat} (hcls : cls ≤ 26) : 2 ^ (cls + 5) ≤ 2 ^ 31 :=
  Nat.pow_le_pow_right (by decide) (Nat.add_le_add_right hcls 5)

/-- How many pages a class takes at a time, and how many blocks it makes of them. -/
theorem class_sizes (cls : Nat) :
    2 ^ (7 - cls) * 2 ^ (cls + 5) = 2 ^ (cls - 7) * 4096 := by
  rw [← Nat.pow_add, show 4096 = 2 ^ 12 from rfl, ← Nat.pow_add]
  congr 1
  omega

section Stride

variable {n size : Nat} {sz : UInt32}

/-- Where `n` blocks are more than one, `sz` is their size; a single block has no use for it. -/
theorem stride_mul (hsz : n - 1 ≠ 0 → sz.toNat = size) {i : Nat} (hi : i < n) :
    i * sz.toNat = i * size := by
  cases i with
  | zero => rw [Nat.zero_mul, Nat.zero_mul]
  | succ i => rw [hsz (by omega)]

/-- The links that the loop stores are apart, and the last one ends in the run. -/
theorem stride_fits (hsz : n - 1 ≠ 0 → sz.toNat = size) (hn : 0 < n) (hsize : 4 ≤ size) :
    (n - 1 ≠ 0 → 4 ≤ sz.toNat) ∧ (n - 1) * sz.toNat + 4 ≤ n * size := by
  constructor
  · intro hmany
    rw [hsz hmany]
    exact hsize
  · have hlast : (n - 1) * size + size = n * size := by
      rw [← Nat.succ_mul, Nat.succ_eq_add_one, Nat.sub_add_cancel hn]
    rw [stride_mul hsz (Nat.sub_lt hn Nat.one_pos)]
    omega

end Stride

/-- A page run for class `cls`, and what `morecore` makes of it. -/
theorem morecore_spec {Pages : Type*} (allocpg : Pages → UInt32 → UInt32 × Pages) {h : Heap}
    (pages : Pages) {cls : Nat} (hcls : cls ≤ 26) (hsz : h.pagesz = pageSize)
    (hbucket : h.pagebucket = 7) :
    ∃ howmany sz : UInt32, howmany.toNat = 2 ^ (cls - 7) ∧
      (2 ^ (7 - cls) - 1 ≠ 0 → sz.toNat = 2 ^ (cls + 5)) ∧
      morecore allocpg h pages cls =
        if (allocpg pages howmany).1 = 0 then (h, (allocpg pages howmany).2)
        else
          ({ h with
              nextf := Function.update h.nextf cls (allocpg pages howmany).1
              mem := carve h.mem (allocpg pages howmany).1 sz (2 ^ (7 - cls) - 1) },
            (allocpg pages howmany).2) := by
  by_cases hsmall : cls < 7
  · have hblk : ((1 : UInt32) <<< UInt32.ofNat (cls + minShift)).toNat = 2 ^ (cls + 5) :=
      one_shiftLeft_toNat (by simp only [minShift]; omega)
    have hnblks : (pageSize / (1 <<< UInt32.ofNat (cls + minShift))).toNat = 2 ^ (7 - cls) := by
      rw [UInt32.toNat_div, hblk, show pageSize.toNat = 2 ^ 12 from rfl,
        Nat.pow_div (by omega) (by decide)]
      congr 1
      omega
    have hsize : (pageSize / (pageSize / (1 <<< UInt32.ofNat (cls + minShift)))).toNat =
        2 ^ (cls + 5) := by
      rw [UInt32.toNat_div, hnblks, show pageSize.toNat = 2 ^ 12 from rfl,
        Nat.pow_div (by omega) (by decide)]
      congr 1
      omega
    refine ⟨1 <<< UInt32.ofNat 0, _, ?_, fun _ => hsize, ?_⟩
    · rw [one_shiftLeft_toNat (by decide), show cls - 7 = 0 by omega]
    · simp only [morecore, hbucket, hsmall, hsz, if_true, corealloc, hnblks]
  · refine ⟨1 <<< UInt32.ofNat (cls - 7), 0, one_shiftLeft_toNat (by omega), ?_, ?_⟩
    · intro hne
      rw [show 7 - cls = 0 by omega] at hne
      exact absurd rfl hne
    · simp only [morecore, hbucket, hsmall, if_false, corealloc, show 7 - cls = 0 by omega]
      rfl

/-- A page source that has nothing. -/
theorem morecore_denied {h : Heap} (granted : List PageGrant) {cls : Nat} (hcls : cls ≤ 26)
    (hsz : h.pagesz = pageSize) (hbucket : h.pagebucket = 7) :
    morecore (answering 0) h granted cls = (h, granted) := by
  obtain ⟨howmany, sz, -, -, heq⟩ := morecore_spec (answering 0) (h := h) granted hcls hsz hbucket
  have hnone : answering 0 granted howmany = (0, granted) := if_pos rfl
  rw [heq, hnone, if_pos rfl]

/-- One that has a page run. -/
theorem morecore_granted {h : Heap} (granted : List PageGrant) {cls : Nat} (hcls : cls ≤ 26)
    (hsz : h.pagesz = pageSize) (hbucket : h.pagebucket = 7) {answer : UInt32} (hanswer : answer ≠ 0) :
    ∃ howmany sz : UInt32, howmany.toNat = 2 ^ (cls - 7) ∧
      (2 ^ (7 - cls) - 1 ≠ 0 → sz.toNat = 2 ^ (cls + 5)) ∧
      morecore (answering answer) h granted cls =
        ({ h with
            nextf := Function.update h.nextf cls answer
            mem := carve h.mem answer sz (2 ^ (7 - cls) - 1) },
          ⟨answer, howmany⟩ :: granted) := by
  obtain ⟨howmany, sz, hpages, hblk, heq⟩ :=
    morecore_spec (answering answer) (h := h) granted hcls hsz hbucket
  have hsome : answering answer granted howmany = (answer, ⟨answer, howmany⟩ :: granted) := if_neg hanswer
  rw [hsome, if_neg hanswer] at heq
  exact ⟨howmany, sz, hpages, hblk, heq⟩

/-! ### The page size -/

/-- The page size is not set up yet, or as it should be. -/
def Heap.Ready (h : Heap) : Prop := h.pagesz = 0 ∨ h.pagesz = pageSize ∧ h.pagebucket = 7

theorem Heap.Ready.init {h : Heap} (hready : h.Ready) :
    (initPagesz h).pagesz = pageSize ∧ (initPagesz h).pagebucket = 7 := by
  unfold initPagesz
  split
  · exact ⟨rfl, rfl⟩
  · rename_i hset
    exact hready.resolve_left hset

theorem initPagesz_mem (h : Heap) : (initPagesz h).mem = h.mem := by
  unfold initPagesz
  split <;> rfl

theorem initPagesz_nextf (h : Heap) : (initPagesz h).nextf = h.nextf := by
  unfold initPagesz
  split <;> rfl

theorem initPagesz_idem (h : Heap) : initPagesz (initPagesz h) = initPagesz h := by
  by_cases hset : h.pagesz = 0
  · rw [initPagesz, if_neg]
    rw [initPagesz, if_pos hset]
    exact show pageSize ≠ 0 by decide
  · rw [initPagesz, if_neg]
    rwa [initPagesz, if_neg hset]

theorem initPagesz_setHeap (h : Heap) (mem : ByteMem) (nextf : Nat → UInt32) :
    initPagesz { h with mem := mem, nextf := nextf } =
      { initPagesz h with mem := mem, nextf := nextf } := by
  unfold initPagesz
  split <;> rfl

/-! ### A call of `bmk_memalloc` -/

section Serve

variable {Pages : Type*} (allocpg : Pages → UInt32 → UInt32 × Pages)

/-- The free list of the class, filled up if it was empty. -/
def refill (h : Heap) (pages : Pages) (cls : Nat) : Heap × Pages :=
  if h.nextf cls = 0 then morecore allocpg h pages cls else (h, pages)

/-- What is left of `bmk_memalloc` when the class is known. -/
def serve (h : Heap) (pages : Pages) (cls : Nat) (align : UInt32) : UInt32 × Heap × Pages :=
  match refill allocpg h pages cls with
  | (h, pages) =>
      if h.nextf cls = 0 then (0, h, pages)
      else ((takeBlock h cls (h.nextf cls) align).1, (takeBlock h cls (h.nextf cls) align).2, pages)

theorem serve_pages (h : Heap) (pages : Pages) (cls : Nat) (align : UInt32) :
    (serve allocpg h pages cls align).2.2 = (refill allocpg h pages cls).2 := by
  unfold serve
  split
  rename_i heq
  rw [heq]
  split <;> rfl

/-- A call looks for its class first. -/
theorem bmkMemalloc_eq (h : Heap) (pages : Pages) (nbytes align : UInt32) :
    bmkMemalloc allocpg h pages nbytes align =
      match classOf (initPagesz h) nbytes align with
      | none => (0, initPagesz h, pages)
      | some cls => serve allocpg (initPagesz h) pages cls (effectiveAlign align) := by
  simp only [bmkMemalloc]
  cases classOf (initPagesz h) nbytes align with
  | none => rfl
  | some cls => rfl

/-- The class is the one that the search ends with. -/
theorem classOf_search (h : Heap) {nbytes align : UInt32} (htest : align &&& (align - 1) = 0)
    {allocbytes : UInt32} (hbytes : nbytes + headerRoom (effectiveAlign align) = allocbytes) :
    classOf h nbytes align =
      (sizeSearch allocbytes 33 (searchStart h allocbytes).1 (searchStart h allocbytes).2).bind
      SearchExit.cls := by
  simp only [classOf, htest, ne_eq, not_true_eq_false, if_false, hbytes]

/-- A class is found for an alignment that passes the test and at most `2^31` bytes in all, as the machine
    adds them. -/
theorem classOf_eq {h : Heap} (hsz : h.pagesz = pageSize) (hbucket : h.pagebucket = 7)
    (nbytes align : UInt32) :
    classOf h nbytes align =
      if align &&& (align - 1) = 0 ∧ (nbytes + headerRoom (effectiveAlign align)).toNat ≤ 2 ^ 31 then
        some (leastClass (nbytes + headerRoom (effectiveAlign align)).toNat)
      else none := by
  by_cases htest : align &&& (align - 1) = 0
  · simp only [htest, true_and]
    rw [classOf_search h htest rfl, search_from_start hsz hbucket _ (by decide), Option.bind_some,
      searchExit]
    split <;> rfl
  · rw [classOf, if_pos htest, if_neg fun h => htest h.1]

/-- The class has room for the request and its header. -/
theorem classOf_fits {h : Heap} (hsz : h.pagesz = pageSize) (hbucket : h.pagebucket = 7)
    {nbytes align : UInt32} {cls : Nat} (hcls : classOf h nbytes align = some cls) :
    cls ≤ 26 ∧ align &&& (align - 1) = 0 ∧
      (nbytes + headerRoom (effectiveAlign align)).toNat ≤ 2 ^ (cls + 5) := by
  rw [classOf_eq hsz hbucket] at hcls
  split at hcls
  · rename_i hfound
    obtain rfl := Option.some.inj hcls
    exact ⟨leastClass_le_iff.mpr hfound.2, hfound.1, leastClass_le_iff.mp le_rfl⟩
  · cases hcls

/-- A call fails before it has changed anything, or it serves from a class that has room for the payload
    and the header. -/
theorem bmkMemalloc_cases {h : Heap} (pages : Pages) {nbytes align : UInt32}
    (hsz : (initPagesz h).pagesz = pageSize) (hbucket : (initPagesz h).pagebucket = 7)
    (hfit : nbytes.toNat + (headerRoom (effectiveAlign align)).toNat < 2 ^ 32) :
    bmkMemalloc allocpg h pages nbytes align = (0, initPagesz h, pages) ∨
      ∃ cls, cls ≤ 26 ∧ align &&& (align - 1) = 0 ∧
        nbytes.toNat + (headerRoom (effectiveAlign align)).toNat ≤ 2 ^ (cls + 5) ∧
        bmkMemalloc allocpg h pages nbytes align =
          serve allocpg (initPagesz h) pages cls (effectiveAlign align) := by
  rw [bmkMemalloc_eq]
  cases hclass : classOf (initPagesz h) nbytes align with
  | none => exact .inl rfl
  | some cls =>
      obtain ⟨hcls, htest, hroom⟩ := classOf_fits hsz hbucket hclass
      rw [UInt32.toNat_add, Nat.mod_eq_of_lt hfit] at hroom
      exact .inr ⟨cls, hcls, htest, hroom, rfl⟩

end Serve

/-! ### A call of `bmk_memfree` -/

/-- A call fails its assertion, or it changes memory and free lists at most.  Either way it reads nothing
    else: a heap that differs in the page size only goes the same way. -/
theorem bmkMemfree_cases {h h' : Heap} (hmem : h'.mem = h.mem) (hnextf : h'.nextf = h.nextf) (cp : UInt32) :
    (bmkMemfree h cp = none ∧ bmkMemfree h' cp = none) ∨
      ∃ mem nextf, bmkMemfree h cp = some { h with mem := mem, nextf := nextf } ∧
        bmkMemfree h' cp = some { h' with mem := mem, nextf := nextf } := by
  have hunchanged : some h' = some { h' with mem := h.mem, nextf := h.nextf } := by rw [← hmem, ← hnextf]
  have hexit : memfreeExit h' cp = memfreeExit h cp := by simp only [memfreeExit, hmem]
  simp only [bmkMemfree, hexit, hmem, hnextf]
  cases memfreeExit h cp with
  | null => exact .inr ⟨h.mem, h.nextf, rfl, hunchanged⟩
  | sanity => exact .inr ⟨h.mem, h.nextf, rfl, hunchanged⟩
  | botched => exact .inl ⟨rfl, rfl⟩
  | freed => exact .inr ⟨_, _, rfl, rfl⟩

end RumpBaremetal
