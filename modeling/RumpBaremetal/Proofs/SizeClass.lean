/-
Module: RumpBaremetal.Proofs.SizeClass
Layer: Proofs
Purpose: The geometry of the size classes.  The search of `bmk_memalloc` is measured against the set of
  block sizes with room for a request, and what `morecore` does for the class that was found against the
  blocks that its pages should be cut into.  Addresses are those of the machine, so that a run may begin
  anywhere.
Trusted boundary: none (fully proved)
Main exports: blockSizes, isLeast_blockSizes, ClassExact, classExact, pagesOf, blocksIn, blockAt, InBlock,
  Carved, MorecoreExact, morecore_exact, size_class_exact
-/
import RumpBaremetal.Proofs.Store

namespace RumpBaremetal

open ByteMem StepSystem

/-! ### The search -/

/-- The sizes of blocks with room for `n` bytes. -/
def blockSizes (n : Nat) : Set Nat := {p | p.isPowerOfTwo ∧ 32 ≤ p ∧ n ≤ p}

theorem isLeast_blockSizes (n : Nat) : IsLeast (blockSizes n) (2 ^ (leastClass n + 5)) := by
  have hclass : leastClass n + 5 = max 5 (Nat.clog 2 n) := by
    unfold leastClass
    omega
  rw [hclass]
  exact isLeast_two_pow 5 n

/-- The largest size that a word can hold is `2^31`. -/
theorem exists_blockSize_iff (n : Nat) : (∃ p ∈ blockSizes n, p < 2 ^ 32) ↔ n ≤ 2 ^ 31 := by
  constructor
  · rintro ⟨p, ⟨⟨j, rfl⟩, -, hn⟩, hlt⟩
    have hj : j ≤ 31 := Nat.le_of_lt_succ ((Nat.pow_lt_pow_iff_right (by decide)).mp hlt)
    exact hn.trans (Nat.pow_le_pow_right (by decide) hj)
  · intro hn
    exact ⟨2 ^ 31, ⟨⟨31, rfl⟩, by decide, hn⟩, by decide⟩

/-- What the search for the class of `allocbytes` bytes is to end with.  It has ended after 27 rounds, in
    every case. -/
structure ClassExact (h : Heap) (allocbytes : UInt32) (exit : SearchExit) : Prop where
  /-- From the starting point that `bmk_memalloc` chooses. -/
  chosen : ∀ rounds, 27 ≤ rounds →
    sizeSearch allocbytes rounds (searchStart h allocbytes).1 (searchStart h allocbytes).2 = some exit
  /-- The smallest class gives the same, for every size. -/
  smallest :
    ∀ rounds, 27 ≤ rounds → sizeSearch allocbytes rounds (1 <<< UInt32.ofNat minShift) 0 = some exit
  /-- So does the class of a page, which `bmk_memalloc` chooses for more than a page. -/
  page : 2 ^ 11 < allocbytes.toNat →
    ∀ rounds, 27 ≤ rounds → sizeSearch allocbytes rounds h.pagesz h.pagebucket = some exit
  /-- `amt` and `bucket` belong together, and `amt` is the least size with room for the request. -/
  found : ∀ amt bucket, exit = .found amt bucket →
    amt.toNat = 2 ^ (bucket + 5) ∧ IsLeast (blockSizes allocbytes.toNat) amt.toNat ∧ bucket < nbuckets
  /-- `NULL` is returned exactly if no such size fits into a word. -/
  null : exit = .null ↔ ¬∃ p ∈ blockSizes allocbytes.toNat, p < 2 ^ 32

/-- The size that belongs to a class fits into a word. -/
theorem exitAt_toNat {cls : Nat} (hcls : cls ≤ 26) :
    (UInt32.ofNat (2 ^ (cls + 5))).toNat = 2 ^ (cls + 5) := by
  rw [UInt32.toNat_ofNat']
  exact Nat.mod_eq_of_lt ((largest_block hcls).trans_lt (by decide))

/-- A search that finds a class finds the smallest with room. -/
theorem searchExit_found {allocbytes amt : UInt32} {bucket : Nat}
    (hexit : searchExit allocbytes = .found amt bucket) :
    bucket ≤ 26 ∧ bucket = leastClass allocbytes.toNat ∧ amt.toNat = 2 ^ (bucket + 5) := by
  unfold searchExit at hexit
  split at hexit
  · rename_i hfits
    obtain ⟨rfl, rfl⟩ := SearchExit.found.inj hexit
    have hcls : leastClass allocbytes.toNat ≤ 26 := leastClass_le_iff.mpr hfits
    exact ⟨hcls, rfl, exitAt_toNat hcls⟩
  · cases hexit

theorem classExact {h : Heap} (hsz : h.pagesz = pageSize) (hbucket : h.pagebucket = 7)
    (allocbytes : UInt32) :
    ClassExact h allocbytes (searchExit allocbytes) where
  chosen _ hrounds := search_from_start hsz hbucket allocbytes hrounds
  smallest _ hrounds := search_from_smallest allocbytes hrounds
  page hlarge _ hrounds := by
    rw [hsz, hbucket]
    exact search_from_page hlarge hrounds
  found amt bucket hexit := by
    obtain ⟨hle, hcls, hamt⟩ := searchExit_found hexit
    have hleast := isLeast_blockSizes allocbytes.toNat
    rw [← hcls, ← hamt] at hleast
    exact ⟨hamt, hleast, lt_of_le_of_lt hle (by decide)⟩
  null := by
    rw [exists_blockSize_iff, searchExit]
    split
    · rename_i hfits
      constructor
      · intro hnull
        cases hnull
      · intro hnone
        exact absurd hfits hnone
    · rename_i hfits
      exact ⟨fun _ => hfits, fun _ => rfl⟩

/-! ### The pages of a class -/

/-- How many pages a class should take at a time. -/
def pagesOf (bucket : Nat) : Nat := max 1 (2 ^ (bucket + 5) / 4096)

/-- How many blocks they should be cut into. -/
def blocksIn (bucket : Nat) : Nat := max 1 (4096 / 2 ^ (bucket + 5))

theorem max_one_pow_div (m n : Nat) : max 1 (2 ^ m / 2 ^ n) = 2 ^ (m - n) := by
  rcases Nat.lt_or_ge m n with hlt | hle
  · have hpow : 2 ^ m < 2 ^ n := Nat.pow_lt_pow_right (by decide) hlt
    rw [Nat.div_eq_of_lt hpow, Nat.sub_eq_zero_of_le hlt.le]
    rfl
  · rw [Nat.pow_div hle (by decide)]
    exact max_eq_right Nat.one_le_two_pow

theorem pagesOf_eq (bucket : Nat) : pagesOf bucket = 2 ^ (bucket - 7) := by
  have hsub : bucket + 5 - 12 = bucket - 7 := by omega
  rw [← hsub]
  exact max_one_pow_div (bucket + 5) 12

theorem blocksIn_eq (bucket : Nat) : blocksIn bucket = 2 ^ (7 - bucket) := by
  have hsub : 12 - (bucket + 5) = 7 - bucket := by omega
  rw [← hsub]
  exact max_one_pow_div 12 (bucket + 5)

/-- The blocks take the whole run. -/
theorem blocks_fill (bucket : Nat) : blocksIn bucket * 2 ^ (bucket + 5) = pagesOf bucket * 4096 := by
  rw [blocksIn_eq, pagesOf_eq, class_sizes]

theorem run_le {bucket : Nat} (hbucket : bucket ≤ 26) : pagesOf bucket * 4096 ≤ 2 ^ 31 := by
  rw [pagesOf_eq, show 2 ^ 31 = 2 ^ 19 * 4096 from rfl]
  exact Nat.mul_le_mul_right 4096 (Nat.pow_le_pow_right (by decide) (by omega))

/-- Where the block `i` of a run begins. -/
def blockAt (op : UInt32) (bucket i : Nat) : Nat := addr op (i * 2 ^ (bucket + 5))

/-- The byte belongs to the block `i`. -/
def InBlock (op : UInt32) (bucket i c : Nat) : Prop :=
  ∃ j < 2 ^ (bucket + 5), c = (blockAt op bucket i + j) % 2 ^ 32

theorem blockAt_add (op : UInt32) (bucket i j : Nat) :
    (blockAt op bucket i + j) % 2 ^ 32 = addr op (i * 2 ^ (bucket + 5) + j) := by
  unfold blockAt addr
  rw [Nat.mod_add_mod, Nat.add_assoc]

/-- The offsets of a run, cut into blocks. -/
theorem offset_pieces (bucket : Nat) {a : Nat} :
    a ∈ Extent.pieces ⟨0, pagesOf bucket * 4096⟩ (2 ^ (bucket + 5)) ↔
    ∃ i < blocksIn bucket, a = i * 2 ^ (bucket + 5) := by
  rw [Extent.mem_pieces, ← blocks_fill, Nat.mul_div_cancel _ (Nat.two_pow_pos _)]
  simp only [Nat.zero_add]

theorem block_inside {bucket i j : Nat} (hi : i < blocksIn bucket) (hj : j < 2 ^ (bucket + 5)) :
    i * 2 ^ (bucket + 5) + j < pagesOf bucket * 4096 := by
  have hinside := (Extent.piece_inside ((offset_pieces bucket).mpr ⟨i, hi, rfl⟩)).2
  simp only [Extent.fin] at hinside
  omega

/-- The blocks cover the run, and nothing else. -/
theorem blocks_cover (op : UInt32) (bucket c : Nat) :
    (∃ j < pagesOf bucket * 4096, c = addr op j) ↔ ∃ i < blocksIn bucket, InBlock op bucket i c := by
  constructor
  · rintro ⟨j, hj, rfl⟩
    have hdvd : 2 ^ (bucket + 5) ∣ pagesOf bucket * 4096 := Dvd.intro_left _ (blocks_fill bucket)
    have hcover :=
      Extent.pieces_cover (e := ⟨0, pagesOf bucket * 4096⟩) (Nat.two_pow_pos (bucket + 5)) hdvd j
    obtain ⟨a, ha, hlo, hhi⟩ := hcover.mp ⟨Nat.zero_le j, by simpa only [Extent.fin, Nat.zero_add] using hj⟩
    obtain ⟨i, hi, rfl⟩ := (offset_pieces bucket).mp ha
    refine ⟨i, hi, j - i * 2 ^ (bucket + 5), by omega, ?_⟩
    rw [blockAt_add, Nat.add_sub_cancel' hlo]
  · rintro ⟨i, hi, j, hj, rfl⟩
    exact ⟨_, block_inside hi hj, blockAt_add op bucket i j⟩

/-- No byte belongs to two blocks. -/
theorem blocks_once {op : UInt32} {bucket : Nat} (hbucket : bucket ≤ 26) {i i' c : Nat}
    (hi : i < blocksIn bucket) (hi' : i' < blocksIn bucket) (hc : InBlock op bucket i c)
    (hc' : InBlock op bucket i' c) : i = i' := by
  obtain ⟨j, hj, rfl⟩ := hc
  obtain ⟨j', hj', heq⟩ := hc'
  have hrun := run_le hbucket
  have hin := block_inside hi hj
  have hin' := block_inside hi' hj'
  rw [blockAt_add, blockAt_add] at heq
  have hoffset := addr_inj op (by omega) (by omega) heq
  by_contra hne
  have hpiece := (offset_pieces bucket).mpr ⟨i, hi, rfl⟩
  have hpiece' := (offset_pieces bucket).mpr ⟨i', hi', rfl⟩
  have hstart : i * 2 ^ (bucket + 5) ≠ i' * 2 ^ (bucket + 5) :=
    fun h => hne (Nat.eq_of_mul_eq_mul_right (Nat.two_pow_pos _) h)
  have hapart := Extent.pieces_apart hpiece hpiece' hstart
  simp only [Extent.Apart, Extent.fin] at hapart
  omega

/-! ### What `morecore` does -/

/-- The run at `op` is cut into the blocks of the class, and they are its free list. -/
structure Carved (h h' : Heap) (bucket : Nat) (op : UInt32) : Prop where
  head : h'.nextf = Function.update h.nextf bucket op
  /-- Each block has a link to the next one, -/
  link : ∀ i, i + 1 < blocksIn bucket → nextOf h'.mem (blockAt op bucket i) = blockAt op bucket (i + 1)
  /-- and the last one a null link. -/
  last : nextOf h'.mem (blockAt op bucket (blocksIn bucket - 1)) = 0
  cover : ∀ c, (∃ j < pagesOf bucket * 4096, c = addr op j) ↔ ∃ i < blocksIn bucket, InBlock op bucket i c
  once : ∀ c i i', i < blocksIn bucket → i' < blocksIn bucket → InBlock op bucket i c →
    InBlock op bucket i' c → i = i'
  /-- In a run that begins at a page no block is null, so that the list is all of them. -/
  list : 4096 ∣ op.toNat →
    Chain (nextOf h'.mem) op.toNat ((List.range (blocksIn bucket)).map (blockAt op bucket))
  /-- Memory outside of the run is as it was. -/
  kept : ∀ c < 2 ^ 32, (∀ j < pagesOf bucket * 4096, c ≠ addr op j) → h'.mem c = h.mem c

/-- `morecore` asks for `howmany` pages, which is the right number, and makes of them what it should. -/
structure MorecoreExact {Pages : Type*} (allocpg : Pages → UInt32 → UInt32 × Pages) (h : Heap)
    (pages : Pages) (bucket : Nat) (howmany : UInt32) : Prop where
  number : howmany.toNat = pagesOf bucket
  asked : (morecore allocpg h pages bucket).2 = (allocpg pages howmany).2
  denied : (allocpg pages howmany).1 = 0 → (morecore allocpg h pages bucket).1 = h
  granted : (allocpg pages howmany).1 ≠ 0 →
    Carved h (morecore allocpg h pages bucket).1 bucket (allocpg pages howmany).1

section Carve

variable {bucket : Nat} {sz : UInt32}

theorem stride_blockAt (hblk : blocksIn bucket - 1 ≠ 0 → sz.toNat = 2 ^ (bucket + 5)) (op : UInt32)
    {i : Nat} (hi : i < blocksIn bucket) : addr op (i * sz.toNat) = blockAt op bucket i := by
  rw [stride_mul hblk hi, blockAt]

/-- In a run of several blocks all of them begin in one page. -/
theorem block_in_page {i : Nat} (hi : i < blocksIn bucket) : i * 2 ^ (bucket + 5) < 4096 := by
  rcases Nat.eq_zero_or_pos i with rfl | hpos
  · rw [Nat.zero_mul]
    decide
  · have hsmall : bucket < 7 := by
      by_contra hlarge
      rw [blocksIn_eq, show 7 - bucket = 0 by omega] at hi
      omega
    have hinside := block_inside hi (Nat.two_pow_pos (bucket + 5))
    rwa [pagesOf_eq, show bucket - 7 = 0 by omega] at hinside

theorem blockAt_ne_zero {op : UInt32} (hop : op ≠ 0) (hpage : 4096 ∣ op.toNat) {i : Nat}
    (hi : i < blocksIn bucket) :
    blockAt op bucket i ≠ 0 := by
  have hne : op.toNat ≠ 0 := fun h => hop (UInt32.toNat_inj.mp h)
  have hlt := op.toNat_lt
  have hin := block_in_page hi
  rw [blockAt, addr_of_lt (by omega)]
  omega

theorem carved (hbucket : bucket ≤ 26) (hblk : blocksIn bucket - 1 ≠ 0 → sz.toNat = 2 ^ (bucket + 5))
    (h : Heap) {op : UInt32} (hop : op ≠ 0) :
    Carved h
      { h with nextf := Function.update h.nextf bucket op, mem := carve h.mem op sz (blocksIn bucket - 1) }
      bucket op := by
  have hpos : 0 < blocksIn bucket := lt_of_lt_of_le Nat.one_pos (le_max_left _ _)
  have hsize := smallest_block bucket
  have hrun := run_le hbucket
  obtain ⟨hfour, hfit⟩ := stride_fits hblk hpos (by omega)
  rw [blocks_fill] at hfit
  obtain ⟨hlinks, hlast⟩ := carve_links sz (blocksIn bucket - 1) h.mem op hfour (by omega)
  have hlink : ∀ i < blocksIn bucket - 1,
      nextOf (carve h.mem op sz (blocksIn bucket - 1)) (blockAt op bucket i) =
        blockAt op bucket (i + 1) := by
    intro i hi
    rw [← stride_blockAt hblk op (show i < blocksIn bucket by omega),
      ← stride_blockAt hblk op (show i + 1 < blocksIn bucket by omega)]
    exact hlinks i hi
  rw [stride_blockAt hblk op (Nat.sub_lt hpos Nat.one_pos)] at hlast
  refine ⟨rfl, fun i hi => hlink i (by omega), hlast, blocks_cover op bucket, ?_, ?_, ?_⟩
  · intro c i i' hi hi' hc hc'
    exact blocks_once hbucket hi hi' hc hc'
  · intro hpage
    have hchain := Chain.of_links (blocksIn bucket - 1) (blockAt op bucket)
      (fun i hi => blockAt_ne_zero hop hpage (by omega)) hlink hlast
    rwa [Nat.sub_add_cancel hpos, blockAt, Nat.zero_mul, addr_zero] at hchain
  · intro c hc hout
    refine carve_frame sz (blocksIn bucket - 1) h.mem op fun i hi => ?_
    have hi' : i < blocksIn bucket := by omega
    rw [stride_blockAt hblk op hi']
    by_contra hword
    -- a byte of the link would be a byte of its block
    have hbyte : InBlock op bucket i c := ⟨c - blockAt op bucket i, by omega, by omega⟩
    obtain ⟨j, hj, heq⟩ := (blocks_cover op bucket c).mpr ⟨i, hi', hbyte⟩
    exact hout j hj heq

end Carve

theorem morecore_exact {Pages : Type*} (allocpg : Pages → UInt32 → UInt32 × Pages) {h : Heap}
    (pages : Pages) {bucket : Nat} (hbucket : bucket ≤ 26) (hsz : h.pagesz = pageSize)
    (hpage : h.pagebucket = 7) :
    ∃ howmany, MorecoreExact allocpg h pages bucket howmany := by
  obtain ⟨howmany, sz, hpages, hblk, heq⟩ := morecore_spec allocpg (h := h) pages hbucket hsz hpage
  rw [← blocksIn_eq] at hblk heq
  refine ⟨howmany, hpages.trans (pagesOf_eq bucket).symm, ?_, ?_, ?_⟩
  · rw [heq]
    split <;> rfl
  · intro hdenied
    rw [heq, if_pos hdenied]
  · intro hgranted
    rw [heq, if_neg hgranted]
    exact carved hbucket hblk h hgranted

/-! ### A call -/

/-- What is left of `bmk_memalloc` behind the search. -/
def afterSearch {Pages : Type*} (allocpg : Pages → UInt32 → UInt32 × Pages) (h : Heap) (pages : Pages)
    (align : UInt32) :
    SearchExit → UInt32 × Heap × Pages
  | .null => (0, h, pages)
  | .found _ bucket => serve allocpg h pages bucket align

theorem bmkMemalloc_search {Pages : Type*} (allocpg : Pages → UInt32 → UInt32 × Pages) {h : Heap}
    (hready : h.Ready) (pages : Pages) {nbytes align : UInt32} (htest : align &&& (align - 1) = 0)
    {allocbytes : UInt32} (hbytes : nbytes + headerRoom (effectiveAlign align) = allocbytes) :
    bmkMemalloc allocpg h pages nbytes align =
      afterSearch allocpg (initPagesz h) pages (effectiveAlign align) (searchExit allocbytes) := by
  obtain ⟨hsz, hbucket⟩ := hready.init
  rw [bmkMemalloc_eq, classOf_search _ htest hbytes, search_from_start hsz hbucket allocbytes (by decide),
    Option.bind_some]
  cases searchExit allocbytes with
  | null => rfl
  | found amt bucket => rfl

/-- In every state that requests can lead to, for every number of bytes and every page source: the search
    ends with the least block size that has room, or with `NULL` if there is none; `bmk_memalloc` goes on
    with the class that was found; and should its free list be empty, `morecore` asks for the pages of that
    class and threads their blocks. -/
theorem size_class_exact {mem : ByteMem} {bmkMembase bmkMemsize : UInt32} {requests : List StoreRequest}
    {s : Store} (hrun : run storeStep (.boot mem bmkMembase bmkMemsize) requests = some s) {Pages : Type*}
    (allocpg : Pages → UInt32 → UInt32 × Pages) (pages : Pages) (allocbytes : UInt32) :
    ∃ exit, ClassExact (initPagesz s.heap) allocbytes exit ∧
      (∀ nbytes align, align &&& (align - 1) = 0 → nbytes + headerRoom (effectiveAlign align) = allocbytes →
        bmkMemalloc allocpg s.heap pages nbytes align =
          afterSearch allocpg (initPagesz s.heap) pages (effectiveAlign align) exit) ∧
      ∀ amt bucket, exit = .found amt bucket →
        ∃ howmany, MorecoreExact allocpg (initPagesz s.heap) pages bucket howmany := by
  have hready := ready_run hrun
  obtain ⟨hsz, hpage⟩ := hready.init
  refine ⟨searchExit allocbytes, classExact hsz hpage allocbytes, ?_, ?_⟩
  · intro nbytes align htest hbytes
    exact bmkMemalloc_search allocpg hready pages htest hbytes
  · intro amt bucket hexit
    exact morecore_exact allocpg pages (searchExit_found hexit).1 hsz hpage

/-- 5000 bytes take a block of two pages, in the state behind an allocation of 100 bytes. -/
theorem size_class_exact_two_pages :
    ∃ s, run storeStep (.boot (fun _ => 0) 0x200000 0x1000000) [.memalloc 100 0] = some s ∧
      ClassExact (initPagesz s.heap) 5000 (.found 8192 8) ∧
      ∃ howmany, MorecoreExact (answering 0x300000) (initPagesz s.heap) [] 8 howmany := by
  have hrun : run storeStep (.boot (fun _ => 0) 0x200000 0x1000000) [.memalloc 100 0] =
      some ((Store.boot (fun _ => 0) 0x200000 0x1000000).request (.memalloc 100 0)).2 := rfl
  obtain ⟨exit, hexact, -, hmorecore⟩ := size_class_exact hrun (answering 0x300000) [] 5000
  have hexit : exit = .found 8192 8 := by
    have hsearch : sizeSearch 5000 27 (1 <<< UInt32.ofNat minShift) 0 = some (.found 8192 8) := by decide
    exact Option.some.inj ((hexact.smallest 27 le_rfl).symm.trans hsearch)
  subst hexit
  exact ⟨_, hrun, hexact, hmorecore 8192 8 rfl⟩

-- up to half a page a search from the class of a page would not go down again; `bmk_memalloc`
-- starts none there
example : sizeSearch 2048 27 pageSize 7 = some (.found 4096 7) ∧ searchExit 2048 = .found 2048 6 := by
  decide

end RumpBaremetal
