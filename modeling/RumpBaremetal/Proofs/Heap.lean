/-
Module: RumpBaremetal.Proofs.Heap
Layer: Proofs
Purpose: The partition of the heap.  A layout names the page runs with the class each was cut for and the
  free list of every class; the invariant says that the lists in memory are those lists, that free and
  live blocks together are exactly the blocks of the runs, and that the headers of live blocks are
  intact.  Each operation of the allocator moves the layout, and a write spares what it does not own.
Trusted boundary: none (fully proved)
Main exports: PageRun, Layout, HeapInv, HeapInv.own, HeapInv.release, HeapInv.rewrite, HeapInv.grow,
  HeapInv.bmkMemalloc, HeapInv.step, HeapPartition, heap_partition
-/
import RumpBaremetal.Proofs.Memalloc
import RumpBaremetal.Lib.StepSystem

namespace RumpBaremetal

open ByteMem StepSystem

/-! ### Page runs and blocks -/

/-- A page run that `morecore` was granted for a size class. -/
structure PageRun where
  grant : PageGrant
  cls : Nat
  cls_le : cls ≤ 26
  pages : grant.howmany.toNat = 2 ^ (cls - 7)
  nonNull : grant.rv ≠ 0
  aligned : grant.rv.toNat % 4096 = 0
  below : grant.extent.fin < 2 ^ 32

namespace PageRun

/-- The blocks of a run. -/
def blocks (r : PageRun) : List Nat := r.grant.extent.pieces (2 ^ (r.cls + 5))

theorem len_eq (r : PageRun) : r.grant.extent.len = 2 ^ (7 - r.cls) * 2 ^ (r.cls + 5) := by
  rw [class_sizes]
  show r.grant.howmany.toNat * 4096 = _
  rw [r.pages]

theorem size_dvd (r : PageRun) : 2 ^ (r.cls + 5) ∣ r.grant.extent.len := by
  rw [r.len_eq]
  exact Nat.dvd_mul_left _ _

theorem mem_blocks {r : PageRun} {a : Nat} :
    a ∈ r.blocks ↔ ∃ k, k < 2 ^ (7 - r.cls) ∧ a = r.grant.rv.toNat + k * 2 ^ (r.cls + 5) := by
  unfold blocks
  rw [Extent.mem_pieces, r.len_eq, Nat.mul_div_cancel _ (Nat.two_pow_pos _)]
  rfl

/-- A block is a multiple of its size, or of the page size if that is smaller. -/
theorem block_base {r : PageRun} {a : Nat} (ha : a ∈ r.blocks) : 2 ^ (min r.cls 7 + 5) ∣ a := by
  obtain ⟨k, hk, rfl⟩ := mem_blocks.mp ha
  have hpage : 2 ^ (7 + 5) ∣ r.grant.rv.toNat := Nat.dvd_of_mod_eq_zero r.aligned
  rcases Nat.le_total r.cls 7 with hsmall | hlarge
  · rw [Nat.min_eq_left hsmall]
    refine Nat.dvd_add ((pow_dvd_pow 2 (by omega)).trans hpage) (Nat.dvd_mul_left _ _)
  · rw [show 7 - r.cls = 0 by omega] at hk
    have hzero : k = 0 := by omega
    subst hzero
    rw [Nat.min_eq_right hlarge, Nat.zero_mul, Nat.add_zero]
    exact hpage

theorem block_ne_zero {r : PageRun} {a : Nat} (ha : a ∈ r.blocks) : a ≠ 0 := by
  obtain ⟨k, -, rfl⟩ := mem_blocks.mp ha
  intro hzero
  have hrv : r.grant.rv.toNat = 0 := by omega
  exact r.nonNull (UInt32.toNat_inj.mp hrv)

/-- A run ends a page below `2^32`. -/
theorem block_end {r : PageRun} {a : Nat} (ha : a ∈ r.blocks) :
    a + 2 ^ (r.cls + 5) + 4096 ≤ 2 ^ 32 := by
  have hinside := (Extent.piece_inside ha).2
  have hbelow := r.below
  have haligned := r.aligned
  simp only [Extent.fin, PageGrant.extent] at hinside hbelow
  omega

/-- The blocks of a run if it was cut for the class, and none otherwise. -/
def blocksOf (r : PageRun) (cls : Nat) : List Nat := if r.cls = cls then r.blocks else []

theorem mem_blocksOf {r : PageRun} {cls a : Nat} :
    a ∈ r.blocksOf cls ↔ r.cls = cls ∧ a ∈ r.blocks := by
  unfold blocksOf
  split
  · rename_i hcls
    exact ⟨fun ha => ⟨hcls, ha⟩, fun h => h.2⟩
  · rename_i hcls
    exact ⟨fun ha => absurd ha List.not_mem_nil, fun h => absurd h.1 hcls⟩

end PageRun

/-- The page runs, and the free list of each class. -/
structure Layout where
  runs : List PageRun
  free : Nat → List Nat

namespace Layout

/-- All blocks of a class. -/
def blocks (L : Layout) (cls : Nat) : List Nat := L.runs.flatMap fun r => r.blocksOf cls

theorem mem_blocks {L : Layout} {cls a : Nat} :
    a ∈ L.blocks cls ↔ ∃ r ∈ L.runs, r.cls = cls ∧ a ∈ r.blocks := by
  simp only [blocks, List.mem_flatMap, PageRun.mem_blocksOf]

/-- The page runs share no byte. -/
def Separate (L : Layout) : Prop :=
  L.runs.Pairwise fun r r' => r.grant.extent.Apart r'.grant.extent

/-- Two different blocks share no byte, whatever their classes. -/
theorem blocks_apart {L : Layout} (hsep : L.Separate) {i j a c : Nat} (ha : a ∈ L.blocks i)
    (hc : c ∈ L.blocks j) (hne : i = j → a ≠ c) :
    Extent.Apart ⟨a, 2 ^ (i + 5)⟩ ⟨c, 2 ^ (j + 5)⟩ := by
  obtain ⟨r, hr, rfl, hra⟩ := mem_blocks.mp ha
  obtain ⟨r', hr', rfl, hrc⟩ := mem_blocks.mp hc
  by_cases heq : r = r'
  · subst heq
    exact Extent.pieces_apart hra hrc (hne rfl)
  · have hsymm : Std.Symm fun r r' : PageRun => r.grant.extent.Apart r'.grant.extent :=
      ⟨fun _ _ h => h.symm⟩
    have hruns := hsep.forall hr hr' heq
    exact hruns.mono (Extent.piece_inside hra) (Extent.piece_inside hrc)

/-- Every block of a class is there once. -/
theorem blocks_nodup {L : Layout} (hsep : L.Separate) (cls : Nat) : (L.blocks cls).Nodup := by
  refine List.nodup_flatMap.mpr ⟨?_, hsep.imp ?_⟩
  · intro r _
    unfold PageRun.blocksOf
    split
    · exact Extent.pieces_nodup _ (Nat.two_pow_pos _)
    · exact List.nodup_nil
  · intro r r' hruns a ha ha'
    -- a block of both runs would have its bytes in both
    have hin := Extent.piece_inside (PageRun.mem_blocksOf.mp ha).2
    have hin' := Extent.piece_inside (PageRun.mem_blocksOf.mp ha').2
    have hapart := hruns.mono hin hin'
    have hpos := Nat.two_pow_pos (r.cls + 5)
    have hpos' := Nat.two_pow_pos (r'.cls + 5)
    simp only [Extent.Apart, Extent.fin] at hapart
    omega

theorem block_facts {L : Layout} {cls a : Nat} (ha : a ∈ L.blocks cls) :
    cls ≤ 26 ∧ a ≠ 0 ∧ 2 ^ (min cls 7 + 5) ∣ a ∧ a + 2 ^ (cls + 5) + 4096 ≤ 2 ^ 32 := by
  obtain ⟨r, -, rfl, hblock⟩ := mem_blocks.mp ha
  exact ⟨r.cls_le, PageRun.block_ne_zero hblock, PageRun.block_base hblock, PageRun.block_end hblock⟩

end Layout

/-! ### The invariant -/

/-- The blocks of a class that live allocations own. -/
def liveBlocks (live : List Live) (cls : Nat) : List Nat :=
  (live.filter fun l => l.bucket = cls).map fun l => l.op.toNat

theorem liveBlocks_append (live live' : List Live) (cls : Nat) :
    liveBlocks (live ++ live') cls = liveBlocks live cls ++ liveBlocks live' cls := by
  simp only [liveBlocks, List.filter_append, List.map_append]

theorem liveBlocks_cons_self (l : Live) (live : List Live) :
    liveBlocks (l :: live) l.bucket = l.op.toNat :: liveBlocks live l.bucket := by
  simp [liveBlocks]

theorem liveBlocks_cons_of_ne {l : Live} (live : List Live) {cls : Nat} (h : cls ≠ l.bucket) :
    liveBlocks (l :: live) cls = liveBlocks live cls := by
  simp [liveBlocks, h.symm]

theorem mem_liveBlocks {live : List Live} {l : Live} (hl : l ∈ live) :
    l.op.toNat ∈ liveBlocks live l.bucket :=
  List.mem_map.mpr ⟨l, List.mem_filter.mpr ⟨hl, by simp⟩, rfl⟩

/-- The header of a live allocation is intact, and header and payload lie in its block. -/
structure LiveGood (mem : ByteMem) (l : Live) : Prop where
  magicByte : mem (l.rv.toNat - 8 + 4) = magic
  indexByte : mem (l.rv.toNat - 8 + 5) = UInt8.ofNat l.bucket
  padWord : load32 mem (l.rv.toNat - 8) = l.rv - l.op
  header : l.op.toNat + 8 ≤ l.rv.toNat
  payload : l.rv.toNat + l.nbytes.toNat ≤ l.op.toNat + 2 ^ (l.bucket + 5)
  aligned : l.align ≠ 0 → l.align.toNat ∣ l.rv.toNat

structure HeapInv (L : Layout) (h : Heap) (live : List Live) : Prop where
  ready : h.Ready
  separate : L.Separate
  lists : ∀ i, Chain (nextOf h.mem) (h.nextf i).toNat (L.free i)
  accounted : ∀ i, (L.free i ++ liveBlocks live i).Perm (L.blocks i)
  good : ∀ l ∈ live, LiveGood h.mem l

/-- The two memories agree outside a range. -/
def AgreeOff (e : Extent) (mem mem' : ByteMem) : Prop :=
  ∀ c, c < e.start ∨ e.fin ≤ c → mem' c = mem c

theorem AgreeOff.on_apart {e f : Extent} {mem mem' : ByteMem} (h : AgreeOff e mem mem')
    (hapart : f.Apart e) (c : Nat) (hlo : f.start ≤ c) (hhi : c < f.fin) : mem' c = mem c := by
  apply h
  rcases hapart with hle | hle
  · exact Or.inl (by omega)
  · exact Or.inr (by omega)

/-- A link survives a change outside its block. -/
theorem AgreeOff.link {e : Extent} {mem mem' : ByteMem} (h : AgreeOff e mem mem') {a : Nat}
    (cls : Nat) (hapart : Extent.Apart ⟨a, 2 ^ (cls + 5)⟩ e) : nextOf mem' a = nextOf mem a := by
  unfold nextOf
  rw [load32_congr]
  intro c hlo hhi
  have hsize := smallest_block cls
  refine h.on_apart hapart c hlo ?_
  simp only [Extent.fin]
  omega

/-- Storing the link of a block changes nothing outside it. -/
theorem agreeOff_store32 (mem : ByteMem) (a cls : Nat) (x : UInt32) :
    AgreeOff ⟨a, 2 ^ (cls + 5)⟩ mem (store32 mem a x) := by
  intro c hc
  have hsize := smallest_block cls
  simp only [Extent.fin] at hc
  exact store32_of_apart _ _ (by omega)

/-- A header survives as well when its own bytes are spared. -/
theorem LiveGood.congr {mem mem' : ByteMem} {l : Live} (h : LiveGood mem l)
    (hsame : ∀ c, l.rv.toNat - 8 ≤ c → c < l.rv.toNat → mem' c = mem c) : LiveGood mem' l := by
  have hheader := h.header
  refine ⟨?_, ?_, ?_, h.header, h.payload, h.aligned⟩
  · rw [hsame _ (by omega) (by omega)]
    exact h.magicByte
  · rw [hsame _ (by omega) (by omega)]
    exact h.indexByte
  · rw [load32_congr fun c hlo hhi => hsame c hlo (by omega)]
    exact h.padWord

namespace HeapInv

variable {L : Layout} {h : Heap} {live : List Live}

theorem nodup (inv : HeapInv L h live) (i : Nat) : (L.free i ++ liveBlocks live i).Nodup :=
  (inv.accounted i).nodup_iff.mpr (L.blocks_nodup inv.separate i)

theorem free_block (inv : HeapInv L h live) {i a : Nat} (ha : a ∈ L.free i) : a ∈ L.blocks i :=
  (inv.accounted i).subset (List.mem_append_left _ ha)

theorem live_block (inv : HeapInv L h live) {l : Live} (hl : l ∈ live) :
    l.op.toNat ∈ L.blocks l.bucket :=
  (inv.accounted l.bucket).subset (List.mem_append_right _ (mem_liveBlocks hl))

/-- A block has one owner. -/
theorem live_inj (inv : HeapInv L h live) {l l' : Live} (hl : l ∈ live) (hl' : l' ∈ live)
    (hbucket : l.bucket = l'.bucket) (hop : l.op.toNat = l'.op.toNat) : l = l' := by
  have hnodup := (List.nodup_append.mp (inv.nodup l.bucket)).2.1
  refine List.inj_on_of_nodup_map hnodup ?_ ?_ hop
  · exact List.mem_filter.mpr ⟨hl, by simp⟩
  · exact List.mem_filter.mpr ⟨hl', by simp [hbucket]⟩

/-- The blocks of different live allocations share no byte. -/
theorem live_blocks_apart (inv : HeapInv L h live) {l l' : Live} (hl : l ∈ live) (hl' : l' ∈ live)
    (hne : l ≠ l') :
    Extent.Apart ⟨l.op.toNat, 2 ^ (l.bucket + 5)⟩ ⟨l'.op.toNat, 2 ^ (l'.bucket + 5)⟩ := by
  refine L.blocks_apart inv.separate (inv.live_block hl) (inv.live_block hl') fun hbucket hop => ?_
  exact hne (inv.live_inj hl hl' hbucket hop)

/-- A pointer has one owner. -/
theorem live_rv_inj (inv : HeapInv L h live) {l l' : Live} (hl : l ∈ live) (hl' : l' ∈ live)
    (hrv : l.rv = l'.rv) :
    l = l' := by
  by_contra hne
  have hapart := inv.live_blocks_apart hl hl' hne
  have hgood := inv.good l hl
  have hgood' := inv.good l' hl'
  have hheader := hgood.header
  have hpayload := hgood.payload
  have hheader' := hgood'.header
  have hpayload' := hgood'.payload
  rw [hrv] at hheader hpayload
  simp only [Extent.Apart, Extent.fin] at hapart
  omega

/-- What the header of a live allocation is read as. -/
theorem header_read (inv : HeapInv L h live) {l : Live} (hl : l ∈ live) :
    l.rv ≠ 0 ∧ (l.rv - sizeofOverhead).toNat = l.rv.toNat - 8 ∧
    (h.mem (l.rv.toNat - 8 + 5)).toNat = l.bucket := by
  have hgood := inv.good l hl
  have hheader := hgood.header
  obtain ⟨hcls, -, -, -⟩ := Layout.block_facts (inv.live_block hl)
  refine ⟨?_, sub_overhead_toNat (by omega), ?_⟩
  · intro hzero
    rw [hzero, UInt32.toNat_zero] at hheader
    omega
  · rw [hgood.indexByte]
    exact index_toNat hcls

/-- The header of a live allocation lies in its block. -/
theorem header_inside (inv : HeapInv L h live) {l : Live} (hl : l ∈ live) :
    Extent.Inside ⟨l.rv.toNat - 8, 8⟩ ⟨l.op.toNat, 2 ^ (l.bucket + 5)⟩ := by
  have hgood := inv.good l hl
  have hheader := hgood.header
  have hpayload := hgood.payload
  simp only [Extent.Inside, Extent.fin]
  omega

/-- A header survives a change outside its block. -/
theorem frame_live (inv : HeapInv L h live) {mem' : ByteMem} {e : Extent} {l : Live} (hl : l ∈ live)
    (hapart : Extent.Apart ⟨l.op.toNat, 2 ^ (l.bucket + 5)⟩ e) (hagree : AgreeOff e h.mem mem') :
    LiveGood mem' l := by
  have hheader := hapart.mono (inv.header_inside hl) ⟨le_rfl, le_rfl⟩
  have hge := (inv.good l hl).header
  refine (inv.good l hl).congr fun c hlo hhi => hagree.on_apart hheader c hlo ?_
  simp only [Extent.fin]
  omega

/-! ### Moving blocks -/

/-- A block of class `cls` changes hands: it is neither on a list nor live while its bytes change.  The
    other lists and headers do not see it. -/
theorem frame_block (hsep : L.Separate) {cls a : Nat} {rest : List Nat} {owners : List Live}
    (hperm : (a :: rest ++ liveBlocks owners cls).Perm (L.blocks cls)) {i x : Nat}
    (hx : x ∈ L.blocks i) (hother : i = cls → x ∈ rest ++ liveBlocks owners cls) :
    Extent.Apart ⟨x, 2 ^ (i + 5)⟩ ⟨a, 2 ^ (cls + 5)⟩ := by
  have hnodup : (a :: (rest ++ liveBlocks owners cls)).Nodup :=
    hperm.nodup_iff.mpr (L.blocks_nodup hsep cls)
  have ha : a ∈ L.blocks cls := hperm.subset (by simp)
  refine L.blocks_apart hsep hx ha ?_
  rintro hcls rfl
  exact (List.nodup_cons.mp hnodup).1 (hother hcls)

/-- Taking the head of a free list. -/
theorem own (inv : HeapInv L h live) {l : Live} {rest : List Nat}
    (hfree : L.free l.bucket = l.op.toNat :: rest) {mem' : ByteMem}
    (hagree : AgreeOff ⟨l.op.toNat, 2 ^ (l.bucket + 5)⟩ h.mem mem') (hgood : LiveGood mem' l) :
    HeapInv { L with free := Function.update L.free l.bucket rest }
      { h with
        nextf := Function.update h.nextf l.bucket (load32 h.mem l.op.toNat)
        mem := mem' } (l :: live) := by
  have hperm := inv.accounted l.bucket
  rw [hfree] at hperm
  refine ⟨inv.ready, inv.separate, ?_, ?_, ?_⟩
  · intro i
    by_cases hi : i = l.bucket
    · subst hi
      have hchain := inv.lists l.bucket
      rw [hfree] at hchain
      obtain ⟨-, -, hrest⟩ := hchain
      simp only [Function.update_self]
      refine hrest.frame fun x hx => hagree.link l.bucket ?_
      have hblock : x ∈ L.blocks l.bucket := hperm.subset (by simp [hx])
      exact frame_block inv.separate hperm hblock fun _ => List.mem_append_left _ hx
    · simp only [Function.update_of_ne hi]
      refine (inv.lists i).frame fun x hx => hagree.link i ?_
      exact frame_block inv.separate hperm (inv.free_block hx) fun h => absurd h hi
  · intro i
    by_cases hi : i = l.bucket
    · subst hi
      simp only [Function.update_self, liveBlocks_cons_self]
      exact List.perm_middle.trans hperm
    · simp only [Function.update_of_ne hi, liveBlocks_cons_of_ne live hi]
      exact inv.accounted i
  · intro l' hl'
    rcases List.mem_cons.mp hl' with rfl | hl'
    · exact hgood
    · refine inv.frame_live hl' ?_ hagree
      refine frame_block inv.separate hperm (inv.live_block hl') fun hcls => ?_
      rw [← hcls]
      exact List.mem_append_right _ (mem_liveBlocks hl')

/-- The block of a live allocation can be counted with the free ones. -/
theorem accounted_release (inv : HeapInv L h live) {l : Live} {before after : List Live}
    (hlive : live = before ++ l :: after) :
    (l.op.toNat :: L.free l.bucket ++ liveBlocks (before ++ after) l.bucket).Perm
      (L.blocks l.bucket) := by
  have hold := inv.accounted l.bucket
  rw [hlive, liveBlocks_append, liveBlocks_cons_self, ← List.append_assoc] at hold
  rw [liveBlocks_append, List.cons_append, ← List.append_assoc]
  exact List.perm_middle.symm.trans hold

/-- Giving a block back. -/
theorem release (inv : HeapInv L h live) {l : Live} {before after : List Live}
    (hlive : live = before ++ l :: after) :
    HeapInv { L with free := Function.update L.free l.bucket (l.op.toNat :: L.free l.bucket) }
      { h with
        mem := store32 h.mem l.op.toNat (h.nextf l.bucket)
        nextf := Function.update h.nextf l.bucket l.op } (before ++ after) := by
  have hmem : l ∈ live := by simp [hlive]
  have hperm := inv.accounted_release hlive
  have hagree := agreeOff_store32 h.mem l.op.toNat l.bucket (h.nextf l.bucket)
  have hlists : ∀ i, Chain (nextOf (store32 h.mem l.op.toNat (h.nextf l.bucket))) (h.nextf i).toNat
      (L.free i) := by
    intro i
    refine (inv.lists i).frame fun x hx => hagree.link i ?_
    refine frame_block inv.separate hperm (inv.free_block hx) fun hcls => ?_
    subst hcls
    exact List.mem_append_left _ hx
  obtain ⟨-, hne, -, -⟩ := Layout.block_facts (inv.live_block hmem)
  refine ⟨inv.ready, inv.separate, ?_, ?_, ?_⟩
  · intro i
    by_cases hi : i = l.bucket
    · subst hi
      simp only [Function.update_self]
      refine ⟨rfl, hne, ?_⟩
      have hlink : nextOf (store32 h.mem l.op.toNat (h.nextf l.bucket)) l.op.toNat =
          (h.nextf l.bucket).toNat := by
        unfold nextOf
        rw [load32_store32]
      rw [hlink]
      exact hlists l.bucket
    · simp only [Function.update_of_ne hi]
      exact hlists i
  · intro i
    by_cases hi : i = l.bucket
    · subst hi
      simp only [Function.update_self]
      exact hperm
    · have hold := inv.accounted i
      rw [hlive, liveBlocks_append, liveBlocks_cons_of_ne after hi, ← liveBlocks_append] at hold
      simp only [Function.update_of_ne hi]
      exact hold
  · intro l' hl'
    have hmem' : l' ∈ live := by
      rw [hlive]
      rcases List.mem_append.mp hl' with hl' | hl' <;> simp [hl']
    refine inv.frame_live hmem' ?_ hagree
    refine frame_block inv.separate hperm (inv.live_block hmem') fun hcls => ?_
    rw [← hcls]
    exact List.mem_append_right _ (mem_liveBlocks hl')

/-- A change that keeps to a payload disturbs no list and no header, its own included. -/
theorem rewrite (inv : HeapInv L h live) {l : Live} (hl : l ∈ live) {mem' : ByteMem}
    (hsame : ∀ c, c < l.rv.toNat ∨ l.rv.toNat + l.nbytes.toNat ≤ c → mem' c = h.mem c) :
    HeapInv L { h with mem := mem' } live := by
  have hgood := inv.good l hl
  have hheader := hgood.header
  have hpayload := hgood.payload
  have hagree : AgreeOff ⟨l.op.toNat, 2 ^ (l.bucket + 5)⟩ h.mem mem' := by
    intro c hc
    simp only [Extent.fin] at hc
    exact hsame c (by omega)
  refine ⟨inv.ready, inv.separate, ?_, inv.accounted, ?_⟩
  · intro i
    refine (inv.lists i).frame fun x hx => hagree.link i ?_
    refine L.blocks_apart inv.separate (inv.free_block hx) (inv.live_block hl) ?_
    rintro rfl rfl
    exact (List.nodup_append.mp (inv.nodup l.bucket)).2.2 _ hx _ (mem_liveBlocks hl) rfl
  · intro l' hl'
    by_cases heq : l' = l
    · subst heq
      exact hgood.congr fun c _ hc => hsame c (.inl hc)
    · exact inv.frame_live hl' (inv.live_blocks_apart hl' hl heq) hagree

theorem write (inv : HeapInv L h live) {l : Live} (hl : l ∈ live) {addr : Nat} (byte : UInt8)
    (hlo : l.rv.toNat ≤ addr) (hhi : addr < l.rv.toNat + l.nbytes.toNat) :
    HeapInv L { h with mem := Function.update h.mem addr byte } live := by
  refine inv.rewrite hl fun c hc => Function.update_of_ne ?_ _ _
  omega

/-! ### New page runs -/

theorem initPagesz (inv : HeapInv L h live) :
    HeapInv L (initPagesz h) live ∧ (initPagesz h).pagesz = pageSize ∧
      (initPagesz h).pagebucket = 7 := by
  refine ⟨?_, inv.ready.init⟩
  unfold RumpBaremetal.initPagesz
  split
  · exact { inv with ready := Or.inr ⟨rfl, rfl⟩ }
  · exact inv

/-- A class that has run out gets the blocks of a new page run. -/
theorem grow (inv : HeapInv L h live) {r : PageRun} (hempty : L.free r.cls = [])
    (hruns : ∀ r' ∈ L.runs, r.grant.extent.Apart r'.grant.extent) {mem' : ByteMem}
    (hagree : AgreeOff r.grant.extent h.mem mem')
    (hchain : Chain (nextOf mem') r.grant.rv.toNat r.blocks) :
    HeapInv ⟨r :: L.runs, Function.update L.free r.cls r.blocks⟩
      { h with nextf := Function.update h.nextf r.cls r.grant.rv, mem := mem' } live := by
  have hold : ∀ {i x : Nat}, x ∈ L.blocks i → Extent.Apart ⟨x, 2 ^ (i + 5)⟩ r.grant.extent := by
    intro i x hx
    obtain ⟨r', hr', rfl, hblock⟩ := Layout.mem_blocks.mp hx
    exact (hruns r' hr').symm.mono (Extent.piece_inside hblock) ⟨le_rfl, le_rfl⟩
  refine ⟨inv.ready, List.pairwise_cons.mpr ⟨hruns, inv.separate⟩, ?_, ?_, ?_⟩
  · intro i
    by_cases hi : i = r.cls
    · subst hi
      simp only [Function.update_self]
      exact hchain
    · simp only [Function.update_of_ne hi]
      exact (inv.lists i).frame fun x hx => hagree.link i (hold (inv.free_block hx))
  · intro i
    have hblocks : Layout.blocks ⟨r :: L.runs, Function.update L.free r.cls r.blocks⟩ i =
        r.blocksOf i ++ L.blocks i := List.flatMap_cons
    have hprev := inv.accounted i
    rw [hblocks]
    by_cases hi : i = r.cls
    · subst hi
      rw [hempty, List.nil_append] at hprev
      simp only [Function.update_self, PageRun.blocksOf, if_true]
      exact hprev.append_left r.blocks
    · simp only [Function.update_of_ne hi, PageRun.blocksOf, if_neg (Ne.symm hi), List.nil_append]
      exact hprev
  · intro l hl
    exact inv.frame_live hl (hold (inv.live_block hl)) hagree

/-- What `carve` leaves in a run is the list of its blocks, and it stays in the run. -/
theorem carve_run (r : PageRun) {sz : UInt32} (mem : ByteMem)
    (hsz : 2 ^ (7 - r.cls) - 1 ≠ 0 → sz.toNat = 2 ^ (r.cls + 5)) :
    Chain (nextOf (carve mem r.grant.rv sz (2 ^ (7 - r.cls) - 1))) r.grant.rv.toNat r.blocks ∧
      AgreeOff r.grant.extent mem (carve mem r.grant.rv sz (2 ^ (7 - r.cls) - 1)) := by
  have hcount : 2 ^ (7 - r.cls) - 1 + 1 = 2 ^ (7 - r.cls) := Nat.sub_add_cancel (Nat.two_pow_pos _)
  have hsize := smallest_block r.cls
  have hlen := r.len_eq
  have hbelow : r.grant.rv.toNat + r.grant.extent.len < 2 ^ 32 := r.below
  obtain ⟨hfour, hlast⟩ := stride_fits hsz (Nat.two_pow_pos _) (by omega)
  rw [← hlen] at hlast
  obtain ⟨hchain, hframe⟩ := carve_spec sz (2 ^ (7 - r.cls) - 1) mem r.grant.rv r.nonNull hfour
    (by omega)
  have hlist : (List.range (2 ^ (7 - r.cls) - 1 + 1)).map (fun k => r.grant.rv.toNat + k * sz.toNat) =
      r.blocks := by
    unfold PageRun.blocks Extent.pieces
    rw [hcount, hlen, Nat.mul_div_cancel _ (Nat.two_pow_pos _)]
    apply List.map_congr_left
    intro k hk
    rw [stride_mul hsz (List.mem_range.mp hk)]
    rfl
  rw [hlist] at hchain
  refine ⟨hchain, fun c hc => hframe c ?_⟩
  have hfin : r.grant.extent.fin = r.grant.rv.toNat + r.grant.extent.len := rfl
  have hstart : r.grant.extent.start = r.grant.rv.toNat := rfl
  omega

/-- `morecore` with a page source that keeps its word. -/
theorem morecore (inv : HeapInv L h live) {granted : List PageGrant}
    (hgranted : L.runs.map (·.grant) = granted) (hsz : h.pagesz = pageSize)
    (hbucket : h.pagebucket = 7) {cls : Nat} (hcls : cls ≤ 26) (hempty : h.nextf cls = 0)
    {answer : UInt32} (hgood : GrantsGood (morecore (answering answer) h granted cls).2) :
    ∃ L', HeapInv L' (morecore (answering answer) h granted cls).1 live ∧
      L'.runs.map (·.grant) = (morecore (answering answer) h granted cls).2 := by
  by_cases hanswer : answer = 0
  · rw [hanswer, morecore_denied granted hcls hsz hbucket]
    exact ⟨L, inv, hgranted⟩
  · obtain ⟨howmany, sz, hpages, hblk, heq⟩ := morecore_granted granted hcls hsz hbucket hanswer
    rw [heq] at hgood ⊢
    obtain ⟨heach, hpairs⟩ := hgood
    obtain ⟨haligned, hbelow⟩ := heach _ List.mem_cons_self
    let r : PageRun := ⟨⟨answer, howmany⟩, cls, hcls, hpages, hanswer, haligned, hbelow⟩
    have hlist := inv.lists cls
    rw [hempty] at hlist
    have hruns : ∀ r' ∈ L.runs, r.grant.extent.Apart r'.grant.extent := by
      intro r' hr'
      refine (List.pairwise_cons.mp hpairs).1 r'.grant ?_
      rw [← hgranted]
      exact List.mem_map_of_mem hr'
    obtain ⟨hchain, hagree⟩ := carve_run r h.mem hblk
    refine ⟨_, inv.grow (r := r) hlist.eq_nil hruns hagree hchain, ?_⟩
    rw [List.map_cons, hgranted]

/-! ### Allocation and release -/

/-- The padding leads back from the pointer to the block. -/
theorem sub_alignpad (rv op : UInt32) : rv - (rv - op) = op := by
  have hrv := rv.toNat_lt
  have hop := op.toNat_lt
  apply UInt32.toNat_inj.mp
  rw [UInt32.toNat_sub, UInt32.toNat_sub]
  omega

/-- The header that `takeBlock` writes names the block and the class. -/
theorem takeBlock_header (h : Heap) {cls : Nat} (hcls : cls ≤ 26) (op align : UInt32) :
    (takeBlock h cls op align).1 -
        load32 (takeBlock h cls op align).2.mem
          ((takeBlock h cls op align).1 - sizeofOverhead).toNat = op ∧
      ((takeBlock h cls op align).2.mem
          (((takeBlock h cls op align).1 - sizeofOverhead).toNat + 5)).toNat = cls := by
  simp only [takeBlock, writeHeader_pad, writeHeader_index]
  refine ⟨?_, ?_⟩
  · exact sub_alignpad _ _
  · exact index_toNat hcls

/-- The block that `bmk_memalloc` takes. -/
theorem head_block (inv : HeapInv L h live) {cls : Nat} (hop : h.nextf cls ≠ 0) :
    (h.nextf cls).toNat ∈ L.blocks cls ∧ ∃ rest, L.free cls = (h.nextf cls).toNat :: rest := by
  have hne : (h.nextf cls).toNat ≠ 0 := fun hzero => hop (UInt32.toNat_inj.mp hzero)
  obtain ⟨rest, hfree, -⟩ := (inv.lists cls).eq_cons hne
  exact ⟨inv.free_block (by simp [hfree]), rest, hfree⟩

/-- The block at the head of a list becomes an allocation, where pointer and payload stay in it. -/
theorem take_inside (inv : HeapInv L h live) {cls : Nat} {nbytes request align rv : UInt32}
    (hop : h.nextf cls ≠ 0) (hrv : (takeBlock h cls (h.nextf cls) align).1 = rv)
    (hlow : (h.nextf cls).toNat + 8 ≤ rv.toNat)
    (hhigh : rv.toNat + nbytes.toNat ≤ (h.nextf cls).toNat + 2 ^ (cls + 5))
    (haligned : request ≠ 0 → request.toNat ∣ rv.toNat) :
    ∃ free', HeapInv { L with free := free' } (takeBlock h cls (h.nextf cls) align).2
      (⟨rv, nbytes, request, h.nextf cls, cls⟩ :: live) := by
  subst hrv
  obtain ⟨-, rest, hfree⟩ := inv.head_block hop
  have hover : ((takeBlock h cls (h.nextf cls) align).1 - sizeofOverhead).toNat =
      (takeBlock h cls (h.nextf cls) align).1.toNat - 8 := sub_overhead_toNat (by omega)
  have hagree : AgreeOff ⟨(h.nextf cls).toNat, 2 ^ (cls + 5)⟩ h.mem
      (takeBlock h cls (h.nextf cls) align).2.mem := by
    intro c hc
    simp only [Extent.fin] at hc
    have hoff : c < ((takeBlock h cls (h.nextf cls) align).1 - sizeofOverhead).toNat ∨
        ((takeBlock h cls (h.nextf cls) align).1 - sizeofOverhead).toNat + 6 ≤ c := by omega
    exact writeHeader_of_apart h.mem cls _ hoff
  have hgood : LiveGood (takeBlock h cls (h.nextf cls) align).2.mem
      ⟨(takeBlock h cls (h.nextf cls) align).1, nbytes, request, h.nextf cls, cls⟩ := by
    refine ⟨?_, ?_, ?_, hlow, hhigh, haligned⟩
    · simp only [← hover]
      exact writeHeader_magic _ _ _ _
    · simp only [← hover]
      exact writeHeader_index _ _ _ _
    · simp only [← hover]
      exact writeHeader_pad _ _ _ _
  exact ⟨Function.update L.free cls rest, inv.own
    (l := ⟨(takeBlock h cls (h.nextf cls) align).1, nbytes, request, h.nextf cls, cls⟩) hfree hagree hgood⟩

/-- A class with room for the header and the payload. -/
theorem take (inv : HeapInv L h live) {cls k : Nat} {nbytes request align : UInt32}
    (hop : h.nextf cls ≠ 0) (halign : align.toNat = 2 ^ k)
    (hrequest : request ≠ 0 → request.toNat ∣ 2 ^ k)
    (hroom : nbytes.toNat + roundUp 8 (2 ^ k) ≤ 2 ^ (cls + 5)) :
    ∃ free', (takeBlock h cls (h.nextf cls) align).1 ≠ 0 ∧
      HeapInv { L with free := free' } (takeBlock h cls (h.nextf cls) align).2
        (⟨(takeBlock h cls (h.nextf cls) align).1, nbytes, request, h.nextf cls, cls⟩ :: live) := by
  obtain ⟨hblock, -⟩ := inv.head_block hop
  obtain ⟨-, -, hbase, hend⟩ := Layout.block_facts hblock
  have hptr : (takeBlock h cls (h.nextf cls) align).1.toNat =
      roundUp ((h.nextf cls).toNat + 8) (2 ^ k) := takeBlock_pointer h halign (by omega) (by omega)
  obtain ⟨hlow, hhigh⟩ := pointer_in_block hbase (k := k) (by omega)
  rw [← hptr] at hlow hhigh
  have hpayload : (takeBlock h cls (h.nextf cls) align).1.toNat + nbytes.toNat ≤
      (h.nextf cls).toNat + 2 ^ (cls + 5) := by omega
  obtain ⟨free', htaken⟩ := inv.take_inside hop rfl hlow hpayload fun hasked =>
    hptr ▸ (hrequest hasked).trans (dvd_roundUp _ _)
  refine ⟨free', ?_, htaken⟩
  intro hzero
  rw [hzero, UInt32.toNat_zero] at hlow
  omega

/-- `bmk_memfree` reads the header of a live allocation and gives its block back. -/
theorem bmkMemfree_live (inv : HeapInv L h live) {l : Live} (hl : l ∈ live) :
    bmkMemfree h l.rv = some { h with
      mem := store32 h.mem l.op.toNat (h.nextf l.bucket)
      nextf := Function.update h.nextf l.bucket l.op } := by
  have hgood := inv.good l hl
  obtain ⟨hcls, -, -, -⟩ := Layout.block_facts (inv.live_block hl)
  obtain ⟨hrv, hover, hindex⟩ := inv.header_read hl
  have hsize : l.bucket < nbuckets := by
    simp only [nbuckets]
    omega
  have hexit : memfreeExit h l.rv = .freed := by
    simp only [memfreeExit, hover, hgood.magicByte, hindex, if_neg hrv, ne_eq, not_true, if_false,
      if_pos hsize]
  simp only [bmkMemfree, hexit, hover, hindex, hgood.padWord, sub_alignpad]

/-- The list of live allocations after a call. -/
def recorded (out : UInt32 × Heap × List PageGrant) (nbytes request : UInt32) (live : List Live) :
    List Live :=
  if out.1 = 0 then live
  else
    ⟨out.1, nbytes, request, out.1 - load32 out.2.1.mem (out.1 - sizeofOverhead).toNat,
      (out.2.1.mem ((out.1 - sizeofOverhead).toNat + 5)).toNat⟩ :: live

theorem refill (inv : HeapInv L h live) {granted : List PageGrant}
    (hgranted : L.runs.map (·.grant) = granted) (hsz : h.pagesz = pageSize)
    (hbucket : h.pagebucket = 7) {cls : Nat} (hcls : cls ≤ 26) {answer : UInt32}
    (hgood : GrantsGood (refill (answering answer) h granted cls).2) :
    ∃ L', HeapInv L' (refill (answering answer) h granted cls).1 live ∧
      L'.runs.map (·.grant) = (refill (answering answer) h granted cls).2 := by
  unfold RumpBaremetal.refill at hgood ⊢
  split
  · rename_i hempty
    rw [if_pos hempty] at hgood
    exact inv.morecore hgranted hsz hbucket hcls hempty hgood
  · exact ⟨L, inv, hgranted⟩

theorem serve (inv : HeapInv L h live) {granted : List PageGrant}
    (hgranted : L.runs.map (·.grant) = granted) (hsz : h.pagesz = pageSize)
    (hbucket : h.pagebucket = 7) {cls k : Nat} (hcls : cls ≤ 26) {nbytes request align answer : UInt32}
    (halign : align.toNat = 2 ^ k) (hrequest : request ≠ 0 → request.toNat ∣ 2 ^ k)
    (hroom : nbytes.toNat + roundUp 8 (2 ^ k) ≤ 2 ^ (cls + 5))
    (hgood : GrantsGood (serve (answering answer) h granted cls align).2.2) :
    ∃ L', L'.runs.map (·.grant) = (serve (answering answer) h granted cls align).2.2 ∧
      HeapInv L' (serve (answering answer) h granted cls align).2.1
        (recorded (serve (answering answer) h granted cls align) nbytes request live) := by
  rw [serve_pages] at hgood ⊢
  obtain ⟨L', inv', hgranted'⟩ := inv.refill hgranted hsz hbucket hcls hgood
  rcases hpair : RumpBaremetal.refill (answering answer) h granted cls with ⟨h', granted'⟩
  rw [hpair] at inv' hgranted'
  dsimp only at inv' hgranted'
  simp only [RumpBaremetal.serve, hpair]
  by_cases hop : h'.nextf cls = 0
  · rw [if_pos hop]
    exact ⟨L', hgranted', inv'⟩
  · obtain ⟨free', hne, htaken⟩ := inv'.take hop halign hrequest hroom
    obtain ⟨hblock, hclass⟩ := takeBlock_header h' hcls (h'.nextf cls) align
    rw [if_neg hop]
    refine ⟨{ L' with free := free' }, hgranted', ?_⟩
    simp only [recorded, if_neg hne, hblock, hclass]
    exact htaken

theorem bmkMemalloc (inv : HeapInv L h live) {granted : List PageGrant}
    (hgranted : L.runs.map (·.grant) = granted) {nbytes align answer : UInt32}
    (hfit : nbytes.toNat + (headerRoom (effectiveAlign align)).toNat < 2 ^ 32)
    (hgood : GrantsGood (bmkMemalloc (answering answer) h granted nbytes align).2.2) :
    ∃ L', L'.runs.map (·.grant) = (bmkMemalloc (answering answer) h granted nbytes align).2.2 ∧
      HeapInv L' (bmkMemalloc (answering answer) h granted nbytes align).2.1
        (recorded (bmkMemalloc (answering answer) h granted nbytes align) nbytes align live) := by
  obtain ⟨inv', hsz, hbucket⟩ := inv.initPagesz
  rcases bmkMemalloc_cases (answering answer) granted hsz hbucket hfit with
    heq | ⟨cls, hcls, htest, hroom, heq⟩
  · rw [heq]
    exact ⟨L, hgranted, inv'⟩
  · obtain ⟨k, -, -, halign, hrequest⟩ := effectiveAlign_pow htest
    rw [headerRoom_toNat halign] at hroom
    rw [heq] at hgood ⊢
    exact inv'.serve hgranted hsz hbucket hcls halign hrequest hroom hgood

/-! ### Runs -/

/-- The invariant of the allocator with its clients. -/
def World (w : HeapWorld) : Prop :=
  ∃ L : Layout, HeapInv L w.heap w.live ∧ L.runs.map (·.grant) = w.granted ∧ w.botched = false

theorem boot (mem : ByteMem) : World (HeapWorld.boot mem) := by
  refine ⟨⟨[], fun _ => []⟩, ⟨Or.inl rfl, List.Pairwise.nil, fun _ => rfl, fun _ => List.Perm.nil, ?_⟩,
    rfl, rfl⟩
  intro l hl
  exact absurd hl List.not_mem_nil

/-- Every event keeps the invariant: an allocation takes a block, a release gives it back, a write stays
    in its payload. -/
theorem step {w w' : HeapWorld} {e : HeapEvent} (hw : World w) (hstep : heapStep w e = some w') :
    World w' := by
  obtain ⟨L, inv, hgranted, hsound⟩ := hw
  obtain ⟨henabled, rfl⟩ := heapStep_inv hstep
  cases e with
  | alloc nbytes align answer =>
      obtain ⟨hfit, hgood⟩ := henabled
      obtain ⟨L', hgranted', inv'⟩ := inv.bmkMemalloc hgranted hfit hgood
      exact ⟨L', inv', hgranted', hsound⟩
  | free cp =>
      obtain ⟨l, hl, hrv⟩ := henabled
      -- the entry that is erased is the first with this pointer
      obtain ⟨l', before, after, -, hrv', hlive, herase⟩ :=
        List.exists_of_eraseP (p := fun l => decide (l.rv = cp)) hl (decide_eq_true hrv)
      have hmem : l' ∈ w.live := by simp [hlive]
      have hfree := inv.bmkMemfree_live hmem
      rw [of_decide_eq_true hrv'] at hfree
      simp only [heapEffect, hfree, herase]
      exact ⟨_, inv.release hlive, hgranted, hsound⟩
  | write addr byte =>
      obtain ⟨l, hl, hlo, hhi⟩ := henabled
      exact ⟨L, inv.write hl byte hlo hhi, hgranted, hsound⟩

theorem live_nodup (inv : HeapInv L h live) : live.Nodup := by
  apply List.nodup_iff_count_le_one.mpr
  intro l
  have hclass : ((live.filter fun l' => l'.bucket = l.bucket).map fun l' => l'.op.toNat).Nodup :=
    (List.nodup_append.mp (inv.nodup l.bucket)).2.1
  have hcount := List.nodup_iff_count_le_one.mp (List.Nodup.of_map _ hclass) l
  rwa [List.count_filter (by simp)] at hcount

/-- Header and payload of different live allocations share no byte. -/
theorem live_apart (inv : HeapInv L h live) :
    live.Pairwise fun l l' => Extent.Apart ⟨l.rv.toNat - 8, 8 + l.nbytes.toNat⟩
      ⟨l'.rv.toNat - 8, 8 + l'.nbytes.toNat⟩ := by
  have hinside : ∀ {l : Live}, l ∈ live → Extent.Inside ⟨l.rv.toNat - 8, 8 + l.nbytes.toNat⟩
      ⟨l.op.toNat, 2 ^ (l.bucket + 5)⟩ := by
    intro l hl
    have hheader := (inv.good l hl).header
    have hpayload := (inv.good l hl).payload
    simp only [Extent.Inside, Extent.fin]
    omega
  refine inv.live_nodup.pairwise_of_forall_ne fun l hl l' hl' hne => ?_
  exact (inv.live_blocks_apart hl hl' hne).mono (hinside hl) (hinside hl')

end HeapInv

/-- The partition of the heap.  The layout accounts for the page runs that were granted, and its free lists
    are the lists that start at `nextf`. -/
structure HeapPartition (L : Layout) (w : HeapWorld) : Prop where
  /-- The runs of the layout are the runs that were granted. -/
  granted : L.runs.map (·.grant) = w.granted
  /-- Every byte of a run lies in one of its blocks, and every byte of a block in the run. -/
  tiled : ∀ r ∈ L.runs, ∀ c, (r.grant.extent.start ≤ c ∧ c < r.grant.extent.fin) ↔
    ∃ a ∈ r.blocks, a ≤ c ∧ c < a + 2 ^ (r.cls + 5)
  /-- Two blocks share no byte, be they of one class or of two. -/
  apart : ∀ i j a c, a ∈ L.blocks i → c ∈ L.blocks j → (i = j → a ≠ c) →
    Extent.Apart ⟨a, 2 ^ (i + 5)⟩ ⟨c, 2 ^ (j + 5)⟩
  /-- Each list ends, and leads through the free blocks of its class. -/
  lists : ∀ i, Chain (nextOf w.heap.mem) (w.heap.nextf i).toNat (L.free i)
  /-- The blocks of a class are the free ones and those with an owner. -/
  accounted : ∀ i, (L.free i ++ liveBlocks w.live i).Perm (L.blocks i)
  /-- No block is free twice, owned twice, or both. -/
  once : ∀ i, (L.free i ++ liveBlocks w.live i).Nodup
  /-- Live pointers are aligned, with an intact header, and with header and payload in their block. -/
  good : ∀ l ∈ w.live, l.op.toNat ∈ L.blocks l.bucket ∧ LiveGood w.heap.mem l
  /-- Live allocations share no byte. -/
  disjoint : w.live.Pairwise fun l l' => Extent.Apart ⟨l.rv.toNat - 8, 8 + l.nbytes.toNat⟩
    ⟨l'.rv.toNat - 8, 8 + l'.nbytes.toNat⟩
  /-- No assertion of `bmk_memfree` has failed. -/
  sound : w.botched = false

theorem HeapInv.World.partition {w : HeapWorld} (hw : HeapInv.World w) : ∃ L, HeapPartition L w := by
  obtain ⟨L, inv, hgranted, hsound⟩ := hw
  refine ⟨L, ⟨hgranted, ?_, ?_, inv.lists, inv.accounted, inv.nodup, ?_, inv.live_apart, hsound⟩⟩
  · intro r _ c
    exact Extent.pieces_cover (Nat.two_pow_pos _) r.size_dvd c
  · intro i j a c ha hc hne
    exact L.blocks_apart inv.separate ha hc hne
  · intro l hl
    exact ⟨inv.live_block hl, inv.good l hl⟩

/-- After every run of allocations, releases of live pointers and writes to live payloads, the heap is
    partitioned into free and live blocks. -/
theorem heap_partition {mem : ByteMem} {events : List HeapEvent} {w : HeapWorld}
    (hrun : run heapStep (HeapWorld.boot mem) events = some w) : ∃ L, HeapPartition L w :=
  (run_invariant (fun _ _ _ hw hstep => HeapInv.step hw hstep) (HeapInv.boot mem) hrun).partition

/-- Two blocks of one page; the first is written to and freed again, the second stays. -/
theorem heap_partition_two :
    ∃ w, run heapStep (HeapWorld.boot fun _ => 0)
        [.alloc 2000 8 0x200000, .alloc 1500 0 0, .write 0x200008 7, .free 0x200008] = some w ∧
      w.live.map (·.rv) = [0x200808] ∧ ∃ L, HeapPartition L w := by
  have hlive : (run heapStep (HeapWorld.boot fun _ => 0)
      [.alloc 2000 8 0x200000, .alloc 1500 0 0, .write 0x200008 7, .free 0x200008]).map
        (fun w => w.live.map (·.rv)) = some [0x200808] := by
    decide +kernel
  obtain ⟨w, hrun, hleft⟩ := Option.map_eq_some_iff.mp hlive
  exact ⟨w, hrun, hleft, heap_partition hrun⟩

end RumpBaremetal
