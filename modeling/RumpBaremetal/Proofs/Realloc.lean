/-
Module: RumpBaremetal.Proofs.Realloc
Layer: Proofs
Purpose: `realloc` on the heaps that the clients of libc can reach.  `bmk_memrealloc` works out how many
  bytes a block has left behind a pointer from the class and the padding in its header, and takes the header
  off a second time: the padding covers it already.  The difference decides what is copied when an
  allocation moves, and it wraps for a pointer at the very end of its block.
Trusted boundary: none (fully proved)
Main exports: HeapInv.bytesLeft_toNat, HeapInv.in_place_iff, HeapInv.realloc_moves, HeapInv.resize,
  LiveAligned.libc_step, Reallocated, memrealloc_keeps_data, BlockTaken, Obtained, ReallocSized,
  memrealloc_big_enough
-/
import RumpBaremetal.Kernel.LibcMalloc
import RumpBaremetal.Proofs.StaleFree
import RumpBaremetal.Proofs.Subr

namespace RumpBaremetal

open ByteMem StepSystem

namespace HeapInv

variable {L : Layout} {h : Heap} {live : List Live}

/-! ### What is left of a block -/

/-- The pointer of a live allocation, the size that was asked for and the end of the block. -/
theorem room_facts (inv : HeapInv L h live) {l : Live} (hl : l ∈ live) :
    l.rv.toNat + l.room = l.op.toNat + 2 ^ (l.bucket + 5) ∧ l.nbytes.toNat ≤ l.room ∧
      l.room + 8 ≤ 2 ^ (l.bucket + 5) := by
  have hheader := (inv.good l hl).header
  have hpayload := (inv.good l hl).payload
  unfold Live.room
  omega

/-- The bytes asked for lie in the block. -/
theorem payload_inside (inv : HeapInv L h live) {l : Live} (hl : l ∈ live) :
    Extent.Inside ⟨l.rv.toNat, l.nbytes.toNat⟩ ⟨l.op.toNat, 2 ^ (l.bucket + 5)⟩ := by
  have hheader := (inv.good l hl).header
  exact ⟨(Nat.le_add_right _ _).trans hheader, (inv.good l hl).payload⟩

/-- A pointer is a multiple of eight, and so is the end of its block. -/
theorem room_mod (inv : HeapInv L h live) {l : Live} (hl : l ∈ live) (hmod : l.rv.toNat % 8 = 0) :
    l.room % 8 = 0 := by
  obtain ⟨hend, -, -⟩ := inv.room_facts hl
  obtain ⟨-, -, hbase, -⟩ := Layout.block_facts (inv.live_block hl)
  have hop : 8 ∣ l.op.toNat := (pow_dvd_pow 2 (Nat.le_add_left 3 (min l.bucket 7 + 2))).trans hbase
  have hsize : 8 ∣ 2 ^ (l.bucket + 5) := pow_dvd_pow 2 (Nat.le_add_left 3 (l.bucket + 2))
  omega

/-- `bmk_memrealloc` counts eight bytes less than there are. -/
theorem bytesLeft_toNat (inv : HeapInv L h live) {l : Live} (hl : l ∈ live) :
    (bytesLeft h l.rv).toNat = (l.room + (2 ^ 32 - 8)) % 2 ^ 32 := by
  obtain ⟨-, hover, hindex⟩ := inv.header_read hl
  obtain ⟨hend, -, hroom⟩ := inv.room_facts hl
  obtain ⟨hcls, -, -, hbelow⟩ := Layout.block_facts (inv.live_block hl)
  have hheader := (inv.good l hl).header
  have hsize : ((1 : UInt32) <<< UInt32.ofNat (l.bucket + minShift)).toNat = 2 ^ (l.bucket + 5) :=
    one_shiftLeft_toNat (by simp only [minShift]; omega)
  have hpad : (l.rv - l.op).toNat = l.rv.toNat - l.op.toNat :=
    UInt32.toNat_sub_of_le _ _ (UInt32.le_iff_toNat_le.mpr (by omega))
  have htaken : (l.rv - l.op + sizeofOverhead).toNat = l.rv.toNat - l.op.toNat + 8 := by
    rw [UInt32.toNat_add, hpad, show sizeofOverhead.toNat = 8 from rfl, Nat.mod_eq_of_lt (by omega)]
  simp only [bytesLeft, hover, hindex, (inv.good l hl).padWord]
  rw [UInt32.toNat_sub, hsize, htaken]
  congr 1
  omega

/-- Where `bmk_memrealloc` leaves an allocation in place: it has the bytes and eight more, or it has none at
    all. -/
theorem in_place_iff (inv : HeapInv L h live) {l : Live} (hl : l ∈ live) (hmod : l.rv.toNat % 8 = 0)
    {nbytes : UInt32} (hfit : nbytes.toNat + 8 < 2 ^ 32) :
    bytesLeft h l.rv ≥ nbytes ↔ l.room = 0 ∨ nbytes.toNat + 8 ≤ l.room ∨ nbytes = 0 := by
  have hleft := inv.bytesLeft_toNat hl
  have hroom := inv.room_mod hl hmod
  obtain ⟨-, -, hsmall⟩ := inv.room_facts hl
  obtain ⟨hcls, -, -, hbelow⟩ := Layout.block_facts (inv.live_block hl)
  have hzero : nbytes = 0 ↔ nbytes.toNat = 0 := UInt32.toNat_inj.symm
  rw [ge_iff_le, UInt32.le_iff_toNat_le, hleft, hzero]
  omega

/-! ### What an allocation leaves alone -/

/-- A successful call, with the allocation that it adds. -/
theorem alloc_new (inv : HeapInv L h live) {granted : List PageGrant}
    (hgranted : L.runs.map (·.grant) = granted) {nbytes align answer : UInt32}
    (hfit : nbytes.toNat + (headerRoom (effectiveAlign align)).toNat < 2 ^ 32)
    {out : UInt32 × Heap × List PageGrant}
    (hout : RumpBaremetal.bmkMemalloc (answering answer) h granted nbytes align = out)
    (hgood : GrantsGood out.2.2) (hne : out.1 ≠ 0) :
    ∃ L' r, r.rv = out.1 ∧ r.nbytes = nbytes ∧ r.align = align ∧ L'.runs.map (·.grant) = out.2.2 ∧
      HeapInv L' out.2.1 (r :: live) := by
  subst hout
  obtain ⟨L', hgranted', inv'⟩ := inv.bmkMemalloc hgranted hfit hgood
  rw [recorded, if_neg hne] at inv'
  exact ⟨L', _, rfl, rfl, rfl, hgranted', inv'⟩

/-- The header of a live allocation gives the record of it back. -/
theorem ofHeader_eq (inv : HeapInv L h live) {l : Live} (hl : l ∈ live) :
    Live.ofHeader h.mem l.rv l.nbytes l.align = l := by
  obtain ⟨-, hover, hindex⟩ := inv.header_read hl
  simp only [Live.ofHeader, hover, hindex, (inv.good l hl).padWord, sub_alignpad]

/-- An allocation changes no byte behind the pointer of another one. -/
theorem alloc_spares (inv : HeapInv L h live) {granted : List PageGrant}
    (hgranted : L.runs.map (·.grant) = granted) {nbytes align answer : UInt32}
    (hfit : nbytes.toNat + (headerRoom (effectiveAlign align)).toNat < 2 ^ 32)
    {out : UInt32 × Heap × List PageGrant}
    (hout : RumpBaremetal.bmkMemalloc (answering answer) h granted nbytes align = out)
    (hgood : GrantsGood out.2.2) {l : Live} (hl : l ∈ live) {i : Nat} (hi : i < l.room) :
    out.2.1.mem (l.rv.toNat + i) = h.mem (l.rv.toNat + i) := by
  obtain ⟨-, hptr, hframe⟩ := inv.alloc_frame hgranted hfit hout hgood
  obtain ⟨hend, -, -⟩ := inv.room_facts hl
  have hheader := (inv.good l hl).header
  obtain ⟨g, hg, hcls, hblock⟩ := Layout.mem_blocks.mp (inv.live_block hl)
  obtain ⟨hstart, hfin⟩ := Extent.piece_inside hblock
  simp only [Extent.fin, hcls] at hstart hfin
  have hgrant : g.grant ∈ granted := hgranted ▸ List.mem_map_of_mem hg
  refine hframe g.grant hgrant _ (by omega) (by simp only [Extent.fin]; omega) fun hne => ?_
  -- the new header lies in a block of its own
  obtain ⟨L', r, hrv, -, -, -, inv'⟩ := inv.alloc_new hgranted hfit hout hgood hne
  have hnew : l ≠ r := fun heq => (List.nodup_cons.mp inv'.live_nodup).1 (heq ▸ hl)
  have hapart := inv'.live_blocks_apart (List.mem_cons_of_mem _ hl) List.mem_cons_self hnew
  have hinside := inv'.header_inside List.mem_cons_self
  obtain ⟨hlow, -⟩ := hptr hne
  rw [hrv] at hinside
  simp only [Extent.Apart, Extent.Inside, Extent.fin] at hapart hinside
  omega

/-! ### Moving an allocation -/

/-- A release succeeds, and changes no byte behind the pointer of another allocation. -/
theorem free_live (inv : HeapInv L h live) {l : Live} (hl : l ∈ live) :
    ∃ L' h', HeapInv L' h' (live.eraseP fun l' => l'.rv = l.rv) ∧ L'.runs = L.runs ∧
      bmkMemfree h l.rv = some h' ∧
      ∀ l' ∈ live, l' ≠ l → ∀ i < l'.room, h'.mem (l'.rv.toNat + i) = h.mem (l'.rv.toNat + i) := by
  obtain ⟨l₁, before, after, -, hrv, hlive, herase⟩ :=
    List.exists_of_eraseP (p := fun l' => decide (l'.rv = l.rv)) hl (decide_eq_true rfl)
  obtain rfl : l₁ = l := inv.live_rv_inj (by simp [hlive]) hl (of_decide_eq_true hrv)
  have inv' := inv.release hlive
  rw [← herase] at inv'
  refine ⟨_, _, inv', rfl, inv.bmkMemfree_live hl, fun l' hl' hne i hi => ?_⟩
  have hapart := inv.live_blocks_apart hl' hl hne
  have hsize := smallest_block l₁.bucket
  obtain ⟨hend, -, -⟩ := inv.room_facts hl'
  have hheader := (inv.good l' hl').header
  simp only [Extent.Apart, Extent.fin] at hapart
  exact store32_of_apart _ _ (by omega)

/-- Bytes behind the pointers of two allocations lie at different addresses. -/
theorem live_ranges_apart (inv : HeapInv L h live) {l l' : Live} (hl : l ∈ live) (hl' : l' ∈ live)
    (hne : l ≠ l') {m n : Nat} (hm : m ≤ l.room) (hn : n ≤ l'.room) : RangesApart l.rv m l'.rv n := by
  intro i hi j hj
  have hapart := inv.live_blocks_apart hl hl' hne
  obtain ⟨hend, -, -⟩ := inv.room_facts hl
  obtain ⟨hend', -, -⟩ := inv.room_facts hl'
  have hheader := (inv.good l hl).header
  have hheader' := (inv.good l' hl').header
  obtain ⟨-, -, -, hbelow⟩ := Layout.block_facts (inv.live_block hl)
  obtain ⟨-, -, -, hbelow'⟩ := Layout.block_facts (inv.live_block hl')
  simp only [Extent.Apart, Extent.fin] at hapart
  rw [addr_of_lt (by omega), addr_of_lt (by omega)]
  omega

/-- Behind the pointer of a live allocation no address wraps. -/
theorem live_addr (inv : HeapInv L h live) {l : Live} (hl : l ∈ live) {i : Nat} (hi : i ≤ l.room) :
    addr l.rv i = l.rv.toNat + i := by
  obtain ⟨hend, -, -⟩ := inv.room_facts hl
  obtain ⟨-, -, -, hbelow⟩ := Layout.block_facts (inv.live_block hl)
  exact addr_of_lt (by omega)

/-- Storing at most the payload keeps the invariant. -/
theorem patch_live (inv : HeapInv L h live) {l : Live} (hl : l ∈ live) {n : Nat} (hn : n ≤ l.nbytes.toNat)
    (f : Nat → UInt8) :
    HeapInv L { h with mem := patch h.mem l.rv n f } live := by
  obtain ⟨-, hpayload, -⟩ := inv.room_facts hl
  refine inv.rewrite hl fun c hc => patch_of_outside fun i hi => ?_
  rw [inv.live_addr hl (by omega)]
  omega

/-- The copy and the release that make up a move, in a heap in which the new allocation `r` exists beside
    the old one. -/
theorem move (inv : HeapInv L h live) {l r : Live} (hl : l ∈ live) (hr : r ∈ live) (hne : r ≠ l)
    {left : UInt32} (hroom : left.toNat ≤ l.room) (hbytes : left.toNat ≤ r.nbytes.toNat) :
    ∃ L' h', HeapInv L' h' (live.eraseP fun l' => l'.rv = l.rv) ∧ L'.runs = L.runs ∧
      bmkMemfree { h with mem := bmkMemcpy h.mem r.rv l.rv left } l.rv = some h' ∧
      (∀ i < r.room, h'.mem (r.rv.toNat + i) =
        if i < left.toNat then h.mem (l.rv.toNat + i) else h.mem (r.rv.toNat + i)) ∧
      ∀ l' ∈ live, l' ≠ l → l' ≠ r → ∀ i < l'.room, h'.mem (l'.rv.toNat + i) = h.mem (l'.rv.toNat + i) := by
  obtain ⟨-, hpayload, -⟩ := inv.room_facts hr
  have hcopy : bmkMemcpy h.mem r.rv l.rv left = patch h.mem r.rv left.toNat fun i => h.mem (addr l.rv i) :=
    copyLoop_eq _ _ _ left.toNat_lt.le (inv.live_ranges_apart hr hl hne (by omega) hroom)
  obtain ⟨L', h', inv', hruns, hfree, hsame⟩ :=
    (inv.patch_live hr hbytes fun i => h.mem (addr l.rv i)).free_live hl
  dsimp only at hsame
  refine ⟨L', h', inv', hruns, hcopy ▸ hfree, fun i hi => ?_, fun l' hl' hold hnew i hi => ?_⟩
  · rw [hsame r hr hne i hi]
    by_cases hcopied : i < left.toNat
    · rw [if_pos hcopied, ← inv.live_addr hl (by omega), ← inv.live_addr hr hi.le]
      exact patch_addr left.toNat_lt.le hcopied
    · rw [if_neg hcopied]
      refine patch_of_outside fun j hj heq => ?_
      rw [inv.live_addr hr (by omega)] at heq
      omega
  · rw [hsame l' hl' hold i hi, ← inv.live_addr hl' hi.le]
    refine patch_of_outside fun j hj => ?_
    exact inv.live_ranges_apart hl' hr hnew le_rfl hpayload i hi j (by omega)

/-! ### A call of `realloc` -/

variable {granted : List PageGrant} {l : Live} {nbytes answer : UInt32}

/-- An allocation that stays where it is. -/
theorem realloc_stays (inv : HeapInv L h live) (hl : l ∈ live) (hpos : nbytes ≠ 0)
    (hleft : bytesLeft h l.rv ≥ nbytes) :
    realloc (answering answer) h granted l.rv nbytes = some (l.rv, h, granted) := by
  obtain ⟨hrv, -, -⟩ := inv.header_read hl
  simp only [realloc, bmkMemrealloc, if_neg hrv, if_neg hpos, if_pos hleft]

/-- Where there is no memory for a larger block, nothing is lost. -/
theorem realloc_fails (inv : HeapInv L h live) (hgranted : L.runs.map (·.grant) = granted) (hl : l ∈ live)
    (hpos : nbytes ≠ 0) (hfit : nbytes.toNat + 8 < 2 ^ 32) (hleft : ¬ bytesLeft h l.rv ≥ nbytes)
    {out : UInt32 × Heap × List PageGrant}
    (hout : RumpBaremetal.bmkMemalloc (answering answer) h granted nbytes 8 = out)
    (hgood : GrantsGood out.2.2) (hnull : out.1 = 0) :
    realloc (answering answer) h granted l.rv nbytes = some (0, out.2) ∧
      ∃ L', HeapInv L' out.2.1 live ∧ L'.runs.map (·.grant) = out.2.2 := by
  obtain ⟨hrv, -, -⟩ := inv.header_read hl
  constructor
  · simp only [realloc, bmkMemrealloc, if_neg hrv, if_neg hpos, if_neg hleft, hout, if_pos hnull]
  · subst hout
    have hsum : nbytes.toNat + (headerRoom (effectiveAlign 8)).toNat < 2 ^ 32 := hfit
    obtain ⟨L', hgranted', inv'⟩ := inv.bmkMemalloc hgranted hsum hgood
    rw [recorded, if_pos hnull] at inv'
    exact ⟨L', inv', hgranted'⟩

/-- A move: the new allocation `r`, what it holds, and the other allocations. -/
theorem realloc_moves (inv : HeapInv L h live) (hgranted : L.runs.map (·.grant) = granted) (hl : l ∈ live)
    (hmod : l.rv.toNat % 8 = 0) (hpos : nbytes ≠ 0) (hfit : nbytes.toNat + 8 < 2 ^ 32)
    (hleft : ¬ bytesLeft h l.rv ≥ nbytes) {out : UInt32 × Heap × List PageGrant}
    (hout : RumpBaremetal.bmkMemalloc (answering answer) h granted nbytes 8 = out)
    (hgood : GrantsGood out.2.2) (hnew : out.1 ≠ 0) :
    ∃ L' h' r, realloc (answering answer) h granted l.rv nbytes = some (out.1, h', out.2.2) ∧
      r.rv = out.1 ∧ r.nbytes = nbytes ∧ r.align = 8 ∧ out.1 ≠ l.rv ∧ out.1.toNat % 8 = 0 ∧
      HeapInv L' h' (r :: live.eraseP fun l' => l'.rv = l.rv) ∧ L'.runs.map (·.grant) = out.2.2 ∧
      (∀ i < nbytes.toNat, h'.mem (out.1.toNat + i) =
        if i + 8 < l.room then h.mem (l.rv.toNat + i) else out.2.1.mem (out.1.toNat + i)) ∧
      ∀ l' ∈ live, l' ≠ l → ∀ i < l'.room, h'.mem (l'.rv.toNat + i) = h.mem (l'.rv.toNat + i) := by
  obtain ⟨hrv, -, -⟩ := inv.header_read hl
  have hsum : nbytes.toNat + (headerRoom (effectiveAlign 8)).toNat < 2 ^ 32 := hfit
  obtain ⟨L₁, r, hr, hbytes, halign, hgranted₁, inv₁⟩ := inv.alloc_new hgranted hsum hout hgood hnew
  obtain ⟨-, hptr, -⟩ := inv.alloc_frame hgranted hsum hout hgood
  -- the two sizes in bytes
  have hlarge := inv.in_place_iff hl hmod hfit
  have hcount := inv.bytesLeft_toNat hl
  have hmod8 := inv.room_mod hl hmod
  obtain ⟨-, -, hroom⟩ := inv.room_facts hl
  obtain ⟨-, -, -, hbelow⟩ := Layout.block_facts (inv.live_block hl)
  obtain ⟨hsome, hmore⟩ := not_or.mp (mt hlarge.mpr hleft)
  obtain ⟨hless, -⟩ := not_or.mp hmore
  have hleftNat : (bytesLeft h l.rv).toNat = l.room - 8 := by omega
  have hsource : (bytesLeft h l.rv).toNat ≤ l.room := by omega
  have htarget : (bytesLeft h l.rv).toNat ≤ r.nbytes.toNat := by
    rw [hbytes]
    omega
  -- the new allocation is not the old one, and does not take its pointer
  have hnot : r ∉ live := (List.nodup_cons.mp inv₁.live_nodup).1
  have hne : r ≠ l := fun heq => hnot (heq ▸ hl)
  have hdiff : r.rv ≠ l.rv :=
    fun heq => hne (inv₁.live_rv_inj List.mem_cons_self (List.mem_cons_of_mem _ hl) heq)
  obtain ⟨L', h', inv', hruns, hfree, hcopied, hothers⟩ :=
    inv₁.move (List.mem_cons_of_mem _ hl) List.mem_cons_self hne
    hsource htarget
  rw [List.eraseP_cons_of_neg (by simpa using hdiff)] at inv'
  obtain ⟨-, hpayload, -⟩ := inv₁.room_facts List.mem_cons_self
  rw [hbytes] at hpayload
  have hspared := fun l' hl' i hi => inv.alloc_spares hgranted hsum hout hgood (l := l') hl' (i := i) hi
  refine ⟨L', h', r, ?_, hr, hbytes, halign, hr ▸ hdiff, (hptr hnew).2, inv', hruns ▸ hgranted₁,
    fun i hi => ?_,
    fun l' hl' hother i hi => ?_⟩
  · rw [hr] at hfree
    simp only [realloc, bmkMemrealloc, if_neg hrv, if_neg hpos, if_neg hleft, hout, if_neg hnew, hfree,
      Option.map_some]
  · rw [← hr, hcopied i (by omega), hleftNat]
    by_cases hkept : i + 8 < l.room
    · rw [if_pos (by omega), if_pos hkept]
      exact hspared l hl i (by omega)
    · rw [if_neg (by omega), if_neg hkept]
  · rw [hothers l' (List.mem_cons_of_mem _ hl') hother (fun heq => hnot (heq ▸ hl')) i hi]
    exact hspared l' hl' i hi

/-! ### The records of live allocations -/

theorem resized_facts (l : Live) (nbytes : UInt32) :
    (l.resized nbytes).rv = l.rv ∧ (l.resized nbytes).op = l.op ∧ (l.resized nbytes).bucket = l.bucket := by
  unfold Live.resized
  split <;> exact ⟨rfl, rfl, rfl⟩

theorem resized_good {mem : ByteMem} {l : Live} (h : LiveGood mem l) (nbytes : UInt32) :
    LiveGood mem (l.resized nbytes) := by
  have hheader := h.header
  have hpayload := h.payload
  unfold Live.resized Live.room
  split
  · exact ⟨h.magicByte, h.indexByte, h.padWord, h.header, by dsimp only; omega, h.aligned⟩
  · exact h

/-- The records after a change of size in place. -/
theorem resize (inv : HeapInv L h live) (cp nbytes : UInt32) :
    HeapInv L h (live.map fun l => if l.rv = cp then l.resized nbytes else l) := by
  refine ⟨inv.ready, inv.separate, inv.lists, fun i => ?_, fun l hl => ?_⟩
  · have hsame : liveBlocks (live.map fun l => if l.rv = cp then l.resized nbytes else l) i =
        liveBlocks live i := by
      unfold liveBlocks
      rw [List.filter_map, List.map_map]
      have hfilter :
        ((fun l : Live => decide (l.bucket = i)) ∘ fun l => if l.rv = cp then l.resized nbytes else l) =
          fun l => decide (l.bucket = i) := by
        funext l
        simp only [Function.comp_apply]
        split
        · rw [(resized_facts l nbytes).2.2]
        · rfl
      rw [hfilter]
      refine List.map_congr_left fun l _ => ?_
      simp only [Function.comp_apply]
      split
      · rw [(resized_facts l nbytes).2.1]
      · rfl
    rw [hsame]
    exact inv.accounted i
  · obtain ⟨l', hl', rfl⟩ := List.mem_map.mp hl
    split
    · exact resized_good (inv.good l' hl') nbytes
    · exact inv.good l' hl'

end HeapInv

/-! ### Requests of any size -/

/-- Rounding leads to the next multiple behind the header; where it wraps, what is left is below the
    alignment and is masked to nothing. -/
theorem takeBlock_rounds (h : Heap) (cls : Nat) {op align : UInt32} {k : Nat}
    (halign : align.toNat = 2 ^ k) (hend : op.toNat + 8 < 2 ^ 32) :
    (takeBlock h cls op align).1 = 0 ∨
    (takeBlock h cls op align).1.toNat = roundUp (op.toNat + 8) (2 ^ k) := by
  have hsum := add_overhead_toNat hend
  have hlow := UInt32.toNat_pred halign
  have hlt := align.toNat_lt
  rw [halign] at hlt
  by_cases hwrap : op.toNat + 8 + 2 ^ k ≤ 2 ^ 32
  · right
    rw [← hsum]
    exact UInt32.toNat_round halign (by rw [hsum]; exact hwrap)
  · left
    apply UInt32.toNat_inj.mp
    have hmask : (takeBlock h cls op align).1.toNat =
        (op + sizeofOverhead + (align - 1)).toNat / 2 ^ k * 2 ^ k := UInt32.toNat_mask halign _
    rw [hmask, UInt32.toNat_add, hsum, hlow, Nat.div_eq_of_lt (by omega), Nat.zero_mul]
    rfl

/-- No alignment takes more than `2^31` bytes for the header. -/
theorem headerRoom_le {align : UInt32} (htest : align &&& (align - 1) = 0) :
    (headerRoom (effectiveAlign align)).toNat ≤ 2 ^ 31 := by
  obtain ⟨k, -, hk, halign, -⟩ := effectiveAlign_pow htest
  rw [headerRoom_toNat halign]
  refine roundUp_le_of_dvd (Nat.two_pow_pos k) (pow_dvd_pow 2 (by omega)) (by decide)

/-- How a call that returns a pointer, for a request of any size, has come to it: the heap before the last
    part of the call, the class and the alignment. -/
structure BlockTaken (L : Layout) (h : Heap) (live : List Live) (align : UInt32)
    (out : UInt32 × Heap × List PageGrant) (cls k : Nat) : Prop where
  inv : HeapInv L h live
  granted : L.runs.map (·.grant) = out.2.2
  cls_le : cls ≤ 26
  test : align &&& (align - 1) = 0
  two_le : 2 ≤ k
  lt : k < 32
  align_eq : (effectiveAlign align).toNat = 2 ^ k
  head : h.nextf cls ≠ 0
  taken : takeBlock h cls (h.nextf cls) (effectiveAlign align) = (out.1, out.2.1)
  pointer : out.1.toNat = roundUp ((h.nextf cls).toNat + 8) (2 ^ k)

theorem HeapInv.blockTaken {L : Layout} {h : Heap} {live : List Live} (inv : HeapInv L h live)
    {granted : List PageGrant} (hgranted : L.runs.map (·.grant) = granted) {nbytes align answer : UInt32}
    {out : UInt32 × Heap × List PageGrant}
    (hout : RumpBaremetal.bmkMemalloc (answering answer) h granted nbytes align = out)
    (hgood : GrantsGood out.2.2) (hne : out.1 ≠ 0) :
    ∃ L' h' cls k, BlockTaken L' h' live align out cls k := by
  subst hout
  obtain ⟨inv', hsz, hbucket⟩ := inv.initPagesz
  rw [bmkMemalloc_eq] at hgood hne ⊢
  cases hclass : classOf (RumpBaremetal.initPagesz h) nbytes align with
  | none =>
      rw [hclass] at hne
      exact absurd rfl hne
  | some cls =>
      obtain ⟨hcls, htest, -⟩ := classOf_fits hsz hbucket hclass
      obtain ⟨k, htwo, hlt, halign, -⟩ := effectiveAlign_pow htest
      simp only [hclass] at hgood hne ⊢
      rw [serve_pages] at hgood
      obtain ⟨L', inv'', hgranted'⟩ := inv'.refill hgranted hsz hbucket hcls hgood
      rcases hpair : RumpBaremetal.refill (answering answer) (RumpBaremetal.initPagesz h) granted cls
        with ⟨h', granted'⟩
      rw [hpair] at inv'' hgranted'
      dsimp only at inv'' hgranted'
      simp only [RumpBaremetal.serve, hpair] at hne ⊢
      by_cases hop : h'.nextf cls = 0
      · rw [if_pos hop] at hne
        exact absurd rfl hne
      · rw [if_neg hop] at hne
        simp only [if_neg hop]
        obtain ⟨hblock, -⟩ := inv''.head_block hop
        obtain ⟨-, -, -, hend⟩ := Layout.block_facts hblock
        have hpos := Nat.two_pow_pos (cls + 5)
        exact ⟨L', h', cls, k, inv'', hgranted', hcls, htest, htwo, hlt, halign, hop, rfl,
          (takeBlock_rounds h' cls halign (by omega)).resolve_left hne⟩

namespace BlockTaken

variable {L : Layout} {h : Heap} {live : List Live} {align : UInt32} {out : UInt32 × Heap × List PageGrant}
  {cls k : Nat}

theorem low (hs : BlockTaken L h live align out cls k) : (h.nextf cls).toNat + 8 ≤ out.1.toNat := by
  rw [hs.pointer]
  exact le_roundUp (Nat.two_pow_pos k) _

theorem rv_mod (hs : BlockTaken L h live align out cls k) : out.1.toNat % 8 = 0 := by
  obtain ⟨hblock, -⟩ := hs.inv.head_block hs.head
  obtain ⟨-, -, hbase, -⟩ := Layout.block_facts hblock
  rw [hs.pointer]
  exact Nat.mod_eq_zero_of_dvd (pointer_dvd ((pow_dvd_pow 2 (Nat.le_add_left 5 _)).trans hbase) hs.two_le)

/-- The header that was written names the block and the class. -/
theorem ofHeader_eq (hs : BlockTaken L h live align out cls k) (nbytes align' : UInt32) :
    Live.ofHeader out.2.1.mem out.1 nbytes align' = ⟨out.1, nbytes, align', h.nextf cls, cls⟩ := by
  obtain ⟨hread, hindex⟩ := HeapInv.takeBlock_header h hs.cls_le (h.nextf cls) (effectiveAlign align)
  rw [hs.taken] at hread hindex
  simp only [Live.ofHeader, hread, hindex]

/-- With the pointer at the end of the block at the latest, the heap is in order. -/
theorem live_inv (hs : BlockTaken L h live align out cls k)
    (hinside : out.1.toNat ≤ (h.nextf cls).toNat + 2 ^ (cls + 5)) :
    ∃ L', L'.runs.map (·.grant) = out.2.2 ∧
      HeapInv L' out.2.1 (⟨out.1, 0, 0, h.nextf cls, cls⟩ :: live) := by
  have hrv : (takeBlock h cls (h.nextf cls) (effectiveAlign align)).1 = out.1 := by rw [hs.taken]
  have hnone : out.1.toNat + (0 : UInt32).toNat ≤ (h.nextf cls).toNat + 2 ^ (cls + 5) := hinside
  obtain ⟨free', htaken⟩ := hs.inv.take_inside hs.head hrv hs.low hnone fun hne : (0 : UInt32) ≠ 0 =>
    absurd rfl hne
  rw [hs.taken] at htaken
  exact ⟨{ L with free := free' }, hs.granted, htaken⟩

/-- Behind the end of its block, a pointer has the count of the bytes left wrap to half of the address space
    and more. -/
theorem bytesLeft_behind (hs : BlockTaken L h live align out cls k)
    (hbehind : (h.nextf cls).toNat + 2 ^ (cls + 5) < out.1.toNat) :
    2 ^ 31 < (bytesLeft out.2.1 out.1).toNat := by
  have hmem : out.2.1.mem = writeHeader h.mem (out.1 - sizeofOverhead).toNat cls (out.1 - h.nextf cls) := by
    have hrv := congrArg Prod.fst hs.taken
    have hheap := congrArg (fun p => p.2.mem) hs.taken
    simp only [takeBlock] at hrv hheap
    rw [← hheap, hrv]
  have hlow := hs.low
  have hlt := roundUp_lt (Nat.two_pow_pos k) ((h.nextf cls).toNat + 8)
  rw [← hs.pointer] at hlt
  have hpow : 2 ^ k ≤ 2 ^ 31 := Nat.pow_le_pow_right (by decide) (by have := hs.lt; omega)
  have hsmall := smallest_block cls
  have hlarge := largest_block hs.cls_le
  have hsize : ((1 : UInt32) <<< UInt32.ofNat (cls + minShift)).toNat = 2 ^ (cls + 5) :=
    one_shiftLeft_toNat (by have := hs.cls_le; simp only [minShift]; omega)
  have hpad : (out.1 - h.nextf cls).toNat = out.1.toNat - (h.nextf cls).toNat :=
    UInt32.toNat_sub_of_le _ _ (UInt32.le_iff_toNat_le.mpr (by omega))
  have htaken : (out.1 - h.nextf cls + sizeofOverhead).toNat = out.1.toNat - (h.nextf cls).toNat + 8 := by
    rw [UInt32.toNat_add, hpad, show sizeofOverhead.toNat = 8 from rfl, Nat.mod_eq_of_lt (by omega)]
  simp only [bytesLeft, hmem, writeHeader_index, writeHeader_pad, index_toNat hs.cls_le]
  rw [UInt32.toNat_sub, hsize, htaken]
  omega

end BlockTaken

/-! ### Runs -/

namespace LiveAligned

variable {w w' : HeapWorld}

theorem boot (mem : ByteMem) : LiveAligned (HeapWorld.boot mem) :=
  ⟨HeapInv.boot mem, fun _ hl => absurd hl List.not_mem_nil⟩

/-- `realloc` of no pointer is an allocation. -/
theorem realloc_null (hw : LiveAligned w) (nbytes answer : UInt32) :
    libcEffect w (.realloc 0 nbytes answer) = heapEffect w (.alloc nbytes 8 answer) := by
  obtain ⟨⟨L, inv, -, -⟩, -⟩ := hw
  have hnone : w.live.eraseP (fun l => l.rv = 0) = w.live :=
    List.eraseP_of_forall_not fun l hl => by simpa using (inv.header_read hl).1
  simp only [libcEffect, heapEffect, realloc, bmkMemrealloc, if_true, reallocLive, hnone, Live.ofHeader]
  by_cases hnull : (bmkMemalloc (answering answer) w.heap w.granted nbytes 8).1 = 0
  · simp only [if_pos hnull, ite_self]
  · simp only [if_neg hnull]

/-- `realloc` to nothing is a release. -/
theorem realloc_zero {cp : UInt32} (hcp : cp ≠ 0) (answer : UInt32) :
    libcEffect w (.realloc cp 0 answer) = heapEffect w (.free cp) := by
  simp only [libcEffect, heapEffect, realloc, bmkMemrealloc, if_neg hcp, if_true]
  cases bmkMemfree w.heap cp with
  | none => rfl
  | some heap => rfl

end LiveAligned

/-- What becomes of the live allocation `l` when `realloc` returns `np`.  `fresh` is memory as the
    allocation in it leaves it. -/
inductive Reallocated (w : HeapWorld) (l : Live) (nbytes : UInt32) (fresh : ByteMem) :
    UInt32 → HeapWorld → Prop
  /-- There are eight bytes more than asked for, or none. -/
  | stays (room : l.room = 0 ∨ nbytes.toNat + 8 ≤ l.room) :
      Reallocated w l nbytes fresh l.rv
        { w with live := w.live.map fun l' => if l'.rv = l.rv then l'.resized nbytes else l' }
  | fails {heap : Heap} {granted : List PageGrant}
      (same : ∀ l' ∈ w.live, ∀ i < l'.room, heap.mem (l'.rv.toNat + i) = w.heap.mem (l'.rv.toNat + i)) :
      Reallocated w l nbytes fresh 0 { w with heap := heap, granted := granted }
  /-- All but the last eight bytes of the old block are copied. -/
  | moves {heap : Heap} {granted : List PageGrant} {r : Live} (size : r.nbytes = nbytes)
      (nonNull : r.rv ≠ 0)
      (other : r.rv ≠ l.rv) (room : 0 < l.room)
      (copied : ∀ i < nbytes.toNat, heap.mem (r.rv.toNat + i) =
        if i + 8 < l.room then w.heap.mem (l.rv.toNat + i) else fresh (r.rv.toNat + i))
      (same : ∀ l' ∈ w.live, l' ≠ l →
        ∀ i < l'.room, heap.mem (l'.rv.toNat + i) = w.heap.mem (l'.rv.toNat + i)) :
      Reallocated w l nbytes fresh r.rv
        { w with heap := heap, granted := granted, live := r :: w.live.eraseP fun l' => l'.rv = l.rv }

namespace LiveAligned

variable {w w' : HeapWorld}

/-- The three ways in which `realloc` treats a live allocation; each keeps the invariant. -/
theorem realloc_live (hw : LiveAligned w) {l : Live} (hl : l ∈ w.live) {nbytes answer : UInt32}
    (hpos : nbytes ≠ 0) (hfit : nbytes.toNat + 8 < 2 ^ 32)
    (hgood : bytesLeft w.heap l.rv < nbytes →
      GrantsGood (bmkMemalloc (answering answer) w.heap w.granted nbytes 8).2.2) :
    ∃ np, realloc (answering answer) w.heap w.granted l.rv nbytes =
        some (np, (libcEffect w (.realloc l.rv nbytes answer)).heap,
          (libcEffect w (.realloc l.rv nbytes answer)).granted) ∧
      Reallocated w l nbytes (bmkMemalloc (answering answer) w.heap w.granted nbytes 8).2.1.mem np
        (libcEffect w (.realloc l.rv nbytes answer)) ∧
      LiveAligned (libcEffect w (.realloc l.rv nbytes answer)) := by
  obtain ⟨⟨L, inv, hgranted, hsound⟩, haligned⟩ := hw
  obtain ⟨hrv, -, -⟩ := inv.header_read hl
  by_cases hleft : bytesLeft w.heap l.rv ≥ nbytes
  · have hcall : realloc (answering answer) w.heap w.granted l.rv nbytes = some (l.rv, w.heap, w.granted) :=
      inv.realloc_stays hl hpos hleft
    have hroom := (inv.in_place_iff hl (haligned l hl) hfit).mp hleft
    simp only [libcEffect, hcall, reallocLive, if_neg hrv, if_true]
    refine ⟨l.rv, rfl, .stays (hroom.imp_right fun h => h.resolve_right hpos),
      ⟨L, inv.resize l.rv nbytes, hgranted, hsound⟩, fun l' hl' => ?_⟩
    obtain ⟨l₁, hl₁, rfl⟩ := List.mem_map.mp hl'
    split
    · rw [(HeapInv.resized_facts l₁ nbytes).1]
      exact haligned l₁ hl₁
    · exact haligned l₁ hl₁
  · have hgood := hgood (UInt32.not_le.mp hleft)
    generalize hout : bmkMemalloc (answering answer) w.heap w.granted nbytes 8 = out at hgood
    by_cases hnull : out.1 = 0
    · obtain ⟨hcall, L', inv', hgranted'⟩ := inv.realloc_fails hgranted hl hpos hfit hleft hout hgood hnull
      have hsum : nbytes.toNat + (headerRoom (effectiveAlign 8)).toNat < 2 ^ 32 := hfit
      simp only [libcEffect, hcall, reallocLive, if_true, if_neg hpos]
      exact ⟨0, rfl, .fails fun l' hl' i hi => inv.alloc_spares hgranted hsum hout hgood hl' hi,
        ⟨L', inv', hgranted', hsound⟩, haligned⟩
    · obtain ⟨L', h', r, hcall, hr, hsize, halign, hother, hmod, inv', hgranted', hcopied, hsame⟩ :=
        inv.realloc_moves hgranted hl (haligned l hl) hpos hfit hleft hout hgood hnull
      -- the header of the new allocation is intact, so the record read from it is `r`
      have hrecord := inv'.ofHeader_eq List.mem_cons_self
      have hroom : 0 < l.room := by
        refine Nat.pos_of_ne_zero fun hzero => hleft ?_
        exact (inv.in_place_iff hl (haligned l hl) hfit).mpr (.inl hzero)
      rw [← hr] at hcall hnull hother hmod hcopied
      rw [hsize, halign] at hrecord
      simp only [libcEffect, hcall, reallocLive, if_neg hnull, if_neg hother, hrecord]
      refine ⟨r.rv, rfl, .moves hsize hnull hother hroom hcopied hsame, ⟨L', inv', hgranted', hsound⟩, ?_⟩
      exact List.forall_mem_cons.mpr ⟨hmod, fun l' hl' => haligned l' (List.mem_of_mem_eraseP hl')⟩

/-- `calloc` allocates the exact product and clears it. -/
theorem calloc_step (hw : LiveAligned w) {n size answer : UInt32} (hfit : n.toNat * size.toNat + 8 < 2 ^ 32)
    (hgood : GrantsGood (calloc (answering answer) w.heap w.granted n size).2.2) :
    LiveAligned (libcEffect w (.calloc n size answer)) := by
  obtain ⟨⟨L, inv, hgranted, hsound⟩, haligned⟩ := hw
  have hsum : (n * size).toNat + (headerRoom (effectiveAlign 8)).toNat < 2 ^ 32 := by
    rw [UInt32.toNat_mul, Nat.mod_eq_of_lt (by omega)]
    exact hfit
  generalize hout : bmkMemalloc (answering answer) w.heap w.granted (n * size) 8 = out
  simp only [libcEffect, calloc, malloc, hout] at hgood ⊢
  by_cases hnull : out.1 = 0
  · simp only [ne_eq, hnull, not_true_eq_false, if_false, if_true] at hgood ⊢
    subst hout
    obtain ⟨L', hgranted', inv'⟩ := inv.bmkMemalloc hgranted hsum hgood
    rw [HeapInv.recorded, if_pos hnull] at inv'
    exact ⟨⟨L', inv', hgranted', hsound⟩, haligned⟩
  · simp only [ne_eq, hnull, not_false_eq_true, if_true, if_false] at hgood ⊢
    obtain ⟨L', r, hrv, hsize, halign, hgranted', inv'⟩ := inv.alloc_new hgranted hsum hout hgood hnull
    obtain ⟨-, hptr, -⟩ := inv.alloc_frame hgranted hsum hout hgood
    have inv'' := inv'.patch_live List.mem_cons_self le_rfl fun _ => UInt8.ofInt 0
    have hrecord := inv''.ofHeader_eq List.mem_cons_self
    rw [hsize, halign, hrv] at hrecord
    rw [hsize, hrv] at inv''
    have hclear : bmkMemset out.2.1.mem out.1 0 (n * size) =
        patch out.2.1.mem out.1 (n * size).toNat fun _ => UInt8.ofInt 0 :=
          fillLoop_eq _ _ _ (n * size).toNat_lt.le
    rw [hclear, hrecord]
    refine ⟨⟨L', inv'', hgranted', hsound⟩, List.forall_mem_cons.mpr ⟨?_, haligned⟩⟩
    rw [hrv]
    exact (hptr hnull).2

/-- A request that wraps and has its header in the block is served like one for what the block has behind
    it. -/
theorem wraps_effect (hw : LiveAligned w) {nbytes align : UInt32} (answer : UInt32)
    (hwraps : 2 ^ 32 ≤ nbytes.toNat + (headerRoom (effectiveAlign align)).toNat)
    (hheader : HeaderFits (initPagesz w.heap) nbytes align) :
    ∃ fitting : UInt32, fitting.toNat + (headerRoom (effectiveAlign align)).toNat < 2 ^ 32 ∧
      bmkMemalloc (answering answer) w.heap w.granted nbytes align =
        bmkMemalloc (answering answer) w.heap w.granted fitting align ∧
      libcEffect w (.wraps nbytes align answer) = heapEffect w (.alloc fitting align answer) := by
  obtain ⟨⟨L, inv, -, -⟩, -⟩ := hw
  obtain ⟨-, hsz, hbucket⟩ := inv.initPagesz
  have hsame : ∃ fitting, fitting = bytesBehindHeader (initPagesz w.heap) nbytes align ∧
      fitting.toNat + (headerRoom (effectiveAlign align)).toNat < 2 ^ 32 ∧
      classOf (initPagesz w.heap) nbytes align = classOf (initPagesz w.heap) fitting align := by
    refine ⟨_, rfl, ?_⟩
    unfold bytesBehindHeader
    cases hclass : classOf (initPagesz w.heap) nbytes align with
    | none =>
        -- only a wrong alignment is refused: what is left of the sum is less than the header
        have htest : ¬ align &&& (align - 1) = 0 := by
          intro htest
          have hroom := headerRoom_le htest
          have hlt := nbytes.toNat_lt
          have hsum : (nbytes + headerRoom (effectiveAlign align)).toNat ≤ 2 ^ 31 := by
            rw [UInt32.toNat_add]
            omega
          rw [classOf_eq hsz hbucket, if_pos ⟨htest, hsum⟩] at hclass
          cases hclass
        refine ⟨?_, (if_pos htest).symm⟩
        have hlt := (headerRoom (effectiveAlign align)).toNat_lt
        simpa using hlt
    | some cls =>
        obtain ⟨hcls, htest, -⟩ := classOf_fits hsz hbucket hclass
        have hlarge := largest_block hcls
        have hfits : (headerRoom (effectiveAlign align)).toNat ≤ 2 ^ (cls + 5) := hheader cls hclass
        have hbytes : (UInt32.ofNat (2 ^ (cls + 5) - (headerRoom (effectiveAlign align)).toNat)).toNat =
            2 ^ (cls + 5) - (headerRoom (effectiveAlign align)).toNat :=
          UInt32.toNat_ofNat_of_lt' (show _ < 2 ^ 32 by omega)
        have hsum : (UInt32.ofNat (2 ^ (cls + 5) - (headerRoom (effectiveAlign align)).toNat) +
            headerRoom (effectiveAlign align)).toNat = 2 ^ (cls + 5) := by
          rw [UInt32.toNat_add, hbytes, Nat.mod_eq_of_lt (by omega)]
          omega
        have hleast : leastClass (2 ^ (cls + 5)) = cls := by
          rw [leastClass, Nat.clog_pow 2 _ (by decide), Nat.add_sub_cancel]
        refine ⟨by rw [hbytes]; omega, ?_⟩
        rw [classOf_eq hsz hbucket, hsum, if_pos ⟨htest, hlarge⟩, hleast]
  obtain ⟨fitting, hfitting, hfit, hclass⟩ := hsame
  have hcall : bmkMemalloc (answering answer) w.heap w.granted nbytes align =
      bmkMemalloc (answering answer) w.heap w.granted fitting align := by
    rw [bmkMemalloc_eq, bmkMemalloc_eq, hclass]
  refine ⟨fitting, hfit, hcall, ?_⟩
  simp only [libcEffect, heapEffect, hcall, ← hfitting, Live.ofHeader]

/-- Every call keeps the heap in order. -/
theorem libc_step (hw : LiveAligned w) {e : LibcEvent} (hstep : libcStep w e = some w') :
    LiveAligned w' := by
  obtain ⟨henabled, rfl⟩ := libcStep_inv hstep
  cases e with
  | heap e => exact liveAligned_step hw (if_pos henabled)
  | wraps nbytes align answer =>
      obtain ⟨hwraps, hheader, hgood⟩ := henabled
      obtain ⟨fitting, hfit, hcall, heffect⟩ := hw.wraps_effect answer hwraps hheader
      rw [heffect]
      exact liveAligned_step hw (if_pos ⟨hfit, hcall ▸ hgood⟩)
  | calloc n size answer => exact hw.calloc_step henabled.1 henabled.2
  | realloc cp nbytes answer =>
      obtain ⟨hcp, hfit, hgood⟩ := henabled
      by_cases hnull : cp = 0
      · subst hnull
        rw [hw.realloc_null]
        exact liveAligned_step hw (if_pos ⟨hfit, hgood (.inl rfl)⟩)
      · obtain ⟨l, hl, rfl⟩ := hcp.resolve_left hnull
        by_cases hzero : nbytes = 0
        · subst hzero
          rw [realloc_zero hnull]
          exact liveAligned_step hw (if_pos ⟨l, hl, rfl⟩)
        · obtain ⟨-, -, -, haligned⟩ := hw.realloc_live hl hzero hfit fun hleft => hgood (.inr hleft)
          exact haligned

theorem of_run {mem : ByteMem} {events : List LibcEvent}
    (hrun : run libcStep (HeapWorld.boot mem) events = some w) :
    LiveAligned w :=
  run_invariant (fun _ _ _ hw hstep => hw.libc_step hstep) (boot mem) hrun

end LiveAligned

/-! ### What `realloc` keeps -/

/-- What `realloc(l.rv, nbytes)` keeps when it returns `np`.  Of a block that it leaves, it copies all but
    the last eight bytes; those of the new one are what the fresh block held. -/
structure ReallocKeeps (w w' : HeapWorld) (l : Live) (nbytes np : UInt32) (fresh : ByteMem) : Prop where
  kept : np ≠ 0 → ∀ i < min l.nbytes.toNat nbytes.toNat, i + 8 < l.room →
    w'.heap.mem (np.toNat + i) = w.heap.mem (l.rv.toNat + i)
  lost : np ≠ 0 → np ≠ l.rv → ∀ i < nbytes.toNat, l.room ≤ i + 8 →
    w'.heap.mem (np.toNat + i) = fresh (np.toNat + i)
  others : ∀ l' ∈ w.live, l' ≠ l →
    l' ∈ w'.live ∧ ∀ i < l'.nbytes.toNat, w'.heap.mem (l'.rv.toNat + i) = w.heap.mem (l'.rv.toNat + i)
  null : np = 0 → w'.live = w.live ∧
    ∀ i < l.nbytes.toNat, w'.heap.mem (l.rv.toNat + i) = w.heap.mem (l.rv.toNat + i)

/-- On every heap that clients of libc can reach, `realloc` of a live pointer to a size that fits with its
    header returns.  The other allocations keep their contents, a failure changes nothing, and of the bytes
    asked for those are kept that lie more than eight bytes before the end of the old block. -/
theorem memrealloc_keeps_data {mem : ByteMem} {events : List LibcEvent} {w : HeapWorld}
    (hrun : run libcStep (HeapWorld.boot mem) events = some w) {l : Live} (hl : l ∈ w.live)
    {nbytes answer : UInt32} (hpos : 0 < nbytes) (hfit : nbytes.toNat + 8 < 2 ^ 32)
    (hgood : bytesLeft w.heap l.rv < nbytes →
      GrantsGood (bmkMemalloc (answering answer) w.heap w.granted nbytes 8).2.2) :
    ∃ np w', libcStep w (.realloc l.rv nbytes answer) = some w' ∧
      realloc (answering answer) w.heap w.granted l.rv nbytes = some (np, w'.heap, w'.granted) ∧
      ReallocKeeps w w' l nbytes np (bmkMemalloc (answering answer) w.heap w.granted nbytes 8).2.1.mem := by
  have hw := LiveAligned.of_run hrun
  have hpos' : nbytes ≠ 0 := (UInt32.ne_of_lt hpos).symm
  obtain ⟨np, hcall, houtcome, -⟩ := hw.realloc_live hl hpos' hfit hgood
  obtain ⟨⟨L, inv, -, -⟩, -⟩ := hw
  obtain ⟨hrv, -, -⟩ := inv.header_read hl
  have henabled : libcEnabled w (.realloc l.rv nbytes answer) :=
    ⟨.inr ⟨l, hl, rfl⟩, hfit, fun hask => hgood (hask.resolve_left hrv)⟩
  refine ⟨np, _, if_pos henabled, hcall, ?_⟩
  generalize libcEffect w (.realloc l.rv nbytes answer) = w' at houtcome
  have hpayload : ∀ l' ∈ w.live, l'.nbytes.toNat ≤ l'.room := fun l' hl' => (inv.room_facts hl').2.1
  cases houtcome with
  | stays room =>
      refine ⟨fun _ i _ _ => rfl, fun _ hne => absurd rfl hne, fun l' hl' hne => ⟨?_, fun i _ => rfl⟩,
        fun hzero => absurd hzero hrv⟩
      have hother : l'.rv ≠ l.rv := fun heq => hne (inv.live_rv_inj hl' hl heq)
      exact List.mem_map.mpr ⟨l', hl', if_neg hother⟩
  | fails same =>
      refine ⟨fun hne => absurd rfl hne, fun hne => absurd rfl hne, fun l' hl' _ => ⟨hl', fun i hi => ?_⟩,
        fun _ => ⟨rfl, fun i hi => ?_⟩⟩
      · exact same l' hl' i (hi.trans_le (hpayload l' hl'))
      · exact same l hl i (hi.trans_le (hpayload l hl))
  | moves size nonNull other room copied same =>
      refine ⟨fun _ i hi hroom => ?_, fun _ _ i hi hroom => ?_, fun l' hl' hne => ⟨?_, fun i hi => ?_⟩,
        fun hzero => absurd hzero nonNull⟩
      · rw [copied i (lt_min_iff.mp hi).2, if_pos hroom]
      · rw [copied i hi, if_neg (by omega)]
      · have hother : l'.rv ≠ l.rv := fun heq => hne (inv.live_rv_inj hl' hl heq)
        exact List.mem_cons_of_mem _ ((List.mem_eraseP_of_neg (by simpa using hother)).mpr hl')
      · exact same l' hl' hne i (hi.trans_le (hpayload l' hl'))

/-- A full 32-byte block moves to a 64-byte block, and its first 16 bytes are kept. -/
theorem memrealloc_keeps_data_sixteen :
    ∃ w l np w', run libcStep (HeapWorld.boot fun _ => 0)
        [.heap (.alloc 24 8 0x200000), .heap (.write 0x200017 7)] = some w ∧
      l ∈ w.live ∧ l.room = 24 ∧ w.heap.mem (l.rv.toNat + 15) = 7 ∧
      libcStep w (.realloc l.rv 40 0x201000) = some w' ∧
      realloc (answering 0x201000) w.heap w.granted l.rv 40 = some (np, w'.heap, w'.granted) ∧
      ReallocKeeps w w' l 40 np (bmkMemalloc (answering 0x201000) w.heap w.granted 40 8).2.1.mem := by
  have h : (run libcStep (HeapWorld.boot fun _ => 0)
      [.heap (.alloc 24 8 0x200000), .heap (.write 0x200017 7)]).map (fun w => (w.live, w.heap.mem 0x200017,
        decide (GrantsGood (bmkMemalloc (answering 0x201000) w.heap w.granted 40 8).2.2))) =
      some ([⟨0x200008, 24, 8, 0x200000, 0⟩], 7, true) := by
    decide +kernel
  obtain ⟨w, hrun, hends⟩ := Option.map_eq_some_iff.mp h
  obtain ⟨hlive, hrest⟩ := Prod.mk.inj hends
  obtain ⟨hbyte, hgood⟩ := Prod.mk.inj hrest
  have hl : (⟨0x200008, 24, 8, 0x200000, 0⟩ : Live) ∈ w.live := by rw [hlive]; exact List.mem_cons_self
  obtain ⟨np, w', hstep, hcall, hkeeps⟩ :=
    memrealloc_keeps_data hrun hl (show (0 : UInt32) < 40 by decide) (by decide) fun _ =>
      of_decide_eq_true hgood
  exact ⟨w, _, np, w', hrun, hl, by decide, hbyte, hstep, hcall, hkeeps⟩

/-- An allocation of 24 bytes, the last but three of which is written, is asked to keep its size.  It moves
    to the next block of 32 bytes, and the byte is not there. -/
theorem memrealloc_loses_bytes :
    ∃ w w', run libcStep (HeapWorld.boot fun _ => 0)
        [.heap (.alloc 24 8 0x200000), .heap (.write 0x20001c 7)] = some w ∧
      w.live = [⟨0x200008, 24, 8, 0x200000, 0⟩] ∧ w.heap.mem (0x200008 + 20) = 7 ∧
      libcStep w (.realloc 0x200008 24 0) = some w' ∧
      (realloc (answering 0) w.heap w.granted 0x200008 24).map (·.1) = some 0x200028 ∧
      w'.live = [⟨0x200028, 24, 8, 0x200020, 0⟩] ∧ w'.heap.mem (0x200028 + 20) = 0 := by
  have h : (run libcStep (HeapWorld.boot fun _ => 0)
      [.heap (.alloc 24 8 0x200000), .heap (.write 0x20001c 7)]).map
      (fun w => ((w.live, w.heap.mem (0x200008 + 20),
        (realloc (answering 0) w.heap w.granted 0x200008 24).map (·.1)),
        (libcStep w (.realloc 0x200008 24 0)).map fun w' => (w'.live, w'.heap.mem (0x200028 + 20)))) =
      some (([⟨0x200008, 24, 8, 0x200000, 0⟩], 7, some 0x200028),
        some ([⟨0x200028, 24, 8, 0x200020, 0⟩], 0)) := by
    decide +kernel
  obtain ⟨w, hrun, hends⟩ := Option.map_eq_some_iff.mp h
  obtain ⟨hbefore, hafter⟩ := Prod.mk.inj hends
  obtain ⟨hlive, hrest⟩ := Prod.mk.inj hbefore
  obtain ⟨hbyte, hcall⟩ := Prod.mk.inj hrest
  obtain ⟨w', hstep, hends'⟩ := Option.map_eq_some_iff.mp hafter
  obtain ⟨hlive', hbyte'⟩ := Prod.mk.inj hends'
  exact ⟨w, w', hrun, hlive, hbyte, hstep, hcall, hlive', hbyte'⟩

/-! ### What `realloc` returns -/

/-- A live allocation of a run; or the pointer that was returned last, for a request of any size at any
    power of two. -/
inductive Obtained : HeapWorld → Live → Prop
  | earlier {mem : ByteMem} {events : List LibcEvent} {w : HeapWorld} {l : Live}
      (run : run libcStep (HeapWorld.boot mem) events = some w) (live : l ∈ w.live) : Obtained w l
  | last {mem : ByteMem} {events : List LibcEvent} {w : HeapWorld} {old align answer : UInt32} {l : Live}
      (run : run libcStep (HeapWorld.boot mem) events = some w)
      (good : GrantsGood (bmkMemalloc (answering answer) w.heap w.granted old align).2.2)
      (nonNull : (bmkMemalloc (answering answer) w.heap w.granted old align).1 ≠ 0)
      (head : (heapEffect w (.alloc old align answer)).live = l :: w.live) :
      Obtained (heapEffect w (.alloc old align answer)) l

/-- The end of the block that the pointer was cut from. -/
def Live.blockEnd (l : Live) : Nat := l.op.toNat + 2 ^ (l.bucket + 5)

/-- `realloc(l.rv, nbytes)` returns.  A pointer other than `NULL` was cut from a block of the heap, `r`'s,
    and has the bytes asked for in it exactly if the old pointer is below the end of its own block. -/
def ReallocSized (h : Heap) (granted : List PageGrant) (l : Live) (nbytes answer : UInt32) : Prop :=
  ∃ np h' granted', realloc (answering answer) h granted l.rv nbytes = some (np, h', granted') ∧
    (np ≠ 0 → ∃ (L : Layout) (r : Live), r = Live.ofHeader h'.mem np nbytes 8 ∧
      L.runs.map (·.grant) = granted' ∧ r.op.toNat ∈ L.blocks r.bucket ∧
      (np = l.rv → r.op = l.op ∧ r.bucket = l.bucket) ∧
      (np.toNat + nbytes.toNat ≤ r.blockEnd ↔ l.rv.toNat < l.blockEnd))

namespace HeapInv

variable {L : Layout} {h : Heap} {live : List Live} {granted : List PageGrant} {l : Live}
  {nbytes answer : UInt32}

theorem reallocSized (inv : HeapInv L h live) (hgranted : L.runs.map (·.grant) = granted) (hl : l ∈ live)
    (hmod : l.rv.toNat % 8 = 0) (hpos : nbytes ≠ 0) (hfit : nbytes.toNat + 8 < 2 ^ 32)
    (hgood : bytesLeft h l.rv < nbytes →
      GrantsGood (RumpBaremetal.bmkMemalloc (answering answer) h granted nbytes 8).2.2) :
    ReallocSized h granted l nbytes answer := by
  obtain ⟨hend, hpayload, -⟩ := inv.room_facts hl
  have hbelow : l.rv.toNat < l.blockEnd ↔ 0 < l.room := by
    unfold Live.blockEnd
    omega
  by_cases hleft : bytesLeft h l.rv ≥ nbytes
  · have hasked : nbytes.toNat ≠ 0 := fun hzero => hpos (UInt32.toNat_inj.mp hzero)
    have hroom : l.room = 0 ∨ nbytes.toNat + 8 ≤ l.room :=
      ((inv.in_place_iff hl hmod hfit).mp hleft).imp_right fun h => h.resolve_right hpos
    obtain ⟨-, hover, hindex⟩ := inv.header_read hl
    refine ⟨l.rv, h, granted, inv.realloc_stays hl hpos hleft, fun _ => ⟨L, _, rfl, hgranted, ?_⟩⟩
    have hsame : Live.ofHeader h.mem l.rv nbytes 8 = ⟨l.rv, nbytes, 8, l.op, l.bucket⟩ := by
      simp only [Live.ofHeader, hover, hindex, (inv.good l hl).padWord, sub_alignpad]
    have hblock := inv.live_block hl
    rw [hsame, hbelow]
    refine ⟨hblock, fun _ => ⟨rfl, rfl⟩, ?_⟩
    change l.rv.toNat + nbytes.toNat ≤ l.op.toNat + 2 ^ (l.bucket + 5) ↔ 0 < l.room
    omega
  · have hgood := hgood (UInt32.not_le.mp hleft)
    generalize hout : RumpBaremetal.bmkMemalloc (answering answer) h granted nbytes 8 = out at hgood
    by_cases hnull : out.1 = 0
    · obtain ⟨hcall, -⟩ := inv.realloc_fails hgranted hl hpos hfit hleft hout hgood hnull
      exact ⟨0, out.2.1, out.2.2, hcall, fun hne => absurd rfl hne⟩
    · obtain ⟨L', h', r, hcall, hr, hsize, halign, hother, -, inv', hgranted', -, -⟩ :=
        inv.realloc_moves hgranted hl hmod hpos hfit hleft hout hgood hnull
      have hrecord := inv'.ofHeader_eq List.mem_cons_self
      rw [hr, hsize, halign] at hrecord
      have hroom : 0 < l.room :=
        Nat.pos_of_ne_zero fun hzero => hleft ((inv.in_place_iff hl hmod hfit).mpr (.inl hzero))
      have hfits := (inv'.good r List.mem_cons_self).payload
      rw [hr, hsize] at hfits
      exact ⟨out.1, h', out.2.2, hcall,
        fun _ => ⟨L', r, hrecord.symm, hgranted', inv'.live_block List.mem_cons_self,
          fun heq => absurd heq hother, fun _ => hbelow.mpr hroom, fun _ => hfits⟩⟩

end HeapInv

/-- A pointer behind the end of its block: it is returned as it is, or there is no block of the size asked
    for. -/
theorem BlockTaken.reallocSized {L : Layout} {h : Heap} {live : List Live} {align : UInt32}
    {out : UInt32 × Heap × List PageGrant} {cls k : Nat} (hs : BlockTaken L h live align out cls k)
    (hbehind : (h.nextf cls).toNat + 2 ^ (cls + 5) < out.1.toNat) {old nbytes answer : UInt32}
    (hpos : nbytes ≠ 0) (hfit : nbytes.toNat + 8 < 2 ^ 32) :
    ReallocSized out.2.1 out.2.2 ⟨out.1, old, align, h.nextf cls, cls⟩ nbytes answer := by
  have hrv : out.1 ≠ 0 := by
    intro hzero
    rw [hzero] at hbehind
    exact absurd hbehind (Nat.not_lt_zero _)
  have hmany := hs.bytesLeft_behind hbehind
  unfold ReallocSized
  by_cases hleft : bytesLeft out.2.1 out.1 ≥ nbytes
  · refine ⟨out.1, out.2.1, out.2.2, ?_, fun _ => ⟨L, _, rfl, hs.granted, ?_⟩⟩
    · simp only [realloc, bmkMemrealloc, if_neg hrv, if_neg hpos, if_pos hleft]
    · rw [hs.ofHeader_eq]
      obtain ⟨hblock, -⟩ := hs.inv.head_block hs.head
      refine ⟨hblock, fun _ => ⟨rfl, rfl⟩, ?_⟩
      change out.1.toNat + nbytes.toNat ≤ (h.nextf cls).toNat + 2 ^ (cls + 5) ↔
        out.1.toNat < (h.nextf cls).toNat + 2 ^ (cls + 5)
      omega
  · have hlarge : ¬ (nbytes + headerRoom (effectiveAlign 8)).toNat ≤ 2 ^ 31 := by
      have hless := UInt32.lt_iff_toNat_lt.mp (UInt32.not_le.mp hleft)
      rw [UInt32.toNat_add, show (headerRoom (effectiveAlign 8)).toNat = 8 from rfl, Nat.mod_eq_of_lt hfit]
      omega
    have hready : out.2.1.Ready := by
      have hheap := congrArg Prod.snd hs.taken
      rw [← show _ = out.2.1 from hheap]
      exact hs.inv.ready
    obtain ⟨hsz, hbucket⟩ := hready.init
    have hclass : classOf (initPagesz out.2.1) nbytes 8 = none := by
      rw [classOf_eq hsz hbucket, if_neg fun h => hlarge h.2]
    have hnull : bmkMemalloc (answering answer) out.2.1 out.2.2 nbytes 8 = (0, initPagesz out.2.1,
        out.2.2) := by
      rw [bmkMemalloc_eq, hclass]
    refine ⟨0, initPagesz out.2.1, out.2.2, ?_, fun hne => absurd rfl hne⟩
    simp only [realloc, bmkMemrealloc, if_neg hrv, if_neg hpos, if_neg hleft, hnull, if_true]

/-- On every heap that clients of libc can reach, for every live pointer and for one that was returned last
    whatever was asked for: the pointer that `realloc` returns has the bytes asked for in its block exactly
    if the old pointer is below the end of its block. -/
theorem memrealloc_big_enough {w : HeapWorld} {l : Live} (hl : Obtained w l) {nbytes answer : UInt32}
    (hpos : 0 < nbytes) (hfit : nbytes.toNat + 8 < 2 ^ 32)
    (hgood : bytesLeft w.heap l.rv < nbytes →
      GrantsGood (bmkMemalloc (answering answer) w.heap w.granted nbytes 8).2.2) :
    ReallocSized w.heap w.granted l nbytes answer := by
  have hpos' : nbytes ≠ 0 := (UInt32.ne_of_lt hpos).symm
  cases hl with
  | earlier hrun hl =>
      obtain ⟨⟨L, inv, hgranted, -⟩, haligned⟩ := LiveAligned.of_run hrun
      exact inv.reallocSized hgranted hl (haligned l hl) hpos' hfit hgood
  | @last mem events w old align answer₀ l hrun good nonNull head =>
      obtain ⟨⟨L, inv, hgranted, -⟩, -⟩ := LiveAligned.of_run hrun
      generalize hout : bmkMemalloc (answering answer₀) w.heap w.granted old align = out at good nonNull
      obtain ⟨L', h', cls, k, hs⟩ := inv.blockTaken hgranted hout good nonNull
      have hnew : (⟨out.1, old, align, h'.nextf cls, cls⟩ : Live) = l := by
        rw [← hs.ofHeader_eq old align]
        simp only [heapEffect, hout, if_neg nonNull] at head
        exact (List.cons.inj head).1
      simp only [heapEffect, hout] at hgood ⊢
      subst hnew
      by_cases hinside : out.1.toNat ≤ (h'.nextf cls).toNat + 2 ^ (cls + 5)
      · obtain ⟨L'', hgranted'', inv''⟩ := hs.live_inv hinside
        have hsized := inv''.reallocSized hgranted'' List.mem_cons_self hs.rv_mod hpos' hfit hgood
        exact hsized
      · exact hs.reallocSized (Nat.lt_of_not_le hinside) hpos' hfit

/-- Ten bytes of a 32-byte block grow to 100. -/
theorem memrealloc_big_enough_hundred :
    ∃ w l, run libcStep (HeapWorld.boot fun _ => 0) [.heap (.alloc 10 8 0x200000)] = some w ∧ l ∈ w.live ∧
      l.rv = 0x200008 ∧ l.rv.toNat < l.blockEnd ∧ ReallocSized w.heap w.granted l 100 0x201000 := by
  have h : (run libcStep (HeapWorld.boot fun _ => 0) [.heap (.alloc 10 8 0x200000)]).map (fun w => (w.live,
        decide (GrantsGood (bmkMemalloc (answering 0x201000) w.heap w.granted 100 8).2.2))) =
      some ([⟨0x200008, 10, 8, 0x200000, 0⟩], true) := by
    decide +kernel
  obtain ⟨w, hrun, hends⟩ := Option.map_eq_some_iff.mp h
  obtain ⟨hlive, hgood⟩ := Prod.mk.inj hends
  have hl : (⟨0x200008, 10, 8, 0x200000, 0⟩ : Live) ∈ w.live := by rw [hlive]; exact List.mem_cons_self
  exact ⟨w, _, hrun, hl, rfl, by decide,
    memrealloc_big_enough (.earlier hrun hl) (by decide) (by decide) fun _ => of_decide_eq_true hgood⟩

/-- No bytes at a multiple of 32: the pointer is the end of its 32-byte block, the count of the bytes left
    wraps, and `realloc` to 100 bytes returns the pointer as it is. -/
theorem memrealloc_no_room :
    ∃ w, run libcStep (HeapWorld.boot fun _ => 0) [.heap (.alloc 0 32 0x200000)] = some w ∧
      w.live = [⟨0x200020, 0, 32, 0x200000, 0⟩] ∧
      (realloc (answering 0) w.heap w.granted 0x200020 100).map (·.1) = some 0x200020 ∧
      ¬ (0x200020 + 100 ≤ 0x200000 + 2 ^ (0 + 5)) := by
  have h : (run libcStep (HeapWorld.boot fun _ => 0) [.heap (.alloc 0 32 0x200000)]).map (fun w =>
        (w.live, (realloc (answering 0) w.heap w.granted 0x200020 100).map (·.1))) =
      some ([⟨0x200020, 0, 32, 0x200000, 0⟩], some 0x200020) := by
    decide +kernel
  obtain ⟨w, hrun, hends⟩ := Option.map_eq_some_iff.mp h
  obtain ⟨hlive, hcall⟩ := Prod.mk.inj hends
  exact ⟨w, hrun, hlive, hcall, by decide⟩

end RumpBaremetal
