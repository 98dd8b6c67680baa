/-
Module: RumpBaremetal.Proofs.StaleFree
Layer: Proofs
Purpose: What becomes of the magic byte of an allocation after it is freed.  The link of a free block lies
  in its first four bytes and the magic byte of a header behind them, so freeing does not clobber it: the
  byte stays as it was until a client of a later allocation of the same block writes there.
Trusted boundary: none (fully proved)
Main exports: HeapInv.alloc_frame, lastByte, MagicFate, stale_free_caught_iff
-/
import RumpBaremetal.Proofs.Heap

namespace RumpBaremetal

open ByteMem StepSystem

/-! ### Which bytes an allocation changes -/

theorem pointer_dvd {op k : Nat} (hop : 32 ∣ op) (hk : 2 ≤ k) : 8 ∣ roundUp (op + 8) (2 ^ k) := by
  by_cases hthree : 3 ≤ k
  · exact (pow_dvd_pow 2 hthree : 2 ^ 3 ∣ 2 ^ k).trans (dvd_roundUp _ _)
  · obtain rfl : k = 2 := by omega
    have hfour : 2 ^ 2 ∣ op + 8 := by omega
    have hle := roundUp_le_of_dvd (Nat.two_pow_pos 2) hfour le_rfl
    have hge := le_roundUp (Nat.two_pow_pos 2) (op + 8)
    rw [Nat.le_antisymm hle hge]
    omega

/-- A new page run is apart from those granted before. -/
theorem morecore_frame {h : Heap} {granted : List PageGrant} (hsz : h.pagesz = pageSize)
    (hbucket : h.pagebucket = 7) {cls : Nat} (hcls : cls ≤ 26) {answer : UInt32}
    (hgood : GrantsGood (morecore (answering answer) h granted cls).2) :
    granted ⊆ (morecore (answering answer) h granted cls).2 ∧
      ∀ g ∈ granted, ∀ c, g.extent.start ≤ c → c < g.extent.fin →
        (morecore (answering answer) h granted cls).1.mem c = h.mem c := by
  by_cases hanswer : answer = 0
  · rw [hanswer, morecore_denied granted hcls hsz hbucket]
    exact ⟨List.Subset.refl _, fun _ _ _ _ _ => rfl⟩
  · obtain ⟨howmany, sz, hpages, hblk, heq⟩ := morecore_granted granted hcls hsz hbucket hanswer
    rw [heq] at hgood ⊢
    obtain ⟨heach, hpairs⟩ := hgood
    obtain ⟨haligned, hbelow⟩ := heach _ List.mem_cons_self
    refine ⟨List.subset_cons_self _ _, fun g hg c hlo hhi => ?_⟩
    let r : PageRun := ⟨⟨answer, howmany⟩, cls, hcls, hpages, hanswer, haligned, hbelow⟩
    obtain ⟨-, hagree⟩ := HeapInv.carve_run r h.mem hblk
    exact hagree.on_apart ((List.pairwise_cons.mp hpairs).1 g hg).symm c hlo hhi

namespace HeapInv

variable {L : Layout} {h : Heap} {live : List Live}

/-- The pointer that is cut from a block, and the bytes of its header. -/
theorem take_frame (inv : HeapInv L h live) {cls k : Nat} {align : UInt32} (hop : h.nextf cls ≠ 0)
    (hk : 2 ≤ k) (halign : align.toNat = 2 ^ k) (hroom : roundUp 8 (2 ^ k) ≤ 2 ^ (cls + 5)) :
    8 ≤ (takeBlock h cls (h.nextf cls) align).1.toNat ∧
      (takeBlock h cls (h.nextf cls) align).1.toNat % 8 = 0 ∧
      ∀ c, c < (takeBlock h cls (h.nextf cls) align).1.toNat - 8 ∨
          (takeBlock h cls (h.nextf cls) align).1.toNat - 2 ≤ c →
        (takeBlock h cls (h.nextf cls) align).2.mem c = h.mem c := by
  obtain ⟨hhead, -⟩ := inv.head_block hop
  obtain ⟨-, -, hbase, hend⟩ := Layout.block_facts hhead
  have hptr : (takeBlock h cls (h.nextf cls) align).1.toNat = roundUp ((h.nextf cls).toNat + 8) (2 ^ k) :=
    takeBlock_pointer h halign hroom (by omega)
  obtain ⟨hlow, -⟩ := pointer_in_block hbase hroom
  have hblock : 32 ∣ (h.nextf cls).toNat := (pow_dvd_pow 2 (Nat.le_add_left 5 _)).trans hbase
  rw [← hptr] at hlow
  refine ⟨by omega, ?_, fun c hc => ?_⟩
  · rw [hptr]
    exact Nat.mod_eq_zero_of_dvd (pointer_dvd hblock hk)
  · have hover : ((takeBlock h cls (h.nextf cls) align).1 - sizeofOverhead).toNat =
        (takeBlock h cls (h.nextf cls) align).1.toNat - 8 := sub_overhead_toNat (by omega)
    have hoff : c < ((takeBlock h cls (h.nextf cls) align).1 - sizeofOverhead).toNat ∨
        ((takeBlock h cls (h.nextf cls) align).1 - sizeofOverhead).toNat + 6 ≤ c := by omega
    exact writeHeader_of_apart h.mem cls _ hoff

theorem refill_frame {granted : List PageGrant} (hsz : h.pagesz = pageSize) (hbucket : h.pagebucket = 7)
    {cls : Nat} (hcls : cls ≤ 26) {answer : UInt32}
    (hgood : GrantsGood (RumpBaremetal.refill (answering answer) h granted cls).2) :
    granted ⊆ (RumpBaremetal.refill (answering answer) h granted cls).2 ∧
      ∀ g ∈ granted, ∀ c, g.extent.start ≤ c → c < g.extent.fin →
        (RumpBaremetal.refill (answering answer) h granted cls).1.mem c = h.mem c := by
  unfold RumpBaremetal.refill at hgood ⊢
  by_cases hempty : h.nextf cls = 0
  · simp only [if_pos hempty] at hgood ⊢
    exact morecore_frame hsz hbucket hcls hgood
  · rw [if_neg hempty]
    exact ⟨List.Subset.refl _, fun _ _ _ _ _ => rfl⟩

/-- In the page runs that it had before, an allocation writes the six bytes of the new header and no other.
    Every pointer handed out is a multiple of eight. -/
theorem alloc_frame (inv : HeapInv L h live) {granted : List PageGrant}
    (hgranted : L.runs.map (·.grant) = granted) {nbytes align answer : UInt32}
    (hfit : nbytes.toNat + (headerRoom (effectiveAlign align)).toNat < 2 ^ 32)
    {out : UInt32 × Heap × List PageGrant}
    (hout : RumpBaremetal.bmkMemalloc (answering answer) h granted nbytes align = out)
    (hgood : GrantsGood out.2.2) :
    granted ⊆ out.2.2 ∧ (out.1 ≠ 0 → 8 ≤ out.1.toNat ∧ out.1.toNat % 8 = 0) ∧
      ∀ g ∈ granted, ∀ c, g.extent.start ≤ c → c < g.extent.fin →
        (out.1 ≠ 0 → c < out.1.toNat - 8 ∨ out.1.toNat - 2 ≤ c) → out.2.1.mem c = h.mem c := by
  subst hout
  obtain ⟨inv', hsz, hbucket⟩ := inv.initPagesz
  have hmem := initPagesz_mem h
  rcases bmkMemalloc_cases (answering answer) granted hsz hbucket hfit with
    heq | ⟨cls, hcls, htest, hroom, heq⟩
  · rw [heq]
    exact ⟨List.Subset.refl _, fun hne => absurd rfl hne, fun _ _ c _ _ _ => by rw [hmem]⟩
  · obtain ⟨k, hk, -, halign, -⟩ := effectiveAlign_pow htest
    rw [headerRoom_toNat halign] at hroom
    rw [heq] at hgood ⊢
    rw [serve_pages] at hgood ⊢
    obtain ⟨L', inv'', -⟩ := inv'.refill hgranted hsz hbucket hcls hgood
    obtain ⟨hsub, hsame⟩ := refill_frame hsz hbucket hcls hgood
    rcases hpair : RumpBaremetal.refill (answering answer) (RumpBaremetal.initPagesz h) granted cls
      with ⟨h', granted'⟩
    rw [hpair] at inv'' hsub hsame
    rw [hmem] at hsame
    simp only [RumpBaremetal.serve, hpair]
    refine ⟨hsub, ?_⟩
    by_cases hop : h'.nextf cls = 0
    · rw [if_pos hop]
      exact ⟨fun hne => absurd rfl hne, fun g hg c hlo hhi _ => hsame g hg c hlo hhi⟩
    · rw [if_neg hop]
      obtain ⟨hlow, hmod, hother⟩ := inv''.take_frame hop hk halign (by omega)
      refine ⟨fun _ => ⟨hlow, hmod⟩, fun g hg c hlo hhi hc => ?_⟩
      have hne : (takeBlock h' cls (h'.nextf cls) (effectiveAlign align)).1 ≠ 0 := by
        intro hzero
        rw [hzero, UInt32.toNat_zero] at hlow
        omega
      exact (hother c (hc hne)).trans (hsame g hg c hlo hhi)

/-- A release writes the first four bytes of a block, and a pointer is at least eight bytes behind. -/
theorem free_frame (inv : HeapInv L h live) {l : Live} (hl : l ∈ live) {c : Nat} (hc : 4 ≤ c % 8)
    (x : UInt32) :
    store32 h.mem l.op.toNat x c = h.mem c := by
  obtain ⟨-, -, hbase, -⟩ := Layout.block_facts (inv.live_block hl)
  have hblock : 32 ∣ l.op.toNat := (pow_dvd_pow 2 (Nat.le_add_left 5 _)).trans hbase
  exact store32_of_apart _ _ (by omega)

/-- A pointer belongs to a live allocation or its block is on the free list, not both. -/
theorem free_not_live (inv : HeapInv L h live) {cp cls op : Nat} (hfree : op ∈ L.free cls)
    (hlo : op + 8 ≤ cp) (hhi : cp ≤ op + 2 ^ (cls + 5)) {l : Live} (hl : l ∈ live) : l.rv.toNat ≠ cp := by
  intro hrv
  have hheader := (inv.good l hl).header
  have hpayload := (inv.good l hl).payload
  -- the byte below the pointer lies in both blocks, so they are one
  have hsame : ¬ Extent.Apart ⟨op, 2 ^ (cls + 5)⟩ ⟨l.op.toNat, 2 ^ (l.bucket + 5)⟩ := by
    simp only [Extent.Apart, Extent.fin]
    omega
  refine hsame (L.blocks_apart inv.separate (inv.free_block hfree) (inv.live_block hl) ?_)
  rintro rfl rfl
  exact (List.nodup_append.mp (inv.nodup l.bucket)).2.2 _ hfree _ (mem_liveBlocks hl) rfl

end HeapInv

/-! ### The magic byte along a run -/

/-- The byte that the last client write to `addr` stored, if there was one. -/
def lastByte (addr : Nat) : List HeapEvent → Option UInt8
  | [] => none
  | .write a byte :: events => (lastByte addr events).or (if a = addr then some byte else none)
  | _ :: events => lastByte addr events

/-- The magic byte of the pointer `cp`: it is `byte`, or `cp` has been handed out again. -/
structure MagicFate (cp : UInt32) (byte : UInt8) (w : HeapWorld) : Prop where
  heap : HeapInv.World w
  aligned : 8 ≤ cp.toNat ∧ cp.toNat % 8 = 0
  inRun : ∃ g ∈ w.granted, g.extent.start ≤ cp.toNat - 4 ∧ cp.toNat - 4 < g.extent.fin
  fate : (∃ l ∈ w.live, l.rv = cp) ∨ w.heap.mem (cp.toNat - 4) = byte

namespace MagicFate

variable {cp : UInt32} {byte : UInt8} {w w' : HeapWorld}

theorem alloc (hfate : MagicFate cp byte w) {nbytes align answer : UInt32}
    (hstep : heapStep w (.alloc nbytes align answer) = some w') : MagicFate cp byte w' := by
  have hheap := HeapInv.step hfate.heap hstep
  obtain ⟨L, inv, hgranted, -⟩ := hfate.heap
  obtain ⟨⟨hfit, hgood⟩, rfl⟩ := heapStep_inv hstep
  obtain ⟨hlow, hmod⟩ := hfate.aligned
  obtain ⟨g, hg, hstart, hfin⟩ := hfate.inRun
  rcases hout : bmkMemalloc (answering answer) w.heap w.granted nbytes align with ⟨rv, heap, granted⟩
  rw [hout] at hgood
  obtain ⟨hsub, hptr, hframe⟩ := inv.alloc_frame hgranted hfit hout hgood
  refine ⟨hheap, hfate.aligned, ?_, ?_⟩
  · simp only [heapEffect, hout]
    exact ⟨g, hsub hg, hstart, hfin⟩
  · simp only [heapEffect, hout]
    by_cases hzero : rv = 0
    · rw [if_pos hzero]
      refine hfate.fate.imp id fun hbyte => ?_
      rw [← hbyte]
      exact hframe g hg _ hstart hfin fun hne => absurd hzero hne
    · rw [if_neg hzero]
      by_cases hagain : rv = cp
      · exact Or.inl ⟨_, List.mem_cons_self, hagain⟩
      · have hdiff : rv.toNat ≠ cp.toNat := fun heq => hagain (UInt32.toNat_inj.mp heq)
        obtain ⟨hlow', hmod'⟩ := hptr hzero
        dsimp only at hlow' hmod'
        refine hfate.fate.imp ?_ fun hbyte => ?_
        · rintro ⟨l, hl, hrv⟩
          exact ⟨l, List.mem_cons_of_mem _ hl, hrv⟩
        · rw [← hbyte]
          refine hframe g hg _ hstart hfin fun _ => ?_
          dsimp only
          omega

theorem free (hfate : MagicFate cp byte w) {cp' : UInt32} (hother : cp' ≠ cp)
    (hstep : heapStep w (.free cp') = some w') : MagicFate cp byte w' := by
  have hheap := HeapInv.step hfate.heap hstep
  obtain ⟨L, inv, hgranted, -⟩ := hfate.heap
  obtain ⟨⟨l, hl, rfl⟩, rfl⟩ := heapStep_inv hstep
  obtain ⟨hlow, hmod⟩ := hfate.aligned
  refine ⟨hheap, hfate.aligned, ?_, ?_⟩
  · simp only [heapEffect, inv.bmkMemfree_live hl]
    exact hfate.inRun
  · simp only [heapEffect, inv.bmkMemfree_live hl]
    refine hfate.fate.imp ?_ fun hbyte => ?_
    · rintro ⟨l', hl', hrv⟩
      exact ⟨l', (List.mem_eraseP_of_neg (by simp [hrv, hother.symm])).mpr hl', hrv⟩
    · rw [← hbyte]
      exact inv.free_frame hl (by omega) _

theorem write (hfate : MagicFate cp byte w) {addr : Nat} {byte' : UInt8}
    (hstep : heapStep w (.write addr byte') = some w') :
    MagicFate cp (if addr = cp.toNat - 4 then byte' else byte) w' := by
  have hheap := HeapInv.step hfate.heap hstep
  obtain ⟨-, rfl⟩ := heapStep_inv hstep
  refine ⟨hheap, hfate.aligned, hfate.inRun, hfate.fate.imp id fun hbyte => ?_⟩
  simp only [heapEffect, Function.update_apply, hbyte, eq_comm]

/-- Until `cp` is freed again, its magic byte is what the last client wrote there. -/
theorem run {after : List HeapEvent} :
    ∀ {byte : UInt8} {w : HeapWorld}, MagicFate cp byte w → .free cp ∉ after →
      StepSystem.run heapStep w after = some w' →
      MagicFate cp ((lastByte (cp.toNat - 4) after).getD byte) w' := by
  induction after with
  | nil =>
      intro byte w hfate _ hrun
      obtain rfl := Option.some.inj hrun
      exact hfate
  | cons e events ih =>
      intro byte w hfate hlast hrun
      obtain ⟨w₁, hstep, hrest⟩ := run_cons_inv hrun
      obtain ⟨hhead, htail⟩ := not_or.mp (fun h => hlast (List.mem_cons.mpr h))
      cases e with
      | alloc nbytes align answer => exact ih (hfate.alloc hstep) htail hrest
      | free cp' =>
          exact ih (hfate.free (fun heq => hhead (congrArg HeapEvent.free heq.symm)) hstep) htail hrest
      | write addr byte' =>
          have hnext := ih (hfate.write hstep) htail hrest
          simp only [lastByte]
          cases hlater : lastByte (cp.toNat - 4) events with
          | none =>
              rw [hlater] at hnext
              by_cases haddr : addr = cp.toNat - 4
              · simpa [haddr] using hnext
              · simpa [haddr] using hnext
          | some later =>
              rw [hlater] at hnext
              simpa using hnext

end MagicFate

/-- Live pointers are multiples of eight, whatever alignment was asked for. -/
def LiveAligned (w : HeapWorld) : Prop :=
  HeapInv.World w ∧ ∀ l ∈ w.live, l.rv.toNat % 8 = 0

theorem liveAligned_step {w w' : HeapWorld} {e : HeapEvent} (hw : LiveAligned w)
    (hstep : heapStep w e = some w') :
    LiveAligned w' := by
  refine ⟨HeapInv.step hw.1 hstep, ?_⟩
  obtain ⟨⟨L, inv, hgranted, -⟩, haligned⟩ := hw
  obtain ⟨henabled, rfl⟩ := heapStep_inv hstep
  cases e with
  | alloc nbytes align answer =>
      obtain ⟨hfit, hgood⟩ := henabled
      rcases hout : bmkMemalloc (answering answer) w.heap w.granted nbytes align with ⟨rv, heap, granted⟩
      rw [hout] at hgood
      obtain ⟨-, hptr, -⟩ := inv.alloc_frame hgranted hfit hout hgood
      simp only [heapEffect, hout]
      by_cases hzero : rv = 0
      · rw [if_pos hzero]
        exact haligned
      · rw [if_neg hzero]
        exact List.forall_mem_cons.mpr ⟨(hptr hzero).2, haligned⟩
  | free cp =>
      obtain ⟨l, hl, rfl⟩ := henabled
      simp only [heapEffect, inv.bmkMemfree_live hl]
      exact fun l' hl' => haligned l' (List.mem_of_mem_eraseP hl')
  | write addr byte => exact haligned

/-- Freeing an allocation leaves its magic byte in place. -/
theorem magicFate_freed {w w' : HeapWorld} (hw : LiveAligned w) {l : Live} (hl : l ∈ w.live)
    (hstep : heapStep w (.free l.rv) = some w') : MagicFate l.rv magic w' := by
  have hheap := HeapInv.step hw.1 hstep
  obtain ⟨⟨L, inv, hgranted, -⟩, haligned⟩ := hw
  obtain ⟨-, rfl⟩ := heapStep_inv hstep
  have hmod := haligned l hl
  have hgood := inv.good l hl
  have hheader := hgood.header
  have hpayload := hgood.payload
  refine ⟨hheap, ⟨by omega, hmod⟩, ?_, Or.inr ?_⟩
  · obtain ⟨r, hr, hcls, hblock⟩ := Layout.mem_blocks.mp (inv.live_block hl)
    obtain ⟨hstart, hfin⟩ := Extent.piece_inside hblock
    simp only [Extent.fin, hcls] at hstart hfin
    simp only [heapEffect, inv.bmkMemfree_live hl, ← hgranted]
    refine ⟨r.grant, List.mem_map_of_mem hr, ?_, ?_⟩
    · omega
    · simp only [Extent.fin]
      omega
  · simp only [heapEffect, inv.bmkMemfree_live hl]
    rw [inv.free_frame hl (by omega), ← hgood.magicByte]
    congr 1
    omega

/-- The sanity check looks at the byte four below the pointer. -/
theorem memfree_caught_iff {h : Heap} {cp : UInt32} (hlow : 8 ≤ cp.toNat) :
    (memfreeExit h cp = .sanity ∧ bmkMemfree h cp = some h) ↔ h.mem (cp.toNat - 4) ≠ magic := by
  have hne : cp ≠ 0 := by
    rintro rfl
    exact absurd hlow (by decide)
  have hbyte : (cp - sizeofOverhead).toNat + 4 = cp.toNat - 4 := by
    rw [sub_overhead_toNat hlow]
    omega
  have hexit : memfreeExit h cp = .sanity ↔ h.mem (cp.toNat - 4) ≠ magic := by
    simp only [memfreeExit, if_neg hne, hbyte]
    by_cases hmagic : h.mem (cp.toNat - 4) = magic
    · simp only [hmagic, ne_eq, not_true_eq_false, if_false, iff_false]
      split <;> simp
    · simp only [ne_eq, hmagic, not_false_eq_true, if_true]
  rw [← hexit]
  -- the lists and the bytes stay as they are at this return
  exact and_iff_left_of_imp fun hsanity => by simp only [bmkMemfree, hsanity]

/-- A pointer was handed out and has been freed, once or more often, and its block is free.  A further
    release of it stops at the sanity check, with the lists and all bytes unchanged, exactly if a client
    that held the block in the meantime has overwritten the magic byte, with another value. -/
theorem stale_free_caught_iff {mem : ByteMem} {before after : List HeapEvent} {w₀ w : HeapWorld} {l : Live}
    (hbefore : run heapStep (HeapWorld.boot mem) before = some w₀) (hl : l ∈ w₀.live)
    (hafter : run heapStep w₀ (.free l.rv :: after) = some w) (hlast : .free l.rv ∉ after)
    (hfree : ∃ list, Chain (nextOf w.heap.mem) (w.heap.nextf l.bucket).toNat list ∧ l.op.toNat ∈ list) :
    (memfreeExit w.heap l.rv = .sanity ∧ bmkMemfree w.heap l.rv = some w.heap) ↔
      ∃ byte, lastByte (l.rv.toNat - 4) after = some byte ∧ byte ≠ magic := by
  have hboot : LiveAligned (HeapWorld.boot mem) :=
    ⟨HeapInv.boot mem, fun l hl => absurd hl List.not_mem_nil⟩
  have hw₀ := run_invariant (fun _ _ _ hw hstep => liveAligned_step hw hstep) hboot hbefore
  obtain ⟨w₁, hstep, hrest⟩ := run_cons_inv hafter
  have hfate := (magicFate_freed hw₀ hl hstep).run hlast hrest
  rw [memfree_caught_iff hfate.aligned.1]
  -- the pointer is not live: its block is on the list
  have hbyte : w.heap.mem (l.rv.toNat - 4) = (lastByte (l.rv.toNat - 4) after).getD magic := by
    refine hfate.fate.resolve_left ?_
    rintro ⟨l', hl', hrv⟩
    obtain ⟨L₀, inv₀, -, -⟩ := hw₀.1
    have hheader := (inv₀.good l hl).header
    have hpayload := (inv₀.good l hl).payload
    obtain ⟨L, inv, -, -⟩ := hfate.heap
    obtain ⟨list, hchain, hmem⟩ := hfree
    rw [hchain.unique (inv.lists l.bucket)] at hmem
    exact inv.free_not_live hmem hheader (by omega) hl' (by rw [hrv])
  rw [hbyte]
  cases lastByte (l.rv.toNat - 4) after with
  | none => simp
  | some byte => simp

/-- The next owner of the page wanted a smaller alignment, so that the old magic byte was in its payload. -/
theorem stale_free_caught_overwritten :
    ∃ w₀ w, run heapStep (HeapWorld.boot fun _ => 0) [.alloc 4000 16 0x200000] = some w₀ ∧
      run heapStep w₀ [.free 0x200010, .alloc 4080 8 0, .write 0x20000c 1, .free 0x200008] = some w ∧
      memfreeExit w.heap 0x200010 = .sanity ∧ bmkMemfree w.heap 0x200010 = some w.heap := by
  have hlive : (run heapStep (HeapWorld.boot fun _ => 0) [.alloc 4000 16 0x200000]).map (·.live) =
      some [⟨0x200010, 4000, 16, 0x200000, 7⟩] := by
    decide +kernel
  obtain ⟨w₀, hbefore, hl⟩ := Option.map_eq_some_iff.mp hlive
  have hlist : (run heapStep (HeapWorld.boot fun _ => 0) ([.alloc 4000 16 0x200000] ++
      [.free 0x200010, .alloc 4080 8 0, .write 0x20000c 1, .free 0x200008])).map
        (fun w => ((w.heap.nextf 7).toNat, nextOf w.heap.mem 0x200000)) = some (0x200000, 0) := by
    decide +kernel
  obtain ⟨w, hafter, hfree⟩ := Option.map_eq_some_iff.mp hlist
  rw [run_append, hbefore, Option.bind_some] at hafter
  obtain ⟨hhead, hend⟩ := Prod.mk.inj hfree
  refine ⟨w₀, w, hbefore, hafter, ?_⟩
  refine (stale_free_caught_iff (l := ⟨0x200010, 4000, 16, 0x200000, 7⟩) hbefore ?_ hafter ?_ ?_).mpr ?_
  · rw [hl]
    exact List.mem_cons_self
  · decide
  · exact ⟨[0x200000], ⟨hhead, by decide, hend⟩, List.mem_cons_self⟩
  · exact ⟨1, by decide, by decide⟩

/-- A page is freed twice in a row.  The second release passes the check and makes the block its own
    successor on the free list. -/
theorem double_free_not_caught :
    ∃ w h, run heapStep (HeapWorld.boot fun _ => 0) [.alloc 4000 16 0x200000, .free 0x200010] = some w ∧
      (w.heap.nextf 7).toNat = 0x200000 ∧ nextOf w.heap.mem 0x200000 = 0 ∧
      memfreeExit w.heap 0x200010 = .freed ∧ bmkMemfree w.heap 0x200010 = some h ∧
      (h.nextf 7).toNat = 0x200000 ∧ nextOf h.mem 0x200000 = 0x200000 := by
  have hrun : (run heapStep (HeapWorld.boot fun _ => 0) [.alloc 4000 16 0x200000, .free 0x200010]).map
      (fun w => ((w.heap.nextf 7).toNat, nextOf w.heap.mem 0x200000, memfreeExit w.heap 0x200010,
        (bmkMemfree w.heap 0x200010).map fun h => ((h.nextf 7).toNat, nextOf h.mem 0x200000))) =
        some (0x200000, 0, .freed, some (0x200000, 0x200000)) := by
    decide +kernel
  obtain ⟨w, hw, hfacts⟩ := Option.map_eq_some_iff.mp hrun
  obtain ⟨hhead, hrest⟩ := Prod.mk.inj hfacts
  obtain ⟨hend, hrest⟩ := Prod.mk.inj hrest
  obtain ⟨hexit, hsecond⟩ := Prod.mk.inj hrest
  obtain ⟨h, hh, hloop⟩ := Option.map_eq_some_iff.mp hsecond
  obtain ⟨hhead', hlink⟩ := Prod.mk.inj hloop
  exact ⟨w, h, hw, hhead, hend, hexit, hh, hhead', hlink⟩

end RumpBaremetal
