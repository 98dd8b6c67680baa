/-
Module: RumpBaremetal.Proofs.Memory
Layer: Proofs
Purpose: Memory from the loader's map to the clients.  The page source hands out pieces of the region that
  `parsemem` has found, the allocator cuts its own pieces into blocks, and what the clients hold lies in
  that region, behind the kernel's image, each piece apart from every other, for as long as no request
  carries the counter of the page source.
Trusted boundary: none (fully proved)
Main exports: bmkMemalloc_answering, MemoryInv, MemoryInv.step, MemorySound, memory_inside_region
-/
import RumpBaremetal.Kernel.Memory
import RumpBaremetal.Proofs.Boot
import RumpBaremetal.Proofs.Heap
import RumpBaremetal.Proofs.Store

namespace RumpBaremetal

open ByteMem StepSystem

/-! ### The allocator on top of the page source -/

theorem noCarry_of_carries {p : PageHistory} {howmany : UInt32} (h : p.carries howmany = false) :
    NoCarry p howmany := by
  simp only [PageHistory.carries, decide_eq_false_iff_not, not_and_or, Nat.not_le, UInt32.not_le] at h
  exact h

/-- A page source that gives the answer which the real one would give fills the free list in the same way,
    and what it grants is what the real one grants. -/
theorem morecore_answering (h : Heap) (p : PageHistory) (cls : Nat) :
    ∃ answer new, (morecore PageHistory.allocpg h p cls).2.granted = new ++ p.granted ∧
      ∀ granted, morecore (answering answer) h granted cls =
        ((morecore PageHistory.allocpg h p cls).1, new ++ granted) := by
  unfold morecore corealloc
  dsimp only
  generalize (1 : UInt32) <<< UInt32.ofNat (if cls < h.pagebucket then 0 else cls - h.pagebucket) = howmany
  have hgranted := allocpg_granted p howmany
  by_cases hnull : (p.allocpg howmany).1 = 0
  · rw [if_pos hnull] at hgranted ⊢
    exact ⟨0, [], hgranted, fun granted => by simp [answering]⟩
  · rw [if_neg hnull] at hgranted ⊢
    exact ⟨(p.allocpg howmany).1, [⟨(p.allocpg howmany).1, howmany⟩], hgranted,
      fun granted => by simp [answering, hnull]⟩

theorem refill_answering (h : Heap) (p : PageHistory) (cls : Nat) :
    ∃ answer new, (refill PageHistory.allocpg h p cls).2.granted = new ++ p.granted ∧
      ∀ granted, refill (answering answer) h granted cls = ((refill PageHistory.allocpg h p cls).1,
        new ++ granted) := by
  unfold refill
  by_cases hempty : h.nextf cls = 0
  · simp only [if_pos hempty]
    exact morecore_answering h p cls
  · simp only [if_neg hempty]
    exact ⟨0, [], rfl, fun _ => rfl⟩

/-- A call over the page source is a call over some answer. -/
theorem bmkMemalloc_answering (h : Heap) (p : PageHistory) (nbytes align : UInt32) :
    ∃ answer new, (bmkMemalloc PageHistory.allocpg h p nbytes align).2.2.granted = new ++ p.granted ∧
      ∀ granted, bmkMemalloc (answering answer) h granted nbytes align =
        ((bmkMemalloc PageHistory.allocpg h p nbytes align).1,
          (bmkMemalloc PageHistory.allocpg h p nbytes align).2.1,
          new ++ granted) := by
  simp only [bmkMemalloc_eq]
  cases classOf (initPagesz h) nbytes align with
  | none => exact ⟨0, [], rfl, fun _ => rfl⟩
  | some cls =>
      obtain ⟨answer, new, hgranted, hsame⟩ := refill_answering (initPagesz h) p cls
      refine ⟨answer, new, ?_, fun granted => ?_⟩
      · dsimp only
        rw [serve_pages]
        exact hgranted
      · simp only [serve, hsame]
        split <;> rfl

/-! ### The invariant -/

/-- The page source has granted what is below its counter, page by page.  The allocator has cut some of the
    runs, and clients hold the others. -/
structure MemoryInv (bmkMembase bmkMemsize : UInt32) (m : Memory) : Prop where
  grants : GrantsBelow bmkMembase bmkMemsize m.store.pages
  aligned : ∀ g ∈ m.store.pages.granted, g.rv.toNat % 4096 = 0
  heap : ∃ L, HeapInv L m.store.heap m.live ∧ m.store.pages.granted.Perm (L.runs.map (·.grant) ++ m.taken)
  running : m.store.halted = false

theorem grants_perm_apart {granted runs : List PageGrant} (hperm : granted.Perm runs)
    (h : granted.Pairwise fun g g' => g.extent.Apart g'.extent) :
    runs.Pairwise fun g g' => g.extent.Apart g'.extent :=
  (hperm.pairwise_iff fun h => h.symm).mp h

/-- A request that does not carry keeps the grants apart, page by page. -/
theorem grants_step {bmkMembase bmkMemsize : UInt32} (hbase : bmkMembase.toNat % 4096 = 0)
    (fits : bmkMembase.toNat + bmkMemsize.toNat < 2 ^ 32) {p : PageHistory}
    (hgrants : GrantsBelow bmkMembase bmkMemsize p) (haligned : ∀ g ∈ p.granted, g.rv.toNat % 4096 = 0)
    {howmany : UInt32} (hcarry : p.carries howmany = false) :
    GrantsBelow bmkMembase bmkMemsize (p.allocpg howmany).2 ∧
      ∀ g ∈ (p.allocpg howmany).2.granted, g.rv.toNat % 4096 = 0 := by
  refine ⟨grantsBelow_step fits.le hgrants (noCarry_of_carries hcarry) rfl, fun g hg => ?_⟩
  rw [allocpg_granted] at hg
  split at hg
  · exact haligned g hg
  · rcases List.mem_cons.mp hg with rfl | hg
    · have hoff := offset_dvd p.pages
      have hptr := allocpg_toNat p howmany
      rw [hgrants.membase] at hptr
      dsimp only
      rw [hptr]
      split
      · omega
      · rfl
    · exact haligned g hg

/-- The runs of the allocator are what it may rely on. -/
theorem GrantsBelow.good {bmkMembase bmkMemsize : UInt32}
    (fits : bmkMembase.toNat + bmkMemsize.toNat < 2 ^ 32) {p : PageHistory}
    (hgrants : GrantsBelow bmkMembase bmkMemsize p) (haligned : ∀ g ∈ p.granted, g.rv.toNat % 4096 = 0)
    {core taken : List PageGrant} (hperm : p.granted.Perm (core ++ taken)) : GrantsGood core := by
  refine ⟨fun g hg => ?_, (List.pairwise_append.mp (grants_perm_apart hperm hgrants.sound.2)).1⟩
  have hmem : g ∈ p.granted := hperm.mem_iff.mpr (List.mem_append_left _ hg)
  have hinside := (hgrants.sound.1 g hmem).2
  simp only [PageState.managed, Extent.fin, hgrants.membase, hgrants.memsize] at hinside
  exact ⟨haligned g hmem, by simp only [Extent.fin]; omega⟩

/-- The block of a live allocation lies in one of the runs. -/
theorem HeapInv.live_block_run {L : Layout} {h : Heap} {live : List Live} (inv : HeapInv L h live)
    {l : Live} (hl : l ∈ live) :
    ∃ r ∈ L.runs, Extent.Inside ⟨l.op.toNat, 2 ^ (l.bucket + 5)⟩ r.grant.extent := by
  obtain ⟨r, hr, hcls, hblock⟩ := Layout.mem_blocks.mp (inv.live_block hl)
  have hinside := Extent.piece_inside hblock
  rw [hcls] at hinside
  exact ⟨r, hr, hinside⟩

theorem HeapInv.live_run {L : Layout} {h : Heap} {live : List Live} (inv : HeapInv L h live) {l : Live}
    (hl : l ∈ live) :
    ∃ r ∈ L.runs, l.extent.Inside r.grant.extent := by
  obtain ⟨r, hr, hinside⟩ := inv.live_block_run hl
  have hheader := (inv.good l hl).header
  have hpayload := (inv.good l hl).payload
  refine ⟨r, hr, ?_⟩
  simp only [Extent.Inside, Extent.fin, Live.extent] at hinside ⊢
  omega

/-- A change outside the runs of the allocator disturbs none of its lists and headers. -/
theorem HeapInv.frame_outside {L : Layout} {h : Heap} {live : List Live} (inv : HeapInv L h live)
    {e : Extent} (hapart : ∀ r ∈ L.runs, r.grant.extent.Apart e) {mem' : ByteMem}
    (hagree : AgreeOff e h.mem mem') :
    HeapInv L { h with mem := mem' } live := by
  have hblock : ∀ {i a : Nat}, a ∈ L.blocks i → Extent.Apart ⟨a, 2 ^ (i + 5)⟩ e := by
    intro i a ha
    obtain ⟨r, hr, rfl, hin⟩ := Layout.mem_blocks.mp ha
    exact (hapart r hr).mono (Extent.piece_inside hin) ⟨le_rfl, le_rfl⟩
  refine ⟨inv.ready, inv.separate, fun i => ?_, inv.accounted, fun l hl => ?_⟩
  · exact (inv.lists i).frame fun x hx => hagree.link i (hblock (inv.free_block hx))
  · exact inv.frame_live hl (hblock (inv.live_block hl)) hagree

theorem Memory.carried_of_request {m : Memory} {r : StoreRequest} (h : (m.request r).carried = false) :
    m.carried = false := by
  simp only [Memory.request, Bool.or_eq_false_iff] at h
  exact h.1

namespace MemoryInv

variable {bmkMembase bmkMemsize : UInt32} {m : Memory}

theorem boot (mem : ByteMem) (bmkMembase bmkMemsize : UInt32) :
    MemoryInv bmkMembase bmkMemsize (.boot mem bmkMembase bmkMemsize) := by
  obtain ⟨L, inv, hruns, -⟩ := HeapInv.boot mem
  refine ⟨grantsBelow_boot bmkMembase bmkMemsize, fun _ hg => absurd hg List.not_mem_nil, ⟨L, inv, ?_⟩, rfl⟩
  rw [hruns]
  exact List.Perm.nil

/-- The page source after a request that does not carry. -/
theorem pages_step (hbase : bmkMembase.toNat % 4096 = 0)
    (fits : bmkMembase.toNat + bmkMemsize.toNat < 2 ^ 32) (inv : MemoryInv bmkMembase bmkMemsize m)
    {r : StoreRequest} (hcarry : (pagesAsked m.store r).any m.store.pages.carries = false) :
    GrantsBelow bmkMembase bmkMemsize (m.store.request r).2.pages ∧
      ∀ g ∈ (m.store.request r).2.pages.granted, g.rv.toNat % 4096 = 0 := by
  rw [request_pages]
  cases hasked : pagesAsked m.store r with
  | none => exact ⟨inv.grants, inv.aligned⟩
  | some howmany =>
      rw [hasked, Option.any_some] at hcarry
      exact grants_step hbase fits inv.grants inv.aligned hcarry

/-- An allocation that does not carry is one over some answer of a page source that keeps its word. -/
theorem memalloc_answer (hbase : bmkMembase.toNat % 4096 = 0)
    (fits : bmkMembase.toNat + bmkMemsize.toNat < 2 ^ 32) (inv : MemoryInv bmkMembase bmkMemsize m)
    {nbytes align : UInt32}
    (hcarry : (pagesAsked m.store (.memalloc nbytes align)).any m.store.pages.carries = false)
    {L : Layout} (hperm : m.store.pages.granted.Perm (L.runs.map (·.grant) ++ m.taken)) :
    ∃ answer new, bmkMemalloc (answering answer) m.store.heap (L.runs.map (·.grant)) nbytes align =
        ((bmkMemalloc PageHistory.allocpg m.store.heap m.store.pages nbytes align).1,
          (bmkMemalloc PageHistory.allocpg m.store.heap m.store.pages nbytes align).2.1,
          new ++ L.runs.map (·.grant)) ∧
      GrantsGood (new ++ L.runs.map (·.grant)) ∧
      (m.store.request (.memalloc nbytes align)).2.pages.granted.Perm
      (new ++ L.runs.map (·.grant) ++ m.taken) := by
  obtain ⟨hgrants, haligned⟩ := inv.pages_step hbase fits hcarry
  obtain ⟨answer, new, hnew, hsame⟩ := bmkMemalloc_answering m.store.heap m.store.pages nbytes align
  have hperm' : (m.store.request (.memalloc nbytes align)).2.pages.granted.Perm
      (new ++ L.runs.map (·.grant) ++ m.taken) := by
    rw [request_memalloc]
    dsimp only
    rw [hnew, List.append_assoc]
    exact hperm.append_left new
  exact ⟨answer, new, hsame _, hgrants.good fits haligned hperm', hperm'⟩

theorem memalloc (hbase : bmkMembase.toNat % 4096 = 0) (fits : bmkMembase.toNat + bmkMemsize.toNat < 2 ^ 32)
    (inv : MemoryInv bmkMembase bmkMemsize m) {nbytes align : UInt32}
    (hroom : nbytes.toNat + (headerRoom (effectiveAlign align)).toNat < 2 ^ 32)
    (hcarry : (pagesAsked m.store (.memalloc nbytes align)).any m.store.pages.carries = false) :
    MemoryInv bmkMembase bmkMemsize (m.request (.memalloc nbytes align)) := by
  obtain ⟨hgrants, haligned⟩ := inv.pages_step hbase fits hcarry
  obtain ⟨L, hheap, hperm⟩ := inv.heap
  obtain ⟨answer, new, hsame, hgood, hperm'⟩ := inv.memalloc_answer hbase fits hcarry hperm
  have hrequest := request_memalloc m.store nbytes align
  have hgood' :
      GrantsGood (bmkMemalloc (answering answer) m.store.heap (L.runs.map (·.grant)) nbytes align).2.2 := by
    rw [hsame]
    exact hgood
  obtain ⟨L', hruns, hheap'⟩ := hheap.bmkMemalloc rfl hroom hgood'
  rw [hsame] at hruns hheap'
  dsimp only at hruns
  rw [← hruns] at hperm'
  refine ⟨hgrants, haligned, ⟨L', ?_, hperm'⟩, ?_⟩
  · simp only [Memory.request, hrequest, Memory.liveAfter]
    exact hheap'
  · simp only [Memory.request, hrequest]
    exact inv.running

theorem memfree (inv : MemoryInv bmkMembase bmkMemsize m) {cp : UInt32}
    (hheld : cp = 0 ∨ ∃ l ∈ m.live, l.rv = cp) :
    MemoryInv bmkMembase bmkMemsize (m.request (.memfree cp)) := by
  obtain ⟨L, hheap, hperm⟩ := inv.heap
  rcases hheld with rfl | ⟨l, hl, hrv⟩
  · -- nothing has this pointer, so nothing is forgotten either
    have hnone : m.live.eraseP (fun l => l.rv = 0) = m.live := by
      refine List.eraseP_of_forall_not fun l hl => ?_
      have hrv := (hheap.header_read hl).1
      simpa using hrv
    have hrequest : m.store.request (.memfree 0) = (.done, m.store) := rfl
    simp only [Memory.request, hrequest, Memory.liveAfter, hnone, Memory.takenAfter]
    exact ⟨inv.grants, inv.aligned, ⟨L, hheap, hperm⟩, inv.running⟩
  · -- the entry that is erased is the first with this pointer
    obtain ⟨l', before, after, -, hrv', hlive, herase⟩ :=
      List.exists_of_eraseP (p := fun l => decide (l.rv = cp)) hl (decide_eq_true hrv)
    have hmem : l' ∈ m.live := by simp [hlive]
    have hfree := hheap.bmkMemfree_live hmem
    rw [of_decide_eq_true hrv'] at hfree
    simp only [Memory.request, Store.request, hfree, Memory.liveAfter, herase, Memory.takenAfter]
    exact ⟨inv.grants, inv.aligned, ⟨_, hheap.release hlive, hperm⟩, inv.running⟩

theorem allocpg (hbase : bmkMembase.toNat % 4096 = 0) (fits : bmkMembase.toNat + bmkMemsize.toNat < 2 ^ 32)
    (inv : MemoryInv bmkMembase bmkMemsize m) {howmany : UInt32}
    (hcarry : (pagesAsked m.store (.allocpg howmany)).any m.store.pages.carries = false) :
    MemoryInv bmkMembase bmkMemsize (m.request (.allocpg howmany)) := by
  obtain ⟨hgrants, haligned⟩ := inv.pages_step hbase fits hcarry
  obtain ⟨L, hheap, hperm⟩ := inv.heap
  have hgranted := allocpg_granted m.store.pages howmany
  simp only [request_allocpg] at hgrants haligned
  simp only [Memory.request, request_allocpg, Memory.liveAfter, Memory.takenAfter]
  refine ⟨hgrants, haligned, ⟨L, hheap, ?_⟩, inv.running⟩
  dsimp only
  rw [hgranted]
  by_cases hnull : (m.store.pages.allocpg howmany).1 = 0
  · rw [if_pos hnull, if_pos hnull]
    exact hperm
  · rw [if_neg hnull, if_neg hnull]
    exact (hperm.cons _).trans List.perm_middle.symm

theorem write (inv : MemoryInv bmkMembase bmkMemsize m) {addr : Nat} (byte : UInt8) (hheld : m.Held addr) :
    MemoryInv bmkMembase bmkMemsize (m.request (.write addr byte)) := by
  obtain ⟨L, hheap, hperm⟩ := inv.heap
  refine ⟨inv.grants, inv.aligned, ⟨L, ?_, hperm⟩, inv.running⟩
  rcases hheld with ⟨l, hl, hlo, hhi⟩ | ⟨g, hg, hlo, hhi⟩
  · exact hheap.write hl byte hlo hhi
  · have hruns := List.pairwise_append.mp (grants_perm_apart hperm inv.grants.sound.2)
    refine hheap.frame_outside (e := g.extent) (fun r hr => hruns.2.2 _ (List.mem_map_of_mem hr) g hg)
      fun c hc => ?_
    exact Function.update_of_ne (by omega) _ _

/-- Every request that does not carry keeps the invariant. -/
theorem step (hbase : bmkMembase.toNat % 4096 = 0) (fits : bmkMembase.toNat + bmkMemsize.toNat < 2 ^ 32)
    {m' : Memory} {r : StoreRequest} (inv : MemoryInv bmkMembase bmkMemsize m)
    (hstep : memoryStep m r = some m') (hcarry : (pagesAsked m.store r).any m.store.pages.carries = false) :
    MemoryInv bmkMembase bmkMemsize m' := by
  obtain ⟨-, henabled, rfl⟩ := memoryStep_inv hstep
  cases r with
  | memalloc nbytes align => exact inv.memalloc hbase fits henabled hcarry
  | memfree cp => exact inv.memfree henabled
  | allocpg howmany => exact inv.allocpg hbase fits hcarry
  | write addr byte => exact inv.write byte henabled

theorem request (hbase : bmkMembase.toNat % 4096 = 0) (fits : bmkMembase.toNat + bmkMemsize.toNat < 2 ^ 32)
    (inv : MemoryInv bmkMembase bmkMemsize m) {r : StoreRequest} (henabled : memoryEnabled m r)
    (hcarried : (m.request r).carried = false) : MemoryInv bmkMembase bmkMemsize (m.request r) := by
  simp only [Memory.request, Bool.or_eq_false_iff] at hcarried
  exact inv.step hbase fits (if_pos ⟨inv.running, henabled⟩) hcarried.2

/-- In a run whose requests have not carried. -/
theorem run (hbase : bmkMembase.toNat % 4096 = 0) (fits : bmkMembase.toNat + bmkMemsize.toNat < 2 ^ 32)
    {m' : Memory} {requests : List StoreRequest} (inv : MemoryInv bmkMembase bmkMemsize m)
    (hrun : StepSystem.run memoryStep m requests = some m') (hcarried : m'.carried = false) :
    MemoryInv bmkMembase bmkMemsize m' := by
  have hall : m'.carried = false → MemoryInv bmkMembase bmkMemsize m' := by
    refine run_invariant (I := fun m => m.carried = false → MemoryInv bmkMembase bmkMemsize m) ?_
      (fun _ => inv) hrun
    intro m r m' hinv hstep hcarried
    obtain ⟨-, henabled, rfl⟩ := memoryStep_inv hstep
    exact (hinv (Memory.carried_of_request hcarried)).request hbase fits henabled hcarried
  exact hall hcarried

end MemoryInv

/-! ### What the clients hold -/

/-- Everything the clients hold lies in the region, each piece apart from every other, and the heap is
    partitioned. -/
structure MemorySound (region : Extent) (m : Memory) : Prop where
  live_inside : ∀ l ∈ m.live, l.extent.Inside region
  taken_inside : ∀ g ∈ m.taken, g.extent.Inside region
  apart : (m.live.map Live.extent ++ m.taken.map PageGrant.extent).Pairwise Extent.Apart
  /-- The allocator has cut some of the page runs, and accounts for every block of them. -/
  partitioned : ∃ L core, m.store.pages.granted.Perm (core ++ m.taken) ∧
    HeapPartition L ⟨m.store.heap, core, m.live, m.store.halted⟩

theorem MemoryInv.sound {bmkMembase bmkMemsize : UInt32} {m : Memory}
    (inv : MemoryInv bmkMembase bmkMemsize m) :
    MemorySound ⟨bmkMembase.toNat, bmkMemsize.toNat⟩ m := by
  obtain ⟨L, hheap, hperm⟩ := inv.heap
  have hmanaged : m.store.pages.pages.managed = ⟨bmkMembase.toNat, bmkMemsize.toNat⟩ := by
    simp only [PageState.managed, inv.grants.membase, inv.grants.memsize]
  have hinside :
      ∀ g ∈ L.runs.map (·.grant) ++ m.taken, g.extent.Inside ⟨bmkMembase.toNat, bmkMemsize.toNat⟩ := by
    intro g hg
    rw [← hmanaged]
    exact inv.grants.sound.1 g (hperm.mem_iff.mpr hg)
  obtain ⟨-, htaken, hcross⟩ := List.pairwise_append.mp (grants_perm_apart hperm inv.grants.sound.2)
  refine ⟨fun l hl => ?_, fun g hg => hinside g (List.mem_append_right _ hg), ?_, ?_⟩
  · obtain ⟨r, hr, hin⟩ := hheap.live_run hl
    have hrun := hinside r.grant (List.mem_append_left _ (List.mem_map_of_mem hr))
    exact ⟨hrun.1.trans hin.1, hin.2.trans hrun.2⟩
  · refine List.pairwise_append.mpr ⟨List.pairwise_map.mpr hheap.live_apart, List.pairwise_map.mpr htaken,
      ?_⟩
    intro e he f hf
    obtain ⟨l, hl, rfl⟩ := List.mem_map.mp he
    obtain ⟨g, hg, rfl⟩ := List.mem_map.mp hf
    obtain ⟨r, hr, hin⟩ := hheap.live_run hl
    exact (hcross r.grant (List.mem_map_of_mem hr) g hg).mono hin ⟨le_rfl, le_rfl⟩
  · have hworld : HeapInv.World ⟨m.store.heap, L.runs.map (·.grant), m.live, m.store.halted⟩ :=
      ⟨L, hheap, rfl, inv.running⟩
    obtain ⟨L', hpartition⟩ := hworld.partition
    exact ⟨L', _, hperm, hpartition⟩

end RumpBaremetal
