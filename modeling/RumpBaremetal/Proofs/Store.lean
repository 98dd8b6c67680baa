/-
Module: RumpBaremetal.Proofs.Store
Layer: Proofs
Purpose: What a request leaves behind when it is answered `NULL`.  The answers of the store depend on the
  page counter through its byte offset alone.  A request that fails before it asks for pages leaves the
  store as it was for every later request; one that has asked for pages has moved the offset, and a single
  later request can tell.
Trusted boundary: none (fully proved)
Main exports: Same, answers_same, allocpg_tells_apart, Harmless, Clean, failed_request_effect
-/
import RumpBaremetal.Kernel.Store
import RumpBaremetal.Proofs.Memalloc
import RumpBaremetal.Proofs.Pages

namespace RumpBaremetal

open StepSystem

/-! ### `bmk_memalloc` in two parts -/

/-- `morecore` asks the page source once, and the heap that it leaves depends on the pointer alone. -/
theorem morecore_asks {Pages : Type*} (allocpg : Pages → UInt32 → UInt32 × Pages) (h : Heap)
    (bucket : Nat) :
    ∃ heap : UInt32 → Heap, (∀ op, (heap op).pagesz = h.pagesz ∧ (heap op).pagebucket = h.pagebucket) ∧
      ∀ pages, morecore allocpg h pages bucket =
        (heap (allocpg pages
            (1 <<< UInt32.ofNat (if bucket < h.pagebucket then 0 else bucket - h.pagebucket))).1,
          (allocpg pages
            (1 <<< UInt32.ofNat (if bucket < h.pagebucket then 0 else bucket - h.pagebucket))).2) := by
  refine ⟨fun op => (morecore (fun (_ : Unit) _ => (op, ())) h () bucket).1, ?_, ?_⟩
  · intro op
    unfold morecore corealloc
    dsimp only
    split <;> exact ⟨rfl, rfl⟩
  · intro pages
    unfold morecore corealloc
    dsimp only
    generalize allocpg pages
      (1 <<< UInt32.ofNat (if bucket < h.pagebucket then 0 else bucket - h.pagebucket)) = answer
    by_cases hnull : answer.1 = 0
    · rw [if_pos hnull, if_pos hnull]
    · rw [if_neg hnull, if_neg hnull]

theorem request_memalloc (s : Store) (nbytes align : UInt32) :
    s.request (.memalloc nbytes align) =
      (.ptr (bmkMemalloc PageHistory.allocpg s.heap s.pages nbytes align).1,
        { s with
          heap := (bmkMemalloc PageHistory.allocpg s.heap s.pages nbytes align).2.1
          pages := (bmkMemalloc PageHistory.allocpg s.heap s.pages nbytes align).2.2 }) := by
  simp only [Store.request]

theorem request_allocpg (s : Store) (howmany : UInt32) :
    s.request (.allocpg howmany) =
      (.ptr (s.pages.allocpg howmany).1, { s with pages := (s.pages.allocpg howmany).2 }) := by
  simp only [Store.request]

/-- What a request does to the page source. -/
theorem request_pages (s : Store) (r : StoreRequest) :
    (s.request r).2.pages =
      match pagesAsked s r with
      | none => s.pages
      | some howmany => (s.pages.allocpg howmany).2 := by
  cases r with
  | memalloc nbytes align =>
      simp only [request_memalloc, bmkMemalloc_eq, pagesAsked]
      cases classOf (initPagesz s.heap) nbytes align with
      | none => rfl
      | some cls =>
          obtain ⟨heap, -, hmorecore⟩ := morecore_asks PageHistory.allocpg (initPagesz s.heap) cls
          simp only [serve_pages, refill, Option.bind_some, hmorecore]
          by_cases hempty : (initPagesz s.heap).nextf cls = 0
          · simp only [if_pos hempty]
          · simp only [if_neg hempty]
  | memfree cp =>
      simp only [Store.request, pagesAsked]
      split <;> rfl
  | allocpg howmany => rfl
  | write addr byte => rfl

/-! ### The page source as its requests see it -/

/-- The same memory and the same byte offset.  The counter itself may differ by multiples of `2^20`. -/
structure SamePages (p p' : PageHistory) : Prop where
  membase : p'.pages.bmkMembase = p.pages.bmkMembase
  memsize : p'.pages.bmkMemsize = p.pages.bmkMemsize
  offset : p'.pages.offset = p.pages.offset

theorem SamePages.refl (p : PageHistory) : SamePages p p := ⟨rfl, rfl, rfl⟩

theorem SamePages.allocpg {p p' : PageHistory} (h : SamePages p p') (howmany : UInt32) :
    (p.allocpg howmany).1 = (p'.allocpg howmany).1 ∧
      SamePages (p.allocpg howmany).2 (p'.allocpg howmany).2 := by
  obtain ⟨hbase, hsize, hoff⟩ := allocpg_state p howmany
  obtain ⟨hbase', hsize', hoff'⟩ := allocpg_state p' howmany
  refine ⟨?_, ?_, ?_, ?_⟩
  · rw [← UInt32.toNat_inj, allocpg_toNat, allocpg_toNat, h.membase, h.memsize, h.offset]
  · rw [hbase, hbase', h.membase]
  · rw [hsize, hsize', h.memsize]
  · rw [hoff, hoff', h.offset]

theorem offset_dvd (s : PageState) : s.offset % 4096 = 0 := by
  simp only [PageState.offset, UInt32.toNat_mul, pageSize, UInt32.toNat_ofNat]
  omega

/-- A number of pages that brings the offset to zero. -/
theorem exists_rewind (p : PageHistory) :
    ∃ howmany : UInt32, p.pages.offset + howmany.toNat * 4096 = 2 ^ 32 := by
  have hlt := offset_lt p.pages
  have hdvd := offset_dvd p.pages
  refine ⟨UInt32.ofNat (2 ^ 20 - p.pages.offset / 4096), ?_⟩
  rw [UInt32.toNat_ofNat', Nat.mod_eq_of_lt (by omega)]
  omega

/-- Two offsets are told apart by one request.  A request that brings one of them to zero is granted there;
    the other page source refuses it or grants it at another address, unless the address is `NULL`, and then
    the request that brings the other offset to zero does it. -/
theorem allocpg_tells_apart {p p' : PageHistory} (hbase : p'.pages.bmkMembase = p.pages.bmkMembase)
    (hsize : p'.pages.bmkMemsize = p.pages.bmkMemsize) (hoff : p'.pages.offset ≠ p.pages.offset) :
    ∃ howmany, (p'.allocpg howmany).1 ≠ (p.allocpg howmany).1 := by
  have hlt := offset_lt p.pages
  have hlt' := offset_lt p'.pages
  have hbaselt := UInt32.toNat_lt p.pages.bmkMembase
  obtain ⟨m, hm⟩ := exists_rewind p
  obtain ⟨m', hm'⟩ := exists_rewind p'
  by_cases hnull : (p.pages.bmkMembase.toNat + p.pages.offset) % 2 ^ 32 = 0
  · refine ⟨m', fun heq => ?_⟩
    have hnat := congrArg UInt32.toNat heq
    rw [allocpg_toNat, allocpg_toNat, hbase, hsize, hm', if_pos (by omega), hnull, ite_self] at hnat
    omega
  · refine ⟨m, fun heq => ?_⟩
    have hnat := congrArg UInt32.toNat heq
    rw [allocpg_toNat, allocpg_toNat, hbase, hsize, hm, if_pos (c := 2 ^ 32 % 2 ^ 32 ≤ _) (by omega)]
      at hnat
    split at hnat
    · omega
    · omega

/-! ### Stores that answer alike -/

/-- The allocator reads nothing of the page source but its answers. -/
theorem serve_same {p p' : PageHistory} (hp : SamePages p p') (h : Heap) (cls : Nat) (align : UInt32) :
    (serve PageHistory.allocpg h p cls align).1 = (serve PageHistory.allocpg h p' cls align).1 ∧
      (serve PageHistory.allocpg h p cls align).2.1 = (serve PageHistory.allocpg h p' cls align).2.1 ∧
      SamePages (serve PageHistory.allocpg h p cls align).2.2
        (serve PageHistory.allocpg h p' cls align).2.2 := by
  have hrefill : (refill PageHistory.allocpg h p cls).1 = (refill PageHistory.allocpg h p' cls).1 ∧
      SamePages (refill PageHistory.allocpg h p cls).2 (refill PageHistory.allocpg h p' cls).2 := by
    unfold refill
    split
    · obtain ⟨heap, -, hmorecore⟩ := morecore_asks PageHistory.allocpg h cls
      obtain ⟨hrv, hpages⟩ :=
        hp.allocpg (1 <<< UInt32.ofNat (if cls < h.pagebucket then 0 else cls - h.pagebucket))
      rw [hmorecore, hmorecore, hrv]
      exact ⟨rfl, hpages⟩
    · exact ⟨rfl, hp⟩
  simp only [serve, hrefill.1]
  split <;> exact ⟨rfl, rfl, hrefill.2⟩

/-- The same heap once the page size is set up, on the same pages. -/
structure Same (s s' : Store) : Prop where
  heap : initPagesz s'.heap = initPagesz s.heap
  pages : SamePages s.pages s'.pages
  halted : s'.halted = s.halted

namespace Same

variable {s s' : Store}

theorem mem (h : Same s s') : s'.heap.mem = s.heap.mem := by
  rw [← initPagesz_mem s'.heap, ← initPagesz_mem s.heap, h.heap]

theorem nextf (h : Same s s') : s'.heap.nextf = s.heap.nextf := by
  rw [← initPagesz_nextf s'.heap, ← initPagesz_nextf s.heap, h.heap]

/-- Setting memory and free lists alike keeps the heaps alike. -/
theorem setHeap (h : Same s s') (mem : ByteMem) (nextf : Nat → UInt32) :
    Same { s with heap := { s.heap with mem := mem, nextf := nextf } }
      { s' with heap := { s'.heap with mem := mem, nextf := nextf } } := by
  refine ⟨?_, h.pages, h.halted⟩
  rw [initPagesz_setHeap s'.heap, initPagesz_setHeap s.heap, h.heap]

theorem request (h : Same s s') (r : StoreRequest) :
    (s.request r).1 = (s'.request r).1 ∧ Same (s.request r).2 (s'.request r).2 := by
  cases r with
  | memalloc nbytes align =>
      simp only [request_memalloc, bmkMemalloc_eq, h.heap]
      cases classOf (initPagesz s.heap) nbytes align with
      | none => exact ⟨rfl, rfl, h.pages, h.halted⟩
      | some cls =>
          obtain ⟨hrv, hheap, hpages⟩ := serve_same h.pages (initPagesz s.heap) cls (effectiveAlign align)
          exact ⟨congrArg Answer.ptr hrv, congrArg initPagesz hheap.symm, hpages, h.halted⟩
  | memfree cp =>
      rcases bmkMemfree_cases h.mem h.nextf cp with ⟨hfails, hfails'⟩ | ⟨mem, nextf, hfree, hfree'⟩
      · simp only [Store.request, hfails, hfails']
        exact ⟨trivial, h.heap, h.pages, rfl⟩
      · simp only [Store.request, hfree, hfree']
        exact ⟨trivial, h.setHeap mem nextf⟩
  | allocpg howmany =>
      obtain ⟨hrv, hpages⟩ := h.pages.allocpg howmany
      rw [request_allocpg, request_allocpg]
      exact ⟨congrArg Answer.ptr hrv, h.heap, hpages, h.halted⟩
  | write addr byte =>
      have hset := h.setHeap (Function.update s.heap.mem addr byte) s.heap.nextf
      refine ⟨rfl, ?_⟩
      simp only [Store.request, h.mem]
      rw [← h.nextf] at hset
      exact ⟨by simpa only [h.nextf] using hset.heap, hset.pages, hset.halted⟩

end Same

theorem answers_same (later : List StoreRequest) :
    ∀ s s' : Store, Same s s' → s'.answers later = s.answers later := by
  induction later with
  | nil => intro s s' _; rfl
  | cons r rs ih =>
      intro s s' h
      obtain ⟨hanswer, hsame⟩ := h.request r
      simp only [Store.answers, h.halted, hanswer, ih _ _ hsame]

/-! ### Reachable stores -/

theorem serve_geometry (h : Heap) (pages : PageHistory) (cls : Nat) (align : UInt32) :
    (serve PageHistory.allocpg h pages cls align).2.1.pagesz = h.pagesz ∧
      (serve PageHistory.allocpg h pages cls align).2.1.pagebucket = h.pagebucket := by
  have hrefill : (refill PageHistory.allocpg h pages cls).1.pagesz = h.pagesz ∧
      (refill PageHistory.allocpg h pages cls).1.pagebucket = h.pagebucket := by
    unfold refill
    split
    · obtain ⟨heap, hgeometry, hmorecore⟩ := morecore_asks PageHistory.allocpg h cls
      rw [hmorecore]
      exact hgeometry _
    · exact ⟨rfl, rfl⟩
  simp only [serve]
  split <;> exact hrefill

theorem Heap.Ready.setHeap {h : Heap} (hready : h.Ready) (mem : ByteMem) (nextf : Nat → UInt32) :
    Heap.Ready { h with mem := mem, nextf := nextf } := hready

theorem Heap.Ready.request {s : Store} (hready : s.heap.Ready) (r : StoreRequest) :
    (s.request r).2.heap.Ready := by
  cases r with
  | memalloc nbytes align =>
      simp only [request_memalloc, bmkMemalloc_eq]
      cases classOf (initPagesz s.heap) nbytes align with
      | none => exact Or.inr hready.init
      | some cls =>
          obtain ⟨hsz, hbucket⟩ := serve_geometry (initPagesz s.heap) s.pages cls (effectiveAlign align)
          simp only
          refine Or.inr ⟨?_, ?_⟩
          · rw [hsz, hready.init.1]
          · rw [hbucket, hready.init.2]
  | memfree cp =>
      rcases bmkMemfree_cases (h := s.heap) rfl rfl cp with ⟨hfails, -⟩ | ⟨mem, nextf, hfree, -⟩
      · simp only [Store.request, hfails]
        exact hready
      · simp only [Store.request, hfree]
        exact hready.setHeap mem nextf
  | allocpg howmany =>
      rw [request_allocpg]
      exact hready
  | write addr byte => exact hready.setHeap _ s.heap.nextf

theorem storeStep_inv {s s' : Store} {r : StoreRequest} (h : storeStep s r = some s') :
    s.halted = false ∧ s' = (s.request r).2 := by
  unfold storeStep at h
  split at h
  · cases h
  · rename_i hlive
    exact ⟨Bool.eq_false_iff.mpr hlive, (Option.some.inj h).symm⟩

theorem ready_run {mem : ByteMem} {bmkMembase bmkMemsize : UInt32} {requests : List StoreRequest}
    {s : Store} (hrun : run storeStep (.boot mem bmkMembase bmkMemsize) requests = some s) :
    s.heap.Ready := by
  refine run_invariant (I := fun s => s.heap.Ready) ?_ (.inl rfl) hrun
  intro s r s' hready hstep
  rw [(storeStep_inv hstep).2]
  exact hready.request r

/-! ### A request that fails -/

/-- The request fails without a trace: pages are asked for by a multiple of the whole address space, or
    memory with an alignment that is no power of two or with more bytes than the largest class has. -/
def Harmless : StoreRequest → Prop
  | .allocpg howmany => howmany.toNat % 2 ^ 20 = 0
  | .memalloc nbytes align =>
      align &&& (align - 1) ≠ 0 ∨ 2 ^ 31 < (nbytes + headerRoom (effectiveAlign align)).toNat
  | .memfree _ => True
  | .write _ _ => True

theorem harmless_same {s : Store} (hready : s.heap.Ready) {r : StoreRequest}
    (hnull : (s.request r).1 = .ptr 0) (hharmless : Harmless r) : Same s (s.request r).2 := by
  cases r with
  | memalloc nbytes align =>
      obtain ⟨hsz, hbucket⟩ := hready.init
      have hclass : classOf (initPagesz s.heap) nbytes align = none := by
        cases hsome : classOf (initPagesz s.heap) nbytes align with
        | none => rfl
        | some cls =>
            obtain ⟨hcls, htest, hroom⟩ := classOf_fits hsz hbucket hsome
            have hlargest := largest_block hcls
            rcases hharmless with halign | hlarge
            · exact absurd htest halign
            · omega
      simp only [request_memalloc, bmkMemalloc_eq, hclass]
      exact ⟨initPagesz_idem s.heap, .refl _, rfl⟩
  | memfree cp =>
      simp only [Store.request] at hnull
      split at hnull <;> cases hnull
  | allocpg howmany =>
      obtain ⟨hbase, hsize, hoff⟩ := allocpg_state s.pages howmany
      have hlt := offset_lt s.pages.pages
      refine ⟨rfl, ⟨hbase, hsize, hoff.trans ?_⟩, rfl⟩
      simp only [Harmless] at hharmless
      omega
  | write addr byte => cases hnull

/-- Pages that were asked for stay asked for. -/
theorem pagesAsked_offset {s : Store} (hready : s.heap.Ready) {r : StoreRequest} {howmany : UInt32}
    (hasked : pagesAsked s r = some howmany) (hharmful : ¬Harmless r) : howmany.toNat % 2 ^ 20 ≠ 0 := by
  cases r with
  | memalloc nbytes align =>
      obtain ⟨hsz, hbucket⟩ := hready.init
      obtain ⟨cls, hclass, hempty⟩ := Option.bind_eq_some_iff.mp hasked
      obtain ⟨hcls, -, -⟩ := classOf_fits hsz hbucket hclass
      split at hempty
      · cases hempty
        rw [one_shiftLeft_toNat (by split <;> omega), hbucket]
        have hbound : 2 ^ (if cls < 7 then 0 else cls - 7) < 2 ^ 20 :=
          Nat.pow_lt_pow_right (by decide) (by split <;> omega)
        rw [Nat.mod_eq_of_lt hbound]
        exact (Nat.two_pow_pos _).ne'
      · cases hempty
  | memfree cp => cases hasked
  | allocpg howmany' =>
      cases hasked
      exact hharmful
  | write addr byte => cases hasked

theorem asked_tells_apart {s : Store} (hready : s.heap.Ready) (hlive : s.halted = false) {r : StoreRequest}
    (hnull : (s.request r).1 = .ptr 0) (hasked : pagesAsked s r ≠ none) (hharmful : ¬Harmless r) :
    ∃ later, (s.request r).2.answers later ≠ s.answers later := by
  obtain ⟨howmany, hsome⟩ := Option.ne_none_iff_exists'.mp hasked
  have hpages := request_pages s r
  rw [hsome] at hpages
  obtain ⟨hbase, hsize, hoff⟩ := allocpg_state s.pages howmany
  have hmoved : (s.request r).2.pages.pages.offset ≠ s.pages.pages.offset := by
    have hne := pagesAsked_offset hready hsome hharmful
    have hlt := offset_lt s.pages.pages
    rw [hpages, hoff]
    omega
  have hsameBase : (s.request r).2.pages.pages.bmkMembase = s.pages.pages.bmkMembase := by
    rw [hpages, hbase]
  have hsameSize : (s.request r).2.pages.pages.bmkMemsize = s.pages.pages.bmkMemsize := by
    rw [hpages, hsize]
  obtain ⟨m, hm⟩ := allocpg_tells_apart hsameBase hsameSize hmoved
  have hlive' : (s.request r).2.halted = false := by
    cases r with
    | memalloc nbytes align =>
        rw [request_memalloc]
        exact hlive
    | memfree cp => cases hsome
    | allocpg n =>
        rw [request_allocpg]
        exact hlive
    | write addr byte => cases hsome
  refine ⟨[.allocpg m], fun heq => hm ?_⟩
  simp only [Store.answers, hlive, hlive', Bool.false_eq_true, if_false, request_allocpg] at heq
  exact Answer.ptr.inj (List.cons.inj heq).1

/-! ### Runs without a harmful failure -/

/-- The pages that the request asks for, if any, do not carry the counter past `2^32`, and are granted or
    leave the offset alone. -/
def Clean (s : Store) (r : StoreRequest) : Prop :=
  ∀ howmany ∈ pagesAsked s r, NoCarry s.pages howmany ∧
    ((s.pages.allocpg howmany).1 = 0 → howmany.toNat % 2 ^ 20 = 0)

-- by name, lest all words be tried one by one
instance (s : Store) (r : StoreRequest) : Decidable (Clean s r) := (pagesAsked s r).decidableForallMem

/-- The offset counts the pages granted. -/
structure Counted (bmkMembase bmkMemsize : UInt32) (p : PageHistory) : Prop where
  membase : p.pages.bmkMembase = bmkMembase
  memsize : p.pages.bmkMemsize = bmkMemsize
  offset : p.pages.offset = p.total * 4096
  inside : p.pages.offset ≤ bmkMemsize.toNat

namespace Counted

variable {bmkMembase bmkMemsize : UInt32} {p : PageHistory}

theorem boot : Counted bmkMembase bmkMemsize (.boot bmkMembase bmkMemsize) :=
  ⟨rfl, rfl, by simp [PageHistory.boot, PageState.offset, PageHistory.total],
    by simp [PageHistory.boot, PageState.offset]⟩

/-- Without a carry, a request is granted exactly if its pages fit behind those granted before. -/
theorem granted_iff (h : Counted bmkMembase bmkMemsize p) (hbase : 0 < bmkMembase)
    (hend : bmkMembase.toNat + bmkMemsize.toNat < 2 ^ 32) {howmany : UInt32} (hcarry : NoCarry p howmany) :
    (p.allocpg howmany).1 ≠ 0 ↔ (p.total + howmany.toNat) * 4096 ≤ bmkMemsize.toNat := by
  have hpos : 0 < bmkMembase.toNat := UInt32.lt_iff_toNat_lt.mp hbase
  have hoff := h.offset
  have hin := h.inside
  have hcarry' : p.pages.offset + howmany.toNat * 4096 < 2 ^ 32 ∨
      bmkMemsize.toNat < (p.pages.offset + howmany.toNat * 4096) % 2 ^ 32 := by
    rcases hcarry with hsmall | hbig
    · exact .inl hsmall
    · rw [UInt32.lt_iff_toNat_lt, offset_add, h.memsize] at hbig
      exact .inr hbig
  rw [ne_eq, ← UInt32.toNat_inj, allocpg_toNat, h.membase, h.memsize]
  rw [show (0 : UInt32).toNat = 0 from rfl]
  split <;> omega

theorem allocpg (h : Counted bmkMembase bmkMemsize p) (hbase : 0 < bmkMembase)
    (hend : bmkMembase.toNat + bmkMemsize.toNat < 2 ^ 32) {howmany : UInt32} (hcarry : NoCarry p howmany)
    (hfail : (p.allocpg howmany).1 = 0 → howmany.toNat % 2 ^ 20 = 0) :
    Counted bmkMembase bmkMemsize (p.allocpg howmany).2 := by
  obtain ⟨hmembase, hmemsize, hoff⟩ := allocpg_state p howmany
  have hgranted := h.granted_iff hbase hend hcarry
  have hcount := h.offset
  have hin := h.inside
  have htotal : (p.allocpg howmany).2.total =
      if (p.allocpg howmany).1 = 0 then p.total else howmany.toNat + p.total := by
    rw [PageHistory.total, allocpg_granted]
    split
    · rfl
    · exact List.sum_cons
  refine ⟨hmembase.trans h.membase, hmemsize.trans h.memsize, ?_, ?_⟩
  · rw [hoff, htotal]
    split
    · rename_i hnull
      have hround := hfail hnull
      omega
    · rename_i hrv
      have hfits := hgranted.mp hrv
      omega
  · rw [hoff]
    by_cases hnull : (p.allocpg howmany).1 = 0
    · have hround := hfail hnull
      omega
    · have hfits := hgranted.mp hnull
      omega

theorem run {mem : ByteMem} {requests : List StoreRequest} {s : Store} (hbase : 0 < bmkMembase)
    (hend : bmkMembase.toNat + bmkMemsize.toNat < 2 ^ 32)
    (hmeets : Meets storeStep Clean (.boot mem bmkMembase bmkMemsize) requests)
    (hrun : StepSystem.run storeStep (.boot mem bmkMembase bmkMemsize) requests = some s) :
    Counted bmkMembase bmkMemsize s.pages := by
  refine run_invariant_of_meets (I := fun s => Counted bmkMembase bmkMemsize s.pages) ?_ boot hmeets hrun
  intro s r s' h hclean hstep
  rw [(storeStep_inv hstep).2, request_pages]
  cases hasked : pagesAsked s r with
  | none => exact h
  | some howmany =>
      obtain ⟨hcarry, hfail⟩ := hclean howmany hasked
      exact h.allocpg hbase hend hcarry hfail

end Counted

/-- What a request answered `NULL` leaves behind, in every state that the store can reach: nothing that a
    later request could see if it failed harmlessly; something that a later request does see if it asked for
    pages.  In a run without a harmful failure, pages are granted exactly if they fit behind those granted
    before. -/
theorem failed_request_effect (mem : ByteMem) (bmkMembase bmkMemsize : UInt32)
    (requests : List StoreRequest) (s : Store)
    (hrun : run storeStep (.boot mem bmkMembase bmkMemsize) requests = some s) :
    (∀ r, (s.request r).1 = .ptr 0 →
      (Harmless r → ∀ later, (s.request r).2.answers later = s.answers later) ∧
      (s.halted = false → pagesAsked s r ≠ none → ¬Harmless r →
        ∃ later, (s.request r).2.answers later ≠ s.answers later)) ∧
    (0 < bmkMembase → bmkMembase.toNat + bmkMemsize.toNat < 2 ^ 32 →
      Meets storeStep Clean (.boot mem bmkMembase bmkMemsize) requests →
      ∀ howmany, NoCarry s.pages howmany →
      ((s.request (.allocpg howmany)).1 ≠ .ptr 0 ↔
        (s.pages.total + howmany.toNat) * 4096 ≤ bmkMemsize.toNat)) := by
  have hready := ready_run hrun
  constructor
  · intro r hnull
    constructor
    · intro hharmless later
      exact answers_same later _ _ (harmless_same hready hnull hharmless)
    · intro hlive hasked hharmful
      exact asked_tells_apart hready hlive hnull hasked hharmful
  · intro hbase hend hmeets howmany hcarry
    rw [← (Counted.run hbase hend hmeets hrun).granted_iff hbase hend hcarry, request_allocpg]
    simp

/-- 16 MiB at 2 MiB with one page granted: a request beyond every class leaves no trace, a request for 32
    MiB does, and the last page is still there to be had. -/
theorem failed_request_effect_small :
    ∃ s, run storeStep (.boot (fun _ => 0) 0x200000 0x1000000) [.allocpg 1] = some s ∧
      (∀ later, (s.request (.memalloc 0xc0000000 8)).2.answers later = s.answers later) ∧
      (∃ later, (s.request (.allocpg 0x2000)).2.answers later ≠ s.answers later) ∧
      (s.request (.allocpg 0xfff)).1 ≠ .ptr 0 := by
  obtain ⟨heffect, hfits⟩ := failed_request_effect (fun _ => 0) 0x200000 0x1000000 [.allocpg 1] _ rfl
  refine ⟨_, rfl, ?_, ?_, ?_⟩
  · exact (heffect (.memalloc 0xc0000000 8) (by decide)).1 (.inr (by decide))
  · exact (heffect (.allocpg 0x2000) (by decide)).2 rfl (by decide) (by unfold Harmless; decide)
  · exact (hfits (by decide) (by decide) (.cons (by decide) rfl trivial) 0xfff (by decide)).mpr (by decide)

/-- After a request for more pages than there are, not even one page is granted in 16 MiB of free memory. -/
theorem failed_allocpg_lasts :
    ((Store.boot (fun _ => 0) 0x200000 0x1000000).request (.allocpg 0x2000)).1 = .ptr 0 ∧
      ((Store.boot (fun _ => 0) 0x200000 0x1000000).request (.allocpg 0x2000)).2.answers [.allocpg 1] =
      [.ptr 0] ∧
      (Store.boot (fun _ => 0) 0x200000 0x1000000).answers [.allocpg 1] = [.ptr 0x200000] := by
  decide

end RumpBaremetal
