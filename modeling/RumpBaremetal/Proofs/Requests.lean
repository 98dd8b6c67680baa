/-
Module: RumpBaremetal.Proofs.Requests
Layer: Proofs
Purpose: Requests to the memory of the running kernel, one after the other and by the rules.  A byte behind
  a pointer that somebody holds changes only when it is written to, for as long as the pointer is not given
  back, whatever else is allocated and freed meanwhile; and a byte outside the region does not change at
  all.
Trusted boundary: none (fully proved)
Main exports: Live.block, Reaches, ReachesBy, MemoryInv.free_held, MemoryInv.write_held,
  MemoryInv.writeBytes_held, HeapInv.alloc_outside, MemoryInv.writeBytes_outside, ReachesBy.spares,
  ReachesBy.spares_outside
-/
import RumpBaremetal.Proofs.Memory
import RumpBaremetal.Proofs.Realloc

namespace RumpBaremetal

open ByteMem StepSystem

/-- A live allocation by pointer and size. -/
def Live.block (l : Live) : UInt32 × UInt32 := (l.rv, l.nbytes)

/-- Requests by the rules lead from the one memory to the other. -/
def Reaches (m m' : Memory) : Prop := ∃ requests, run memoryStep m requests = some m'

/-- The same with nothing but requests of one kind. -/
def ReachesBy (P : StoreRequest → Prop) (m m' : Memory) : Prop :=
  ∃ requests, run memoryStep m requests = some m' ∧ ∀ r ∈ requests, P r

theorem Reaches.refl (m : Memory) : Reaches m m := ⟨[], rfl⟩

theorem Reaches.trans {m m' m'' : Memory} (h : Reaches m m') (h' : Reaches m' m'') : Reaches m m'' := by
  obtain ⟨requests, hrun⟩ := h
  obtain ⟨requests', hrun'⟩ := h'
  refine ⟨requests ++ requests', ?_⟩
  rw [run_append, hrun]
  exact hrun'

namespace ReachesBy

variable {P : StoreRequest → Prop} {m m' m'' : Memory}

theorem refl (m : Memory) : ReachesBy P m m := ⟨[], rfl, fun _ hr => absurd hr List.not_mem_nil⟩

theorem trans (h : ReachesBy P m m') (h' : ReachesBy P m' m'') : ReachesBy P m m'' := by
  obtain ⟨requests, hrun, hall⟩ := h
  obtain ⟨requests', hrun', hall'⟩ := h'
  refine ⟨requests ++ requests', ?_, fun r hr => ?_⟩
  · rw [run_append, hrun]
    exact hrun'
  · rcases List.mem_append.mp hr with hr | hr
    · exact hall r hr
    · exact hall' r hr

theorem request (hrunning : m.store.halted = false) {r : StoreRequest} (henabled : memoryEnabled m r)
    (hr : P r) :
    ReachesBy P m (m.request r) := by
  refine ⟨[r], ?_, fun r' hr' => ?_⟩
  · simp only [run, memoryStep, if_pos (And.intro hrunning henabled)]
  · rwa [List.mem_singleton.mp hr']

theorem reaches (h : ReachesBy P m m') : Reaches m m' := by
  obtain ⟨requests, hrun, -⟩ := h
  exact ⟨requests, hrun⟩

end ReachesBy

namespace Memory

variable {m : Memory}

/-- Only allocations ask for pages. -/
@[simp] theorem request_memfree_carried (m : Memory) (cp : UInt32) :
    (m.request (.memfree cp)).carried = m.carried := by
  simp [Memory.request, pagesAsked]

@[simp] theorem request_write_carried (m : Memory) (addr : Nat) (byte : UInt8) :
    (m.request (.write addr byte)).carried = m.carried := by
  simp [Memory.request, pagesAsked]

theorem request_memalloc_live {nbytes align rv : UInt32}
    (hanswer : (m.store.request (.memalloc nbytes align)).1 = .ptr rv) :
    (m.request (.memalloc nbytes align)).live.map Live.block =
      if rv = 0 then m.live.map Live.block else (rv, nbytes) :: m.live.map Live.block := by
  simp only [Memory.request, hanswer, Memory.liveAfter]
  split
  · rfl
  · rfl

/-! ### Several bytes -/

@[simp] theorem writeBytes_live (bytes : List UInt8) :
    ∀ (m : Memory) (addr : Nat), (m.writeBytes addr bytes).live = m.live := by
  induction bytes with
  | nil => exact fun _ _ => rfl
  | cons byte rest ih => exact fun m addr => ih (m.request (.write addr byte)) (addr + 1)

@[simp] theorem writeBytes_carried (bytes : List UInt8) :
    ∀ (m : Memory) (addr : Nat), (m.writeBytes addr bytes).carried = m.carried := by
  induction bytes with
  | nil => exact fun _ _ => rfl
  | cons byte rest ih =>
      intro m addr
      rw [Memory.writeBytes, ih, request_write_carried]

/-- What is written is read back, and the rest is as it was. -/
theorem writeBytes_mem (bytes : List UInt8) : ∀ (m : Memory) (addr b : Nat),
    (m.writeBytes addr bytes).store.heap.mem b =
      if addr ≤ b ∧ b < addr + bytes.length then bytes.getD (b - addr) 0 else m.store.heap.mem b := by
  induction bytes with
  | nil =>
      intro m addr b
      rw [List.length_nil, if_neg (by omega), Memory.writeBytes]
  | cons byte rest ih =>
      intro m addr b
      have hwrite : (m.request (.write addr byte)).store.heap.mem b =
          if b = addr then byte else m.store.heap.mem b := Function.update_apply _ _ _ _
      rw [Memory.writeBytes, ih, hwrite, List.length_cons]
      by_cases hb : b = addr
      · subst hb
        rw [if_neg (by omega), if_pos rfl, if_pos (by omega), Nat.sub_self, List.getD_cons_zero]
      · by_cases hin : addr + 1 ≤ b ∧ b < addr + 1 + rest.length
        · obtain ⟨i, rfl⟩ := Nat.exists_eq_add_of_le hin.1
          rw [if_pos hin, if_pos (by omega), Nat.add_sub_cancel_left, Nat.add_assoc,
            Nat.add_sub_cancel_left,
            Nat.add_comm 1 i, List.getD_cons_succ]
        · rw [if_neg hin, if_neg hb, if_neg (by omega)]

end Memory

namespace MemoryInv

variable {P : StoreRequest → Prop} {bmkMembase bmkMemsize : UInt32} {m : Memory}

theorem reaches (hbase : bmkMembase.toNat % 4096 = 0)
    (fits : bmkMembase.toNat + bmkMemsize.toNat < 2 ^ 32) {m' : Memory}
    (inv : MemoryInv bmkMembase bmkMemsize m) (h : Reaches m m') (hcarried : m'.carried = false) :
    MemoryInv bmkMembase bmkMemsize m' := by
  obtain ⟨requests, hrun⟩ := h
  exact inv.run hbase fits hrun hcarried

theorem block_ne_null (inv : MemoryInv bmkMembase bmkMemsize m) {c : UInt32 × UInt32}
    (hc : c ∈ m.live.map Live.block) : c.1 ≠ 0 := by
  obtain ⟨L, hheap, -⟩ := inv.heap
  obtain ⟨l, hl, rfl⟩ := List.mem_map.mp hc
  exact (hheap.header_read hl).1

theorem free_null (inv : MemoryInv bmkMembase bmkMemsize m) : (m.request (.memfree 0)).live = m.live := by
  refine List.eraseP_of_forall_not fun l hl => ?_
  have hne := inv.block_ne_null (List.mem_map_of_mem hl)
  simpa [Live.block] using hne

/-- A block that is held passes the checks of `bmk_memfree`. -/
theorem free_done (inv : MemoryInv bmkMembase bmkMemsize m) {c : UInt32 × UInt32}
    (hc : c ∈ m.live.map Live.block) :
    (m.store.request (.memfree c.1)).1 = .done := by
  obtain ⟨L, hheap, -⟩ := inv.heap
  obtain ⟨l, hl, rfl⟩ := List.mem_map.mp hc
  have hfree := hheap.bmkMemfree_live hl
  simp only [Store.request, Live.block, hfree]

/-- Giving back one of the blocks that are held leaves the others. -/
theorem free_held (inv : MemoryInv bmkMembase bmkMemsize m) {c : UInt32 × UInt32}
    {rest : List (UInt32 × UInt32)} (hperm : (m.live.map Live.block).Perm (c :: rest))
    (hc : P (.memfree c.1)) :
    ReachesBy P m (m.request (.memfree c.1)) ∧ MemoryInv bmkMembase bmkMemsize (m.request (.memfree c.1)) ∧
      ((m.request (.memfree c.1)).live.map Live.block).Perm rest := by
  obtain ⟨L, hheap, -⟩ := inv.heap
  obtain ⟨l, hl, rfl⟩ := List.mem_map.mp (hperm.mem_iff.mpr List.mem_cons_self)
  have hheld : memoryEnabled m (.memfree l.rv) := Or.inr ⟨l, hl, rfl⟩
  refine ⟨.request inv.running hheld hc, inv.memfree hheld, ?_⟩
  obtain ⟨l', before, after, -, hrv', hlive, herase⟩ :=
    List.exists_of_eraseP (p := fun l' => decide (l'.rv = l.rv)) hl (decide_eq_true rfl)
  -- the pointer has one owner
  have hsame : l' = l := hheap.live_rv_inj (by simp [hlive]) hl (of_decide_eq_true hrv')
  subst hsame
  have hfree : (m.request (.memfree l'.rv)).live = before ++ after := by
    simp only [Memory.request, Store.request, hheap.bmkMemfree_live hl, Memory.liveAfter, herase]
  have hsplit : (m.live.map Live.block).Perm (l'.block :: (before ++ after).map Live.block) := by
    rw [hlive, List.map_append, List.map_cons, List.map_append]
    exact List.perm_middle
  change ((m.request (.memfree l'.rv)).live.map Live.block).Perm rest
  rw [hfree]
  exact (hsplit.symm.trans hperm).cons_inv

/-- Writing into a block that is held. -/
theorem write_held (inv : MemoryInv bmkMembase bmkMemsize m) {c : UInt32 × UInt32}
    (hc : c ∈ m.live.map Live.block) {addr : Nat} (hlo : c.1.toNat ≤ addr)
    (hhi : addr < c.1.toNat + c.2.toNat) {byte : UInt8} (hw : P (.write addr byte)) :
    ReachesBy P m (m.request (.write addr byte)) ∧
    MemoryInv bmkMembase bmkMemsize (m.request (.write addr byte)) := by
  obtain ⟨l, hl, rfl⟩ := List.mem_map.mp hc
  have hheld : memoryEnabled m (.write addr byte) := Or.inl ⟨l, hl, hlo, hhi⟩
  exact ⟨.request inv.running hheld hw, inv.write byte hheld⟩

theorem writeBytes_held {c : UInt32 × UInt32} (bytes : List UInt8) : ∀ (m : Memory) (addr : Nat),
    MemoryInv bmkMembase bmkMemsize m → c ∈ m.live.map Live.block → c.1.toNat ≤ addr →
      addr + bytes.length ≤ c.1.toNat + c.2.toNat →
      (∀ a, addr ≤ a → a < addr + bytes.length → ∀ byte, P (.write a byte)) →
      ReachesBy P m (m.writeBytes addr bytes) ∧
      MemoryInv bmkMembase bmkMemsize (m.writeBytes addr bytes) := by
  induction bytes with
  | nil => exact fun _ _ inv _ _ _ _ => ⟨.refl _, inv⟩
  | cons byte rest ih =>
      intro m addr inv hc hlo hhi hw
      rw [List.length_cons] at hhi hw
      obtain ⟨hreach, inv'⟩ := inv.write_held hc hlo (by omega) (hw addr le_rfl (by omega) byte)
      obtain ⟨hreach', inv''⟩ := ih _ (addr + 1) inv' hc (by omega) (by omega) fun a ha ha' =>
        hw a (by omega) (by omega)
      exact ⟨hreach.trans hreach', inv''⟩

end MemoryInv

/-! ### What a request leaves alone -/

namespace HeapInv

variable {L : Layout} {h : Heap} {live : List Live}

theorem refill_outside {granted : List PageGrant} (hsz : h.pagesz = pageSize) (hbucket : h.pagebucket = 7)
    {cls : Nat} (hcls : cls ≤ 26) {answer : UInt32}
    (hgood : GrantsGood (RumpBaremetal.refill (answering answer) h granted cls).2) {c : Nat}
    (hc : ∀ g ∈ (RumpBaremetal.refill (answering answer) h granted cls).2, c < g.extent.start ∨
      g.extent.fin ≤ c) :
    (RumpBaremetal.refill (answering answer) h granted cls).1.mem c = h.mem c := by
  unfold RumpBaremetal.refill at hgood hc ⊢
  by_cases hempty : h.nextf cls = 0
  · simp only [if_pos hempty] at hgood hc ⊢
    by_cases hanswer : answer = 0
    · rw [hanswer, morecore_denied granted hcls hsz hbucket]
    · obtain ⟨howmany, sz, hpages, hblk, heq⟩ := morecore_granted granted hcls hsz hbucket hanswer
      rw [heq] at hgood hc ⊢
      obtain ⟨haligned, hbelow⟩ := hgood.1 _ List.mem_cons_self
      let r : PageRun := ⟨⟨answer, howmany⟩, cls, hcls, hpages, hanswer, haligned, hbelow⟩
      exact (HeapInv.carve_run r h.mem hblk).2 c (hc _ List.mem_cons_self)
  · rw [if_neg hempty]

/-- An allocation writes to nothing but page runs: those it had, and the one that it is granted. -/
theorem alloc_outside (inv : HeapInv L h live) {granted : List PageGrant}
    (hgranted : L.runs.map (·.grant) = granted) {nbytes align answer : UInt32}
    (hfit : nbytes.toNat + (headerRoom (effectiveAlign align)).toNat < 2 ^ 32)
    {out : UInt32 × Heap × List PageGrant}
    (hout : RumpBaremetal.bmkMemalloc (answering answer) h granted nbytes align = out)
    (hgood : GrantsGood out.2.2) {c : Nat} (hc : ∀ g ∈ out.2.2, c < g.extent.start ∨ g.extent.fin ≤ c) :
    out.2.1.mem c = h.mem c := by
  have hnew := inv.alloc_new hgranted hfit hout hgood
  subst hout
  obtain ⟨inv', hsz, hbucket⟩ := inv.initPagesz
  have hmem := initPagesz_mem h
  rcases bmkMemalloc_cases (answering answer) granted hsz hbucket hfit with heq |
    ⟨cls, hcls, htest, hroom, heq⟩
  · rw [heq, hmem]
  · obtain ⟨k, hk, -, halign, -⟩ := effectiveAlign_pow htest
    rw [headerRoom_toNat halign] at hroom
    rw [heq] at hgood hc hnew ⊢
    rw [serve_pages] at hgood hc
    obtain ⟨L', inv'', -⟩ := inv'.refill hgranted hsz hbucket hcls hgood
    have hrefilled := refill_outside hsz hbucket hcls hgood hc
    rcases hpair : RumpBaremetal.refill (answering answer) (RumpBaremetal.initPagesz h) granted cls
      with ⟨h', granted'⟩
    rw [hpair] at inv'' hrefilled hc
    rw [hmem] at hrefilled
    simp only [RumpBaremetal.serve, hpair] at hnew ⊢
    by_cases hop : h'.nextf cls = 0
    · rw [if_pos hop]
      exact hrefilled
    · rw [if_neg hop] at hnew ⊢
      obtain ⟨hlow, -, hother⟩ := inv''.take_frame hop hk halign (by omega)
      refine (hother c ?_).trans hrefilled
      -- the header is in a block of one of the runs
      have hne : (takeBlock h' cls (h'.nextf cls) (effectiveAlign align)).1 ≠ 0 := by
        intro hzero
        rw [hzero, UInt32.toNat_zero] at hlow
        omega
      obtain ⟨L₁, r, hrv, -, -, hruns, inv₁⟩ := hnew hne
      obtain ⟨g, hg, hinside⟩ := inv₁.live_run List.mem_cons_self
      have houtside := hc g.grant (hruns ▸ List.mem_map_of_mem hg)
      simp only [Live.extent, Extent.Inside, Extent.fin, hrv] at hinside houtside
      dsimp only at hinside ⊢
      omega

end HeapInv

namespace MemoryInv

variable {bmkMembase bmkMemsize : UInt32} {m : Memory}

/-- A byte behind a pointer that is held: it changes only by a write to it, or once the pointer is given
    back. -/
theorem request_spares (hbase : bmkMembase.toNat % 4096 = 0)
    (fits : bmkMembase.toNat + bmkMemsize.toNat < 2 ^ 32) (inv : MemoryInv bmkMembase bmkMemsize m)
    {r : StoreRequest} (henabled : memoryEnabled m r) (hcarried : (m.request r).carried = false)
    {c : UInt32 × UInt32} (hc : c ∈ m.live.map Live.block) {a : Nat} (hlo : c.1.toNat ≤ a)
    (hhi : a < c.1.toNat + c.2.toNat) (hfree : r ≠ .memfree c.1) (hwrite : ∀ byte, r ≠ .write a byte) :
    c ∈ (m.request r).live.map Live.block ∧ (m.request r).store.heap.mem a = m.store.heap.mem a := by
  obtain ⟨L, hheap, hperm⟩ := inv.heap
  obtain ⟨l, hl, rfl⟩ := List.mem_map.mp hc
  obtain ⟨i, rfl⟩ := Nat.exists_eq_add_of_le hlo
  obtain ⟨-, hroom, -⟩ := hheap.room_facts hl
  have hi : i < l.room := by
    simp only [Live.block] at hhi
    omega
  cases r with
  | memalloc nbytes align =>
      have hanswer : (m.store.request (.memalloc nbytes align)).1 =
          .ptr (bmkMemalloc PageHistory.allocpg m.store.heap m.store.pages nbytes align).1 := by
            rw [request_memalloc]
      refine ⟨?_, ?_⟩
      · rw [Memory.request_memalloc_live hanswer]
        split
        · exact hc
        · exact List.mem_cons_of_mem _ hc
      · simp only [Memory.request, Bool.or_eq_false_iff] at hcarried
        obtain ⟨answer, new, hsame, hgood, -⟩ := inv.memalloc_answer hbase fits hcarried.2 hperm
        have hspared := hheap.alloc_spares rfl henabled hsame hgood hl hi
        simp only [Memory.request, request_memalloc]
        exact hspared
  | memfree cp =>
      rcases henabled with rfl | ⟨l', hl', rfl⟩
      · rw [inv.free_null]
        exact ⟨hc, rfl⟩
      · have hne : l ≠ l' := fun heq => hfree (heq ▸ rfl)
        obtain ⟨L', h', -, -, hdone, hspared⟩ := hheap.free_live hl'
        simp only [Memory.request, Store.request, hdone, Memory.liveAfter]
        refine ⟨List.mem_map_of_mem ?_, hspared l hl hne i hi⟩
        have hrv : l.rv ≠ l'.rv := fun hrv => hne (hheap.live_rv_inj hl hl' hrv)
        exact (List.mem_eraseP_of_neg (p := fun l => decide (l.rv = l'.rv)) (by simpa using hrv)).mpr hl
  | allocpg howmany => exact ⟨hc, rfl⟩
  | write addr byte =>
      refine ⟨hc, ?_⟩
      have hne : l.block.1.toNat + i ≠ addr := fun heq => hwrite byte (heq ▸ rfl)
      exact Function.update_of_ne hne _ _

/-- What is held lies in the region. -/
theorem held_inside (inv : MemoryInv bmkMembase bmkMemsize m) {a : Nat} (h : m.Held a) :
    bmkMembase.toNat ≤ a ∧ a < bmkMembase.toNat + bmkMemsize.toNat := by
  rcases h with ⟨l, hl, hlo, hhi⟩ | ⟨g, hg, hlo, hhi⟩
  · have hinside := inv.sound.live_inside l hl
    simp only [Live.extent, Extent.Inside, Extent.fin] at hinside
    omega
  · have hinside := inv.sound.taken_inside g hg
    simp only [Extent.Inside, Extent.fin] at hinside hhi
    omega

/-- A byte outside the region. -/
theorem request_outside (hbase : bmkMembase.toNat % 4096 = 0)
    (fits : bmkMembase.toNat + bmkMemsize.toNat < 2 ^ 32) (inv : MemoryInv bmkMembase bmkMemsize m)
    {r : StoreRequest} (henabled : memoryEnabled m r) (hcarried : (m.request r).carried = false) {a : Nat}
    (ha : a < bmkMembase.toNat ∨ bmkMembase.toNat + bmkMemsize.toNat ≤ a) :
    (m.request r).store.heap.mem a = m.store.heap.mem a := by
  obtain ⟨L, hheap, hperm⟩ := inv.heap
  cases r with
  | memalloc nbytes align =>
      simp only [Memory.request, Bool.or_eq_false_iff] at hcarried
      obtain ⟨answer, new, hsame, hgood, hperm'⟩ := inv.memalloc_answer hbase fits hcarried.2 hperm
      have hgrants := (inv.pages_step hbase fits hcarried.2).1
      have houtside := hheap.alloc_outside rfl henabled hsame hgood (c := a) fun g hg => by
        have hinside := hgrants.sound.1 g (hperm'.mem_iff.mpr (List.mem_append_left _ hg))
        simp only [PageState.managed, Extent.Inside, Extent.fin, hgrants.membase, hgrants.memsize]
          at hinside
        simp only [Extent.fin]
        omega
      simp only [Memory.request, request_memalloc]
      exact houtside
  | memfree cp =>
      rcases henabled with rfl | ⟨l, hl, rfl⟩
      · rfl
      · obtain ⟨g, hg, hblock⟩ := hheap.live_block_run hl
        have hinside :=
          inv.grants.sound.1 g.grant (hperm.mem_iff.mpr (List.mem_append_left _ (List.mem_map_of_mem hg)))
        have hsize := smallest_block l.bucket
        simp only [PageState.managed, Extent.Inside, Extent.fin, inv.grants.membase, inv.grants.memsize]
          at hinside hblock
        simp only [Memory.request, Store.request, hheap.bmkMemfree_live hl]
        exact store32_of_apart _ _ (by omega)
  | allocpg howmany => rfl
  | write addr byte =>
      have hinside := inv.held_inside henabled
      exact Function.update_of_ne (by omega) _ _

theorem write_outside (inv : MemoryInv bmkMembase bmkMemsize m) {a : Nat}
    (ha : a < bmkMembase.toNat ∨ bmkMembase.toNat + bmkMemsize.toNat ≤ a) (byte : UInt8) :
    MemoryInv bmkMembase bmkMemsize (m.request (.write a byte)) := by
  obtain ⟨L, hheap, hperm⟩ := inv.heap
  refine ⟨inv.grants, inv.aligned, ⟨L, hheap.frame_outside (e := ⟨a, 1⟩) (fun r hr => ?_) fun c hc => ?_,
    hperm⟩, inv.running⟩
  · have hinside :=
      inv.grants.sound.1 r.grant (hperm.mem_iff.mpr (List.mem_append_left _ (List.mem_map_of_mem hr)))
    simp only [PageState.managed, Extent.Inside, Extent.fin, inv.grants.membase, inv.grants.memsize]
      at hinside
    simp only [Extent.Apart, Extent.fin]
    omega
  · simp only [Extent.fin] at hc
    exact Function.update_of_ne (by omega) _ _

/-- Memory that is not managed may be written to. -/
theorem writeBytes_outside (bytes : List UInt8) :
    ∀ (m : Memory) (addr : Nat), MemoryInv bmkMembase bmkMemsize m →
    Extent.Apart ⟨addr, bytes.length⟩ ⟨bmkMembase.toNat, bmkMemsize.toNat⟩ →
      MemoryInv bmkMembase bmkMemsize (m.writeBytes addr bytes) := by
  induction bytes with
  | nil => exact fun _ _ inv _ => inv
  | cons byte rest ih =>
      intro m addr inv hapart
      simp only [Extent.Apart, Extent.fin, List.length_cons] at hapart
      refine ih _ (addr + 1) (inv.write_outside (by omega) byte) ?_
      simp only [Extent.Apart, Extent.fin]
      omega

end MemoryInv

/-! ### Over several requests -/

namespace ReachesBy

variable {P : StoreRequest → Prop} {bmkMembase bmkMemsize : UInt32} {m m' : Memory}

theorem spares (hbase : bmkMembase.toNat % 4096 = 0) (fits : bmkMembase.toNat + bmkMemsize.toNat < 2 ^ 32)
    (inv : MemoryInv bmkMembase bmkMemsize m) (h : ReachesBy P m m') (hcarried : m'.carried = false)
    {c : UInt32 × UInt32} (hc : c ∈ m.live.map Live.block) {a : Nat} (hlo : c.1.toNat ≤ a)
    (hhi : a < c.1.toNat + c.2.toNat) (hfree : ¬P (.memfree c.1)) (hwrite : ∀ byte, ¬P (.write a byte)) :
    m'.store.heap.mem a = m.store.heap.mem a := by
  obtain ⟨requests, hrun, hall⟩ := h
  have hlast := run_invariant_of_meets (C := fun _ r => P r)
    (I := fun s => s.carried = false → MemoryInv bmkMembase bmkMemsize s ∧ c ∈ s.live.map Live.block ∧
      s.store.heap.mem a = m.store.heap.mem a) ?_ (fun _ => ⟨inv, hc, rfl⟩)
      (meets_of_mem (fun r hr _ => hall r hr) m) hrun
  · exact (hlast hcarried).2.2
  · intro s r s' hinv hr hstep hcarried
    obtain ⟨-, henabled, rfl⟩ := memoryStep_inv hstep
    obtain ⟨inv, hc, hsame⟩ := hinv (Memory.carried_of_request hcarried)
    have hnext := inv.request hbase fits henabled hcarried
    obtain ⟨hc', hspared⟩ := inv.request_spares hbase fits henabled hcarried hc hlo hhi
      (fun heq => hfree (heq ▸ hr)) fun byte heq => hwrite byte (heq ▸ hr)
    exact ⟨hnext, hc', hspared.trans hsame⟩

theorem spares_outside (hbase : bmkMembase.toNat % 4096 = 0)
    (fits : bmkMembase.toNat + bmkMemsize.toNat < 2 ^ 32) (inv : MemoryInv bmkMembase bmkMemsize m)
    (h : ReachesBy P m m') (hcarried : m'.carried = false) {a : Nat}
    (ha : a < bmkMembase.toNat ∨ bmkMembase.toNat + bmkMemsize.toNat ≤ a) :
    m'.store.heap.mem a = m.store.heap.mem a := by
  obtain ⟨requests, hrun, -⟩ := h
  have hlast := run_invariant
    (I := fun s => s.carried = false → MemoryInv bmkMembase bmkMemsize s ∧
      s.store.heap.mem a = m.store.heap.mem a)
    ?_ (fun _ => ⟨inv, rfl⟩) hrun
  · exact (hlast hcarried).2
  · intro s r s' hinv hstep hcarried
    obtain ⟨-, henabled, rfl⟩ := memoryStep_inv hstep
    obtain ⟨inv, hsame⟩ := hinv (Memory.carried_of_request hcarried)
    have hnext := inv.request hbase fits henabled hcarried
    exact ⟨hnext, (inv.request_outside hbase fits henabled hcarried ha).trans hsame⟩

end ReachesBy

end RumpBaremetal
