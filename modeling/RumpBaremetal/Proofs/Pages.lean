/-
Module: RumpBaremetal.Proofs.Pages
Layer: Proofs
Purpose: When the page source keeps its grants inside the managed memory and apart from each other.
  The bound check of `bmk_allocpg` multiplies the counter modulo `2^32`, so it is only a bound check
  while that product does not carry.  `NoCarry` is the condition on one request; runs that meet it
  throughout are sound, and a request that violates it and is still granted never is.
Trusted boundary: none (fully proved)
Main exports: GrantsSound, NoCarry, bmkAllocpg_grants_sound, bmkAllocpg_grants_unsound
-/
import RumpBaremetal.Kernel.Pages
import RumpBaremetal.Lib.StepSystem

namespace RumpBaremetal

open StepSystem

/-- Every grant lies inside the managed memory and no two grants share a byte. -/
def GrantsSound (h : PageHistory) : Prop :=
  (∀ g ∈ h.granted, g.extent.Inside h.pages.managed) ∧
    h.granted.Pairwise fun g g' => g.extent.Apart g'.extent

instance (h : PageHistory) : Decidable (GrantsSound h) :=
  inferInstanceAs (Decidable (_ ∧ _))

/-- The byte offset of the counter, which is all that the addresses and the bound check see of it. -/
def PageState.offset (s : PageState) : Nat := (s.current * pageSize).toNat

/-- The request does not carry the byte offset past `2^32`, unless the wrapped offset is still beyond
    the managed memory and the request fails as it should. -/
def NoCarry (h : PageHistory) (howmany : UInt32) : Prop :=
  h.pages.offset + howmany.toNat * 4096 < 2 ^ 32 ∨
    h.pages.bmkMemsize < (h.pages.current + howmany) * pageSize

instance (h : PageHistory) (howmany : UInt32) : Decidable (NoCarry h howmany) :=
  inferInstanceAs (Decidable (_ ∨ _))

/-! ### One request, in exact arithmetic -/

theorem offset_lt (s : PageState) : s.offset < 2 ^ 32 := UInt32.toNat_lt _

/-- The counter moves by the request whether or not it succeeds. -/
theorem offset_add (s : PageState) (howmany : UInt32) :
    ((s.current + howmany) * pageSize).toNat = (s.offset + howmany.toNat * 4096) % 2 ^ 32 := by
  simp only [PageState.offset, UInt32.toNat_mul, UInt32.toNat_add, pageSize, UInt32.toNat_ofNat]
  omega

/-- The address `bmk_allocpg` is about to return. -/
theorem rv_toNat (s : PageState) :
    (s.bmkMembase + pageSize * s.current).toNat = (s.bmkMembase.toNat + s.offset) % 2 ^ 32 := by
  simp only [PageState.offset, UInt32.toNat_mul, UInt32.toNat_add, pageSize, UInt32.toNat_ofNat]
  omega

theorem allocpg_state (p : PageHistory) (howmany : UInt32) :
    (p.allocpg howmany).2.pages.bmkMembase = p.pages.bmkMembase ∧
      (p.allocpg howmany).2.pages.bmkMemsize = p.pages.bmkMemsize ∧
      (p.allocpg howmany).2.pages.offset = (p.pages.offset + howmany.toNat * 4096) % 2 ^ 32 := by
  simp only [PageHistory.allocpg, bmkAllocpg]
  split <;> exact ⟨rfl, rfl, offset_add _ _⟩

theorem allocpg_granted (p : PageHistory) (howmany : UInt32) :
    (p.allocpg howmany).2.granted =
      if (p.allocpg howmany).1 = 0 then p.granted else ⟨(p.allocpg howmany).1, howmany⟩ :: p.granted := rfl

/-- The pointer in exact arithmetic. -/
theorem allocpg_toNat (p : PageHistory) (howmany : UInt32) :
    (p.allocpg howmany).1.toNat =
      if (p.pages.offset + howmany.toNat * 4096) % 2 ^ 32 ≤ p.pages.bmkMemsize.toNat then
        (p.pages.bmkMembase.toNat + p.pages.offset) % 2 ^ 32
      else 0 := by
  simp only [PageHistory.allocpg, bmkAllocpg]
  have hcheck : ((p.pages.current + howmany) * pageSize > p.pages.bmkMemsize) ↔
      ¬(p.pages.offset + howmany.toNat * 4096) % 2 ^ 32 ≤ p.pages.bmkMemsize.toNat := by
    rw [gt_iff_lt, UInt32.lt_iff_toNat_lt, offset_add, Nat.not_le]
  by_cases hfail : (p.pages.current + howmany) * pageSize > p.pages.bmkMemsize
  · rw [if_neg (hcheck.mp hfail), if_pos hfail]
    rfl
  · rw [if_pos (not_not.mp (mt hcheck.mpr hfail)), if_neg hfail]
    exact rv_toNat _

/-- What one request can do: it fails and leaves the grants alone, or it is granted at the old
    offset and passes the wrapped bound check. -/
theorem allocStep_cases {h h' : PageHistory} {howmany : UInt32}
    (hstep : allocStep h howmany = some h') :
    h'.pages.bmkMembase = h.pages.bmkMembase ∧ h'.pages.bmkMemsize = h.pages.bmkMemsize ∧
      h'.pages.offset = (h.pages.offset + howmany.toNat * 4096) % 2 ^ 32 ∧
      (h'.granted = h.granted ∨
        ∃ rv : UInt32, rv ≠ 0 ∧
          rv.toNat = (h.pages.bmkMembase.toNat + h.pages.offset) % 2 ^ 32 ∧
          h'.pages.offset ≤ h.pages.bmkMemsize.toNat ∧
          h'.granted = ⟨rv, howmany⟩ :: h.granted) := by
  cases hstep
  obtain ⟨hbase, hsize, hoff⟩ := allocpg_state h howmany
  refine ⟨hbase, hsize, hoff, ?_⟩
  rw [allocpg_granted]
  by_cases hnull : (h.allocpg howmany).1 = 0
  · exact Or.inl (if_pos hnull)
  · have hptr := allocpg_toNat h howmany
    rw [← hoff] at hptr
    by_cases hbound : (h.allocpg howmany).2.pages.offset ≤ h.pages.bmkMemsize.toNat
    · rw [if_pos hbound] at hptr
      exact Or.inr ⟨_, hnull, hptr, hbound, if_neg hnull⟩
    · rw [if_neg hbound] at hptr
      exact absurd (UInt32.toNat_inj.mp hptr) hnull

/-! ### Runs without a carry -/

/-- Soundness, with every grant ending at or before the current offset.  The offset is what keeps the
    next grant away from all earlier ones. -/
structure GrantsBelow (bmkMembase bmkMemsize : UInt32) (h : PageHistory) : Prop where
  membase : h.pages.bmkMembase = bmkMembase
  memsize : h.pages.bmkMemsize = bmkMemsize
  sound : GrantsSound h
  below : ∀ g ∈ h.granted, g.extent.fin ≤ bmkMembase.toNat + h.pages.offset

theorem grantsBelow_boot (bmkMembase bmkMemsize : UInt32) :
    GrantsBelow bmkMembase bmkMemsize (.boot bmkMembase bmkMemsize) where
  membase := rfl
  memsize := rfl
  sound := ⟨fun _ hg => absurd hg List.not_mem_nil, List.Pairwise.nil⟩
  below := fun _ hg => absurd hg List.not_mem_nil

/-- One request that does not carry keeps the grants below the offset. -/
theorem grantsBelow_step {bmkMembase bmkMemsize : UInt32}
    (fits : bmkMembase.toNat + bmkMemsize.toNat ≤ 2 ^ 32) {h h' : PageHistory} {howmany : UInt32}
    (inv : GrantsBelow bmkMembase bmkMemsize h) (ok : NoCarry h howmany)
    (hstep : allocStep h howmany = some h') : GrantsBelow bmkMembase bmkMemsize h' := by
  obtain ⟨hbase, hsize, hoff, hgrant⟩ := allocStep_cases hstep
  have hbase' := hbase.trans inv.membase
  have hsize' := hsize.trans inv.memsize
  have hmanaged : h'.pages.managed = h.pages.managed := by
    simp only [PageState.managed, hbase, hsize]
  have hlt := offset_lt h.pages
  -- the condition read as a fact about offsets, the only form the bounds below need
  have ok' : h.pages.offset + howmany.toNat * 4096 < 2 ^ 32 ∨
      bmkMemsize.toNat < h'.pages.offset := by
    rcases ok with hsmall | hbig
    · exact Or.inl hsmall
    · rw [UInt32.lt_iff_toNat_lt, offset_add, ← hoff, inv.memsize] at hbig
      exact Or.inr hbig
  have hold : ∀ g ∈ h.granted, g.extent.fin ≤ bmkMembase.toNat + h'.pages.offset := by
    intro g hg
    have hbelow := inv.below g hg
    have hinside := (inv.sound.1 g hg).2
    simp only [PageState.managed, Extent.fin, inv.membase, inv.memsize] at hinside hbelow ⊢
    omega
  rcases hgrant with hsame | ⟨rv, hrv, hrvNat, hbound, hnew⟩
  · refine ⟨hbase', hsize', ⟨?_, hsame ▸ inv.sound.2⟩, hsame ▸ hold⟩
    rw [hsame, hmanaged]
    exact inv.sound.1
  · have hpos : rv.toNat ≠ 0 := fun hzero => hrv (UInt32.toNat_inj.mp hzero)
    rw [inv.membase] at hrvNat
    rw [inv.memsize] at hbound
    have hstart : rv.toNat = bmkMembase.toNat + h.pages.offset := by omega
    have hnewInside : (PageGrant.extent ⟨rv, howmany⟩).Inside h'.pages.managed := by
      simp only [Extent.Inside, PageState.managed, PageGrant.extent, Extent.fin, hbase', hsize']
      omega
    refine ⟨hbase', hsize', ⟨?_, ?_⟩, ?_⟩
    · intro g hg
      rw [hnew] at hg
      rcases List.mem_cons.mp hg with rfl | hg
      · exact hnewInside
      · rw [hmanaged]
        exact inv.sound.1 g hg
    · rw [hnew, List.pairwise_cons]
      refine ⟨fun g hg => Or.inr ?_, inv.sound.2⟩
      have hbelow := inv.below g hg
      simp only [PageGrant.extent, Extent.fin, hstart] at hbelow ⊢
      exact hbelow
    · intro g hg
      rw [hnew] at hg
      rcases List.mem_cons.mp hg with rfl | hg
      · simp only [PageGrant.extent, Extent.fin]
        omega
      · exact hold g hg

/-! ### A granted carry -/

/-- A request that carries and is granted anyway ends outside the managed memory: its exact extent is
    either longer than what is left, or starts below `bmk_membase`. -/
theorem carry_not_inside {h h' : PageHistory} {howmany : UInt32}
    (fits : h.pages.bmkMembase.toNat + h.pages.bmkMemsize.toNat ≤ 2 ^ 32)
    (hstep : allocStep h howmany = some h') (granted : h'.granted ≠ h.granted)
    (carry : ¬ NoCarry h howmany) : ¬ GrantsSound h' := by
  obtain ⟨hbase, hsize, hoff, hgrant⟩ := allocStep_cases hstep
  rcases hgrant with hsame | ⟨rv, hrv, hrvNat, hbound, hnew⟩
  · exact absurd hsame granted
  · intro hsound
    have hinside := hsound.1 ⟨rv, howmany⟩ (hnew ▸ List.mem_cons_self)
    have hlt := offset_lt h.pages
    have hmem := UInt32.toNat_lt h.pages.bmkMemsize
    simp only [NoCarry, not_or, Nat.not_lt] at carry
    simp only [Extent.Inside, PageState.managed, PageGrant.extent, Extent.fin, hbase, hsize]
      at hinside
    omega

/-- Page grants never overlap and never leave the managed memory in a run whose requests never carry
    the counter.  Conversely, whenever a request carries and is granted all the same, the run it ends
    is unsound. -/
theorem bmkAllocpg_grants_sound (bmkMembase bmkMemsize : UInt32)
    (fits : bmkMembase.toNat + bmkMemsize.toNat ≤ 2 ^ 32) :
    (∀ requests h, Meets allocStep NoCarry (.boot bmkMembase bmkMemsize) requests →
      run allocStep (.boot bmkMembase bmkMemsize) requests = some h → GrantsSound h) ∧
    (∀ requests h howmany h', run allocStep (.boot bmkMembase bmkMemsize) requests = some h →
      allocStep h howmany = some h' → h'.granted ≠ h.granted → ¬ NoCarry h howmany →
      ¬ GrantsSound h') := by
  constructor
  · intro requests h hmeets hrun
    have hinv : GrantsBelow bmkMembase bmkMemsize h :=
      run_invariant_of_meets (fun _ _ _ inv ok hstep => grantsBelow_step fits inv ok hstep)
        (grantsBelow_boot bmkMembase bmkMemsize) hmeets hrun
    exact hinv.sound
  · intro requests h howmany h' hrun hstep granted carry
    have hpages : h.pages.bmkMembase = bmkMembase ∧ h.pages.bmkMemsize = bmkMemsize := by
      refine run_invariant (I := fun h => h.pages.bmkMembase = bmkMembase ∧
        h.pages.bmkMemsize = bmkMemsize) ?_ ⟨rfl, rfl⟩ hrun
      intro s a t hs ht
      obtain ⟨hbase, hsize, -⟩ := allocStep_cases ht
      exact ⟨hbase.trans hs.1, hsize.trans hs.2⟩
    exact carry_not_inside (by rw [hpages.1, hpages.2]; exact fits) hstep granted carry

/-- 16 MiB at 2 MiB: three requests that fit, one that does not, one more after the failure. -/
theorem bmkAllocpg_grants_sound_small :
    ∃ h, run allocStep (.boot 0x200000 0x1000000) [1, 16, 0, 0x2000, 1] = some h ∧
      h.granted.length = 3 ∧ GrantsSound h :=
  ⟨_, rfl, by decide,
    (bmkAllocpg_grants_sound 0x200000 0x1000000 (by decide)).1 [1, 16, 0, 0x2000, 1] _
      (by simp only [Meets]; decide) rfl⟩

/-- Not every run is sound.  In 16 MiB at 2 MiB, a request for `2^19` pages, as `bmk_memalloc` issues it
    for its largest class, fails and leaves the counter behind; the next large request brings the
    product back to zero and is granted, and the one after it gets the page of the very first. -/
theorem bmkAllocpg_grants_unsound :
    ¬ ∀ bmkMembase bmkMemsize : UInt32, bmkMembase % pageSize = 0 →
      bmkMembase.toNat + bmkMemsize.toNat ≤ 2 ^ 32 →
      ∀ requests h, run allocStep (.boot bmkMembase bmkMemsize) requests = some h →
        GrantsSound h := by
  intro always
  have hsound := always 0x200000 0x1000000 (by decide) (by decide) [1, 0x80000, 0x7ffff, 1] _ rfl
  exact absurd hsound (by decide)

end RumpBaremetal
