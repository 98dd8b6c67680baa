/-
Module: RumpBaremetal.Proofs.Rumppci
Layer: Proofs
Purpose: What drivers may rely on in rumppci.c.  The bound of `rumpcomp_pci_irq_map` lets one cookie too
  many through, and a handler for which there is no memory does not come back with `NULL`; calls are
  faithful exactly in the sequences where neither happens.  `rumpcomp_pci_dmalloc` rounds the size modulo
  `2^32` and does not look at the alignment.
Trusted boundary: none (fully proved)
Main exports: CallFaithful, Serves, TableInv, pci_cookies_in_bounds_iff, DmaGood, dmalloc_covers_iff
-/
import RumpBaremetal.Kernel.Rumppci
import RumpBaremetal.Proofs.Boot
import RumpBaremetal.Proofs.Intr
import RumpBaremetal.Proofs.Rumpuser

namespace RumpBaremetal

open StepSystem

/-! ### The cookie table -/

section Cookies

variable {Fun Arg : Type*} {s : Stubs} {w w' : PciWorld Fun Arg} {e : PciEvent Fun Arg}

/-- The table was used in bounds. -/
def IntrTable.InBounds (t : IntrTable) : Prop := ∀ i ∈ t.accessed, i < 32

/-- What drivers rely on in a call. -/
def CallFaithful (s : Stubs) (w : PciWorld Fun Arg) : PciEvent Fun Arg → Prop
  | .irqMap bus device function intrline cookie =>
      ∃ error table, rumpcompPciIrqMap w.table bus device function intrline cookie = (error, table) ∧
        table.InBounds ∧
        -- a map that fails changes nothing, one that succeeds changes the entry of its cookie
        (error ≠ 0 → table = w.table) ∧
        (error = 0 → table.intrs cookie.toNat = intrline ∧ ∀ i, i ≠ cookie.toNat →
          table.intrs i = w.table.intrs i)
  | .irqEstablish cookie handler data found =>
      ∃ table rv intr, rumpcompPciIrqEstablish s w.table w.intr cookie handler data found =
        (table, some (rv, intr)) ∧
        table.InBounds ∧
        -- `NULL`, with nothing registered, or a handler on the line of the latest map of the cookie
        ((rv = none ∧ intr.isrIh = w.intr.isrIh) ∨
          ∃ line, w.mapped cookie = some line ∧ rv = some cookie.toNat ∧ 0 ≤ line ∧ intr.isrIh =
            Function.update w.intr.isrIh line.toNatClampNeg
              (⟨handler, data⟩ :: w.intr.isrIh line.toNatClampNeg))
  | .neighbour _ _ => True

/-- No map of the cookie that is one behind the table; and memory for the record of a handler, unless its
    line is out of range. -/
def Serves (w : PciWorld Fun Arg) : PciEvent Fun Arg → Prop
  | .irqMap _ _ _ _ cookie => cookie ≠ bmkMaxintr.toUInt32
  | .irqEstablish cookie _ _ found => found = true ∨ ∀ line ∈ w.mapped cookie, line < 0 ∨ bmkMaxintr < line
  | .neighbour _ _ => True

instance (w : PciWorld Fun Arg) : (e : PciEvent Fun Arg) → Decidable (Serves w e)
  | .irqMap _ _ _ _ _ => inferInstanceAs (Decidable (_ ≠ _))
  | .irqEstablish _ _ _ _ => inferInstanceAs (Decidable (_ ∨ ∀ line ∈ w.mapped _, _))
  | .neighbour _ _ => inferInstanceAs (Decidable True)

/-- Every cookie that was mapped has its entry in the table, and the table was used in bounds. -/
structure TableInv (w : PciWorld Fun Arg) : Prop where
  entry : ∀ cookie line, w.mapped cookie = some line → cookie.toNat < 32 ∧ w.table.intrs cookie.toNat = line
  bounds : w.table.InBounds

theorem irqMap_cases (t : IntrTable) (bus device function : UInt32) (intrline : Int32) (cookie : UInt32) :
    (32 < cookie.toNat ∧ rumpcompPciIrqMap t bus device function intrline cookie = (eGeneric, t)) ∨
    (cookie.toNat ≤ 32 ∧ rumpcompPciIrqMap t bus device function intrline cookie =
      (0, t.write cookie.toNat intrline)) := by
  unfold rumpcompPciIrqMap
  by_cases hlarge : cookie > bmkMaxintr.toUInt32
  · exact .inl ⟨UInt32.lt_iff_toNat_lt.mp hlarge, if_pos hlarge⟩
  · exact .inr ⟨Nat.le_of_not_lt fun h => hlarge (UInt32.lt_iff_toNat_lt.mpr h), if_neg hlarge⟩

theorem toNat_lt_of_ne {cookie : UInt32} (hle : cookie.toNat ≤ 32) (hne : cookie ≠ bmkMaxintr.toUInt32) :
    cookie.toNat < 32 := by
  refine Nat.lt_of_le_of_ne hle fun heq => hne (UInt32.toNat_inj.mp ?_)
  rw [heq]
  rfl

/-- The table that a call of `rumpcomp_pci_irq_establish` leaves. -/
theorem irqEstablish_table (s : Stubs) (t : IntrTable) (w : IntrWorld Fun Arg) (cookie : UInt32)
    (handler : Fun) (data : Arg) (found : Bool) :
    ∃ out, rumpcompPciIrqEstablish s t w cookie handler data found = ((t.read cookie.toNat).2, out) :=
      ⟨_, rfl⟩

/-- The two comparisons of `bmk_isr_netinit`, one of them unsigned. -/
theorem line_refused_iff (line : Int32) :
    (line.toUInt32 > 4 * 8 ∨ line > bmkMaxintr) ↔ line < 0 ∨ bmkMaxintr < line := by
  have hsigned : line.toInt = Int.bmod line.toUInt32.toNat (2 ^ 32) :=
    BitVec.toInt_eq_toNat_bmod line.toBitVec
  have hlt := line.toUInt32.toNat_lt
  rw [gt_iff_lt, gt_iff_lt, Int32.lt_iff_toInt_lt, Int32.lt_iff_toInt_lt, UInt32.lt_iff_toNat_lt, hsigned,
    show bmkMaxintr.toInt = 32 from rfl, show (0 : Int32).toInt = 0 from rfl,
      show (4 * 8 : UInt32).toNat = 32 from rfl]
  simp only [Int.bmod]
  omega

/-- Out of memory for the record of a handler: `bmk_xmalloc` panics, if it is called. -/
theorem irqEstablish_none_iff {t : IntrTable} {w : IntrWorld Fun Arg} {cookie : UInt32} {handler : Fun}
    {data : Arg} {found : Bool} :
    (rumpcompPciIrqEstablish s t w cookie handler data found).2 = none ↔
      ¬(found = true ∨ t.intrs cookie.toNat < 0 ∨ bmkMaxintr < t.intrs cookie.toNat) := by
  have hcall : (rumpcompPciIrqEstablish s t w cookie handler data found).2 = none ↔
      bmkIsrNetinit s w handler data (t.intrs cookie.toNat) found = none := Option.map_eq_none_iff
  rw [hcall, bmkIsrNetinit_none_iff, line_refused_iff, ← Bool.not_eq_true, and_comm]
  exact not_or.symm

/-- What a call does with the handler, whatever the table holds. -/
theorem irqEstablish_inv {t table : IntrTable} {w : IntrWorld Fun Arg} {cookie : UInt32} {handler : Fun}
    {data : Arg} {found : Bool} {out : Option Nat × IntrWorld Fun Arg}
    (hcall : rumpcompPciIrqEstablish s t w cookie handler data found = (table, some out)) :
    out = (none, w) ∨
      ∃ n intr, t.intrs cookie.toNat = Int32.ofNat n ∧ (n = 10 ∨ n = 11) ∧ out = (some cookie.toNat, intr) ∧
        intr.isrIh = Function.update w.isrIh n (⟨handler, data⟩ :: w.isrIh n) := by
  have hout := (Prod.mk.inj hcall).2
  obtain ⟨heq, -⟩ | ⟨heq, -⟩ | ⟨n, routine, hline, hintr, -, heq⟩ :=
    bmkIsrNetinit_cases s w handler data (t.intrs cookie.toNat) found
  · simp only [heq] at hout
    exact .inl (Option.some.inj hout).symm
  · simp only [heq] at hout
    cases hout
  · simp only [heq] at hout
    exact .inr ⟨n, _, hintr, Stubs.line_eq hline, (Option.some.inj hout).symm, rfl⟩

theorem TableInv.step (inv : TableInv w) (hin : Serves w e) (hstep : pciStep s w e = some w') :
    TableInv w' := by
  obtain ⟨henabled, rfl⟩ := pciStep_inv hstep
  cases e with
  | irqMap bus device function intrline cookie =>
      obtain ⟨-, heq⟩ | ⟨hle, heq⟩ := irqMap_cases w.table bus device function intrline cookie
      · simp only [pciEffect, heq]
        exact inv
      · have hlt := toNat_lt_of_ne hle hin
        simp only [pciEffect, heq, if_true]
        refine ⟨fun other line hother => ?_, List.forall_mem_cons.mpr ⟨hlt, inv.bounds⟩⟩
        by_cases hsame : other = cookie
        · subst hsame
          simp only [Function.update_self, Option.some.injEq] at hother
          subst hother
          exact ⟨hlt, Function.update_self _ _ _⟩
        · simp only [Function.update_of_ne hsame] at hother
          obtain ⟨hlt', hentry⟩ := inv.entry other line hother
          have hindex : other.toNat ≠ cookie.toNat := fun h => hsame (UInt32.toNat_inj.mp h)
          exact ⟨hlt', (Function.update_of_ne hindex _ _).trans hentry⟩
  | irqEstablish cookie handler data found =>
      simp only [pciEnabled, Bool.and_eq_true] at henabled
      obtain ⟨line, hline⟩ := Option.isSome_iff_exists.mp henabled.2
      obtain ⟨out, heq⟩ := irqEstablish_table s w.table w.intr cookie handler data found
      have hbounds : (w.table.read cookie.toNat).2.InBounds :=
        List.forall_mem_cons.mpr ⟨(inv.entry cookie line hline).1, inv.bounds⟩
      simp only [pciEffect, heq]
      cases out with
      | none => exact ⟨inv.entry, hbounds⟩
      | some r => exact ⟨inv.entry, hbounds⟩
  | neighbour i value =>
      have hi : 32 ≤ i := of_decide_eq_true henabled
      refine ⟨fun cookie line hline => ?_, inv.bounds⟩
      obtain ⟨hlt, hentry⟩ := inv.entry cookie line hline
      exact ⟨hlt, (Function.update_of_ne (by omega) _ _).trans hentry⟩

theorem TableInv.boot (intr : IntrWorld Fun Arg) : TableInv (.boot intr) where
  entry := fun _ _ h => by cases h
  bounds := fun _ h => absurd h List.not_mem_nil

/-- With a table in order, a call is faithful exactly if it is served. -/
theorem TableInv.faithful_iff (inv : TableInv w) (hstep : pciStep s w e = some w') :
    CallFaithful s w e ↔ Serves w e := by
  obtain ⟨henabled, -⟩ := pciStep_inv hstep
  cases e with
  | irqMap bus device function intrline cookie =>
      obtain ⟨hlarge, heq⟩ | ⟨hle, heq⟩ := irqMap_cases w.table bus device function intrline cookie
      · have hne : cookie ≠ bmkMaxintr.toUInt32 := by
          rintro rfl
          exact absurd hlarge (by decide)
        refine ⟨fun _ => hne, fun _ => ⟨eGeneric, w.table, heq, inv.bounds, fun _ => rfl, fun h => ?_⟩⟩
        exact absurd h (by decide)
      · constructor
        · rintro ⟨error, table, hcall, hbounds, -⟩ rfl
          obtain rfl := (Prod.mk.inj (heq.symm.trans hcall)).2
          exact absurd (hbounds _ List.mem_cons_self) (by decide)
        · intro hne
          refine ⟨0, _, heq, List.forall_mem_cons.mpr ⟨toNat_lt_of_ne hle hne, inv.bounds⟩,
            fun h => absurd rfl h,
            fun _ => ⟨Function.update_self _ _ _, fun i hi => Function.update_of_ne hi _ _⟩⟩
  | irqEstablish cookie handler data found =>
      simp only [pciEnabled, Bool.and_eq_true] at henabled
      obtain ⟨line, hline⟩ := Option.isSome_iff_exists.mp henabled.2
      obtain ⟨hlt, hentry⟩ := inv.entry cookie line hline
      have hserves : Serves w (.irqEstablish cookie handler data found) ↔
          found = true ∨ w.table.intrs cookie.toNat < 0 ∨ bmkMaxintr < w.table.intrs cookie.toNat := by
        simp only [Serves, hline, hentry, Option.mem_def, Option.some.injEq, forall_eq']
      obtain ⟨out, heq⟩ := irqEstablish_table s w.table w.intr cookie handler data found
      rw [hserves, ← not_not (a := _ ∨ _), ← irqEstablish_none_iff, heq]
      cases out with
      | none =>
          constructor
          · rintro ⟨table, rv, intr, hcall, -⟩
            rw [heq] at hcall
            cases (Prod.mk.inj hcall).2
          · intro hsome
            exact absurd rfl hsome
      | some out =>
          refine iff_of_true ⟨_, out.1, out.2, heq, ?_, ?_⟩ (Option.some_ne_none out)
          · exact List.forall_mem_cons.mpr ⟨hlt, inv.bounds⟩
          · obtain rfl | ⟨n, intr, hn, hcase, rfl, hih⟩ := irqEstablish_inv heq
            · exact .inl ⟨rfl, rfl⟩
            · obtain rfl : Int32.ofNat n = line := hn.symm.trans hentry
              refine .inr ⟨_, hline, rfl, ?_⟩
              obtain rfl | rfl := hcase
              · exact ⟨by decide, hih⟩
              · exact ⟨by decide, hih⟩
  | neighbour i value => exact Iff.rfl

/-- For every sequence of calls, with the words behind the table changing at any time: every call is
    faithful exactly if no call maps the cookie `BMK_MAXINTR` and there is memory for the record of every
    handler that is established on a line in range. -/
theorem pci_cookies_in_bounds_iff {intr : IntrWorld Fun Arg} {events : List (PciEvent Fun Arg)}
    (hrun : run (pciStep s) (.boot intr) events = some w) :
    Meets (pciStep s) (CallFaithful s) (.boot intr) events ↔ Meets (pciStep s) Serves (.boot intr) events :=
  meets_iff (I := TableInv) (fun _ _ _ inv hin hstep => inv.step hin hstep)
    (fun _ _ _ inv hstep => inv.faithful_iff hstep)
    (.boot intr) hrun

/-- Line 11 for cookie 5, and a handler on it. -/
theorem pci_cookies_in_bounds_iff_line11 :
    ∃ w : PciWorld Nat Nat,
      run (pciStep ⟨0x1000, 0x2000, 0x3000, 0x4000⟩) (.boot ⟨.reset, fun _ => [], false⟩)
        [.irqMap 0 3 0 11 5, .neighbour 32 7, .irqEstablish 5 100 200 true] = some w ∧
      w.intr.isrIh 11 = [⟨100, 200⟩] ∧
      Meets (pciStep ⟨0x1000, 0x2000, 0x3000, 0x4000⟩) (CallFaithful ⟨0x1000, 0x2000, 0x3000, 0x4000⟩)
        (.boot ⟨.reset, fun _ => ([] : List (IntrHand Nat Nat)), false⟩)
        [.irqMap 0 3 0 11 5, .neighbour 32 7, .irqEstablish 5 100 200 true] :=
  have hrun :
      run (pciStep ⟨0x1000, 0x2000, 0x3000, 0x4000⟩)
        (.boot ⟨.reset, fun _ => ([] : List (IntrHand Nat Nat)), false⟩)
        [.irqMap 0 3 0 11 5, .neighbour 32 7, .irqEstablish 5 100 200 true] = some _ := rfl
  ⟨_, hrun, rfl, (pci_cookies_in_bounds_iff hrun).mpr (by decide)⟩

/-- Not for every sequence: the cookie 32 is not refused, and its map overwrites the word behind the
    table. -/
theorem pci_cookie_behind_table :
    ∃ w : PciWorld Nat Nat,
      run (pciStep ⟨0x1000, 0x2000, 0x3000, 0x4000⟩) (.boot ⟨.reset, fun _ => [], false⟩)
        [.neighbour 32 7, .irqMap 0 3 0 11 32] = some w ∧
      w.mapped 32 = some 11 ∧ w.table.intrs 32 = 11 ∧ ¬ w.table.InBounds := by
  refine ⟨_, rfl, by decide, by decide, fun hbounds => ?_⟩
  exact absurd (hbounds 32 List.mem_cons_self) (by decide)

end Cookies

/-! ### Memory for devices -/

/-- What a driver takes a successful call to mean: one address for both views, aligned as asked, and the
    pages of a new grant under every byte. -/
structure DmaGood (h : PageHistory) (size align : UInt32) (d : Dmalloc) : Prop where
  same : d.va = d.pa
  aligned : align.toNat ∣ d.pa.toNat
  reserved : ∃ g, d.pages.granted = g :: h.granted ∧ Extent.Inside ⟨d.pa.toNat, size.toNat⟩ g.extent
  nowrap : d.pa.toNat + size.toNat ≤ 2 ^ 32

/-- The number of pages that a size is turned into. -/
def dmaPages (size : UInt32) : UInt32 := roundPage size / pageSize

theorem dmaPages_toNat {size : UInt32} (hsize : size.toNat + 4096 ≤ 2 ^ 32) :
    (dmaPages size).toNat * 4096 = roundUp size.toNat 4096 := by
  rw [dmaPages, UInt32.toNat_div, roundPage_toNat hsize, show pageSize.toNat = 4096 from rfl]
  exact Nat.div_mul_cancel (dvd_roundUp _ _)

/-- The rounding of a size within a page of `2^32` carries, and nothing is left. -/
theorem dmaPages_wraps {size : UInt32} (hsize : ¬size.toNat + 4096 ≤ 2 ^ 32) : dmaPages size = 0 := by
  have hlt := UInt32.toNat_lt size
  have hpage : pageSize.toNat = 2 ^ 12 := rfl
  have hsum : (size + (pageSize - 1)).toNat = (size.toNat + 4095) % 2 ^ 32 := UInt32.toNat_add _ _
  have hround : (roundPage size).toNat = 0 := by
    rw [roundPage, UInt32.toNat_mask hpage, hsum]
    omega
  rw [dmaPages, ← UInt32.toNat_inj, UInt32.toNat_div, hround]
  exact Nat.zero_div _

theorem dmalloc_cases (h : PageHistory) (size align pa va : UInt32) :
    ((h.allocpg (dmaPages size)).1 = 0 ∧
      rumpcompPciDmalloc h size align pa va = ⟨1, pa, va, (h.allocpg (dmaPages size)).2⟩) ∨
    ((h.allocpg (dmaPages size)).1 ≠ 0 ∧
      rumpcompPciDmalloc h size align pa va =
        ⟨0, (h.allocpg (dmaPages size)).1, (h.allocpg (dmaPages size)).1,
          (h.allocpg (dmaPages size)).2⟩) := by
  unfold rumpcompPciDmalloc
  by_cases hnull : (h.allocpg (dmaPages size)).1 = 0
  · exact .inl ⟨hnull, if_pos hnull⟩
  · exact .inr ⟨hnull, if_neg hnull⟩

/-- The grant of a call reaches over the size exactly if the rounding does not carry. -/
theorem reserved_iff {h : PageHistory} {size : UInt32} (hne : (h.allocpg (dmaPages size)).1 ≠ 0) :
    (∃ g, (h.allocpg (dmaPages size)).2.granted = g :: h.granted ∧
      Extent.Inside ⟨(h.allocpg (dmaPages size)).1.toNat, size.toNat⟩ g.extent) ↔
      size.toNat + 4096 ≤ 2 ^ 32 := by
  rw [allocpg_granted, if_neg hne]
  constructor
  · rintro ⟨g, hg, hinside⟩
    by_contra hsize
    obtain rfl := (List.cons.inj hg).1
    have hend := hinside.2
    rw [dmaPages_wraps hsize] at hend
    simp only [Extent.fin, PageGrant.extent, UInt32.toNat_zero] at hend
    omega
  · intro hsize
    refine ⟨_, rfl, le_rfl, ?_⟩
    have hup := le_roundUp (a := 4096) (by decide) size.toNat
    simp only [Extent.fin, PageGrant.extent, dmaPages_toNat hsize]
    omega

/-- What was asked of the page source before does not move the managed memory. -/
theorem managed_run {bmkMembase bmkMemsize : UInt32} {requests : List UInt32} {h : PageHistory}
    (hrun : run allocStep (.boot bmkMembase bmkMemsize) requests = some h) :
    h.pages.bmkMembase = bmkMembase ∧ h.pages.bmkMemsize = bmkMemsize := by
  refine run_invariant (I := fun h => h.pages.bmkMembase = bmkMembase ∧ h.pages.bmkMemsize = bmkMemsize) ?_
    ⟨rfl, rfl⟩ hrun
  intro h howmany h' hinv hstep
  obtain ⟨hbase, hsize, -⟩ := allocStep_cases hstep
  exact ⟨hbase.trans hinv.1, hsize.trans hinv.2⟩

/-- Pages that are granted without a carry end inside the managed memory. -/
theorem allocpg_nowrap {h : PageHistory} {size : UInt32} (hsize : size.toNat + 4096 ≤ 2 ^ 32)
    (hfits : h.pages.bmkMembase.toNat + h.pages.bmkMemsize.toNat ≤ 2 ^ 32)
    (hcarry : NoCarry h (dmaPages size)) (hne : (h.allocpg (dmaPages size)).1 ≠ 0) :
    (h.allocpg (dmaPages size)).1.toNat + size.toNat ≤ 2 ^ 32 := by
  have hptr := allocpg_toNat h (dmaPages size)
  have hpos : (h.allocpg (dmaPages size)).1.toNat ≠ 0 := fun h0 => hne (UInt32.toNat_inj.mp h0)
  have hup := le_roundUp (a := 4096) (by decide) size.toNat
  have hpages := dmaPages_toNat hsize
  split at hptr
  · rename_i hbound
    have hexact : h.pages.offset + (dmaPages size).toNat * 4096 < 2 ^ 32 := by
      rcases hcarry with hlt | hover
      · exact hlt
      · rw [UInt32.lt_iff_toNat_lt, offset_add] at hover
        exact absurd hbound (Nat.not_le.mpr hover)
    rw [Nat.mod_eq_of_lt hexact] at hbound
    omega
  · exact absurd hptr hpos

/-- For every size and alignment, in every state of the page source: a call that succeeds gives what was
    asked for exactly if the rounding does not carry, the next page has the alignment, and the bytes end by
    `2^32`.  Up to the page size every page has the alignment, and without a carry in the source the bytes
    end in time.  A call that fails leaves the caller's variables alone. -/
theorem dmalloc_covers_iff {bmkMembase bmkMemsize : UInt32} {requests : List UInt32} {h : PageHistory}
    (size align : UInt32) (halign : align.toNat.isPowerOfTwo) (hbase : bmkMembase % pageSize = 0)
    (hrun : run allocStep (.boot bmkMembase bmkMemsize) requests = some h) (pa va : UInt32) :
    ((rumpcompPciDmalloc h size align pa va).rv = 0 →
      (DmaGood h size align (rumpcompPciDmalloc h size align pa va) ↔
        size.toNat + 4096 ≤ 2 ^ 32 ∧ align.toNat ∣ (bmkMembase.toNat + h.pages.offset) % 2 ^ 32 ∧
          (bmkMembase.toNat + h.pages.offset) % 2 ^ 32 + size.toNat ≤ 2 ^ 32)) ∧
    ((rumpcompPciDmalloc h size align pa va).rv = 0 → size.toNat + 4096 ≤ 2 ^ 32 → align.toNat ≤ 4096 →
      bmkMembase.toNat + bmkMemsize.toNat ≤ 2 ^ 32 → NoCarry h (dmaPages size) →
      DmaGood h size align (rumpcompPciDmalloc h size align pa va)) ∧
    ((rumpcompPciDmalloc h size align pa va).rv ≠ 0 →
      (rumpcompPciDmalloc h size align pa va).pa = pa ∧ (rumpcompPciDmalloc h size align pa va).va =
      va) := by
  obtain ⟨rfl, rfl⟩ := managed_run hrun
  obtain ⟨-, heq⟩ | ⟨hne, heq⟩ := dmalloc_cases h size align pa va
  · rw [heq]
    have hfailed : (1 : Int) ≠ 0 := by decide
    exact ⟨fun hrv => absurd hrv hfailed, fun hrv => absurd hrv hfailed, fun _ => ⟨rfl, rfl⟩⟩
  · rw [heq]
    have hptr :
        (h.allocpg (dmaPages size)).1.toNat = (h.pages.bmkMembase.toNat + h.pages.offset) % 2 ^ 32 := by
      have hptr := allocpg_toNat h (dmaPages size)
      split at hptr
      · exact hptr
      · exact absurd (UInt32.toNat_inj.mp hptr) hne
    refine ⟨fun _ => ?_, fun _ hsize hle hfits hcarry => ?_, fun hrv => absurd rfl hrv⟩
    · rw [← hptr, ← reserved_iff hne]
      exact ⟨fun good => ⟨good.reserved, good.aligned, good.nowrap⟩,
        fun hall => ⟨rfl, hall.2.1, hall.1, hall.2.2⟩⟩
    · refine ⟨rfl, ?_, (reserved_iff hne).mpr hsize, allocpg_nowrap hsize hfits hcarry hne⟩
      obtain ⟨k, hk⟩ := halign
      have hk12 : k ≤ 12 := (Nat.pow_le_pow_iff_right (by decide)).mp (hk ▸ hle)
      rw [hk]
      exact (Nat.pow_dvd_pow 2 hk12).trans (allocpg_aligned hbase _)

/-- 5000 bytes at a multiple of 64, behind one page that is taken, in 16 MiB at 2 MiB. -/
theorem dmalloc_covers_iff_second :
    ∃ h, run allocStep (.boot 0x200000 0x1000000) [1] = some h ∧ (rumpcompPciDmalloc h 5000 64 0 0).rv = 0 ∧
      DmaGood h 5000 64 (rumpcompPciDmalloc h 5000 64 0 0) := by
  refine ⟨_, rfl, by decide +kernel, ?_⟩
  exact (dmalloc_covers_iff 5000 64 ⟨6, rfl⟩ (by decide)
    (show run allocStep (.boot 0x200000 0x1000000) [1] = some _ from rfl)
    0 0).2.1 (by decide +kernel) (by decide) (by decide) (by decide) (by decide +kernel)

/-- Not every call that succeeds: a size of `2^32 - 4095` reserves no page, and a page at `0x201000` is not
    a multiple of `0x2000`. -/
theorem dmalloc_short_or_misaligned :
    (∃ h, run allocStep (.boot 0x200000 0x1000000) [1] = some h ∧
      (rumpcompPciDmalloc h 0xfffff001 0x1000 0 0).rv = 0 ∧
      (rumpcompPciDmalloc h 0xfffff001 0x1000 0 0).pages.granted = [⟨0x201000, 0⟩, ⟨0x200000, 1⟩] ∧
      ¬DmaGood h 0xfffff001 0x1000 (rumpcompPciDmalloc h 0xfffff001 0x1000 0 0)) ∧
    ∃ h, run allocStep (.boot 0x200000 0x1000000) [1] = some h ∧
      (rumpcompPciDmalloc h 0x1000 0x2000 0 0).rv = 0 ∧ (rumpcompPciDmalloc h 0x1000 0x2000 0 0).pa =
      0x201000 ∧
      ¬DmaGood h 0x1000 0x2000 (rumpcompPciDmalloc h 0x1000 0x2000 0 0) := by
  refine ⟨⟨_, rfl, by decide, by decide, fun good => ?_⟩, ⟨_, rfl, by decide, by decide, fun good => ?_⟩⟩
  · exact absurd good.nowrap (by decide)
  · exact absurd good.aligned (by decide)

end RumpBaremetal
