/-
Module: RumpBaremetal.Proofs.Boot
Layer: Proofs
Purpose: What the bootstrap makes of the loader's memory map.  On a map of records that lie back to back
  `parsemem` finds the first region it can use and divides it exactly between the image and the pages; on
  any other content its loop ends in order exactly if no stride that it takes is zero or wraps.  `bmk_main`
  tests a flag of the multiboot header where the info structure has another, and follows the loader exactly
  if the two bits agree.
Trusted boundary: none (fully proved)
Main exports: scanMem_skips, parsemem_finds_region, StrideFits, parsemem_scan_ends_iff, GuardFollows,
  bmkMain_guard_iff
-/
import RumpBaremetal.Kernel.Boot
import RumpBaremetal.Lib.Align
import RumpBaremetal.Lib.Patch

namespace RumpBaremetal

open ByteMem Cursor

variable {mem : ByteMem} {img : KernelImage} {pages : PageState} {addr len : UInt32}

/-! ### Records back to back -/

theorem mapBytes_cons (e : MultibootMmapEntry) (entries : List MultibootMmapEntry) :
    mapBytes (e :: entries) = e.size.toNat + 4 + mapBytes entries := rfl

theorem mapBytes_append (before after : List MultibootMmapEntry) :
    mapBytes (before ++ after) = mapBytes before + mapBytes after := by
  simp [mapBytes]

/-- Every record takes at least the four bytes of its size field. -/
theorem length_le_mapBytes (entries : List MultibootMmapEntry) : entries.length ≤ mapBytes entries := by
  induction entries with
  | nil => exact le_rfl
  | cons e entries ih =>
      rw [mapBytes_cons, List.length_cons]
      omega

theorem stride_toNat {e : MultibootMmapEntry} (h : e.size.toNat + 4 < 2 ^ 32) :
    e.stride.toNat = e.size.toNat + 4 := by
  unfold MultibootMmapEntry.stride
  rw [UInt32.toNat_add, show (4 : UInt32).toNat = 4 from rfl, Nat.mod_eq_of_lt h]

/-- The offset that the loop has reached behind the records `before` it. -/
theorem off_toNat {off : UInt32} {n : Nat} (h : off.toNat + n < 2 ^ 32) :
    (off + UInt32.ofNat n).toNat = off.toNat + n := by
  rw [UInt32.toNat_add, UInt32.toNat_ofNat', Nat.mod_eq_of_lt (show n < 2 ^ 32 by omega),
    Nat.mod_eq_of_lt h]

/-- Records that cannot be used are skipped, one in each round. -/
theorem scanMem_skips {rest : List MultibootMmapEntry} {rounds : Nat} {visited : List UInt32}
    {last : UInt32} (before : List MultibootMmapEntry) :
    ∀ {off : UInt32}, MapAt mem (addr + off) (before ++ rest) → off.toNat + mapBytes before ≤ len.toNat →
      (∀ e ∈ before, e.usable = false) →
      scanMem mem addr len rounds (off + UInt32.ofNat (mapBytes before)) = some (visited, last) →
      ∃ visited', scanMem mem addr len (rounds + before.length) off = some (visited', last) := by
  induction before with
  | nil =>
      intro off _ _ _ hscan
      rw [show mapBytes [] = 0 from rfl, add_ofNat_zero] at hscan
      exact ⟨visited, hscan⟩
  | cons e before ih =>
      intro off hmap hle hnone hscan
      obtain ⟨hentry, hmap⟩ := hmap
      rw [mapBytes_cons] at hle hscan
      have hlt := len.toNat_lt
      have hin : offInside len off = true := decide_eq_true (UInt32.lt_iff_toNat_lt.mpr (by omega))
      have hnot : usableAt mem addr off = false := by
        unfold usableAt
        rw [hentry]
        exact hnone e List.mem_cons_self
      have hnext : nextOff mem addr off = off + e.stride := by
        unfold nextOff
        rw [hentry]
      have hoff : (off + e.stride).toNat = off.toNat + (e.size.toNat + 4) := by
        rw [UInt32.toNat_add, stride_toNat (by omega), Nat.mod_eq_of_lt (by omega)]
      have hsame : off + UInt32.ofNat (e.size.toNat + 4 + mapBytes before) =
          off + e.stride + UInt32.ofNat (mapBytes before) := by
        apply UInt32.toNat_inj.mp
        rw [off_toNat (by omega), off_toNat (by omega), hoff]
        omega
      rw [UInt32.add_assoc] at hmap
      rw [hsame] at hscan
      obtain ⟨visited', hrest⟩ := ih hmap (by omega) (fun x hx => hnone x (List.mem_cons_of_mem e hx)) hscan
      refine ⟨off :: visited', ?_⟩
      unfold scanMem at hrest ⊢
      rw [List.length_cons, ← Nat.add_assoc, walk_next hin hnot, hnext, hrest]
      rfl

/-- The whole scan of a map, from what it does behind the records that it skips. -/
theorem scanMem_all {before rest : List MultibootMmapEntry} {visited : List UInt32} {last : UInt32}
    (hmap : MapAt mem addr (before ++ rest)) (hle : mapBytes before ≤ len.toNat)
    (hnone : ∀ e ∈ before, e.usable = false)
    (hscan : scanMem mem addr len 1 (UInt32.ofNat (mapBytes before)) = some (visited, last)) :
    ∃ visited', scanMem mem addr len (2 ^ 32) 0 = some (visited', last) := by
  rw [← UInt32.add_zero addr] at hmap
  rw [← UInt32.zero_add (UInt32.ofNat (mapBytes before))] at hscan
  obtain ⟨visited', hskip⟩ := scanMem_skips before hmap (by simpa using hle) hnone hscan
  have hlen := length_le_mapBytes before
  have hlt := len.toNat_lt
  exact ⟨visited', walk_mono hskip (by omega)⟩

theorem mapAt_entry {before after : List MultibootMmapEntry} {e : MultibootMmapEntry} :
    ∀ {p : UInt32}, MapAt mem p (before ++ e :: after) →
      entryAt mem (p + UInt32.ofNat (mapBytes before)) = e := by
  induction before with
  | nil =>
      intro p hmap
      rw [show mapBytes [] = 0 from rfl, add_ofNat_zero]
      exact hmap.1
  | cons x before ih =>
      intro p hmap
      have hrest := ih hmap.2
      rwa [mapBytes_cons, UInt32.ofNat_add, UInt32.ofNat_add, UInt32.ofNat_toNat, ← UInt32.add_assoc]

/-- The first usable record ends the scan. -/
theorem scanMem_found {before after : List MultibootMmapEntry} {e : MultibootMmapEntry}
    (hmap : MapAt mem addr (before ++ e :: after)) (hlt : mapBytes before < len.toNat)
    (hnone : ∀ x ∈ before, x.usable = false) (he : e.usable = true) :
    ∃ visited, scanMem mem addr len (2 ^ 32) 0 = some (visited, UInt32.ofNat (mapBytes before)) := by
  have hlen := len.toNat_lt
  have hin : offInside len (UInt32.ofNat (mapBytes before)) = true := by
    apply decide_eq_true
    rw [UInt32.lt_iff_toNat_lt, UInt32.toNat_ofNat', Nat.mod_eq_of_lt (by omega)]
    exact hlt
  have hfound : usableAt mem addr (UInt32.ofNat (mapBytes before)) = true := by
    unfold usableAt
    rw [mapAt_entry hmap]
    exact he
  exact scanMem_all hmap hlt.le hnone (walk_found hin hfound)

/-- Without a usable record the scan comes to the end of the map. -/
theorem scanMem_exhausted {entries : List MultibootMmapEntry} (hmap : MapAt mem addr entries)
    (hlen : mapBytes entries = len.toNat) (hnone : ∀ x ∈ entries, x.usable = false) :
    ∃ visited, scanMem mem addr len (2 ^ 32) 0 = some (visited, len) := by
  have hend : UInt32.ofNat (mapBytes entries) = len := by
    rw [hlen, UInt32.ofNat_toNat]
  have hout : offInside len len = false := decide_eq_false (Nat.lt_irrefl _)
  rw [← List.append_nil entries] at hmap
  have hlast : scanMem mem addr len 1 (UInt32.ofNat (mapBytes entries)) = some ([], len) := by
    rw [hend]
    exact walk_outside hout
  exact scanMem_all hmap hlen.le hnone hlast

/-! ### The division of the region -/

theorem roundPage_toNat {x : UInt32} (h : x.toNat + 4096 ≤ 2 ^ 32) :
    (roundPage x).toNat = roundUp x.toNat 4096 := by
  have hpage : pageSize.toNat = 2 ^ 12 := rfl
  exact UInt32.toNat_round hpage h

/-- What the image takes of the region, in exact arithmetic. -/
theorem ossize_toNat (hbegin : img.imageBegin = 0x100000) (hend : img.imageEnd.toNat < 2 ^ 32 - 4096) :
    img.ossize.toNat + 0x100000 = roundUp img.imageEnd.toNat 4096 := by
  have hround := roundPage_toNat (x := img.imageEnd) (by omega)
  have hup := le_roundUp (a := 4096) (by decide) img.imageEnd.toNat
  have hle : (0x100000 : UInt32).toNat ≤ img.imageEnd.toNat := by
    rw [← hbegin]
    exact UInt32.le_iff_toNat_le.mp img.begin_le_end
  rw [show (0x100000 : UInt32).toNat = 0x100000 from rfl] at hle
  have hfit : img.imageBegin ≤ roundPage img.imageEnd := by
    rw [UInt32.le_iff_toNat_le, hround, hbegin]
    exact hle.trans hup
  unfold KernelImage.ossize
  rw [UInt32.toNat_sub_of_le _ _ hfit, hround, hbegin, show (0x100000 : UInt32).toNat = 0x100000 from rfl]
  omega

theorem parsemem_found {visited : List UInt32} {off : UInt32}
    (hscan : scanMem mem addr len (2 ^ 32) 0 = some (visited, off)) (hin : off < len) :
    parsemem mem img pages addr len = .returned 0 (pages.fromEntry img (entryAt mem (addr + off))) := by
  simp only [parsemem, hscan, if_pos hin]

theorem parsemem_asserted {visited : List UInt32} {off : UInt32}
    (hscan : scanMem mem addr len (2 ^ 32) 0 = some (visited, off)) (hout : ¬ off < len) :
    parsemem mem img pages addr len = .asserted := by
  simp only [parsemem, hscan, if_neg hout]

theorem parsemem_endless (hscan : scanMem mem addr len (2 ^ 32) 0 = none) :
    parsemem mem img pages addr len = .endless := by
  simp only [parsemem, hscan]

/-- The pages begin where the image ends and end where the region ends. -/
theorem fromEntry_divides (pages : PageState) (hbegin : img.imageBegin = 0x100000)
    (hend : img.imageEnd.toNat < 2 ^ 32 - 4096) {e : MultibootMmapEntry} (he : e.usable = true)
    (hsize : roundUp img.imageEnd.toNat 4096 ≤ 0x100000 + e.len.toNat)
    (hfit : 0x100000 + e.len.toNat ≤ 2 ^ 32) :
    (pages.fromEntry img e).bmkMembase.toNat = roundUp img.imageEnd.toNat 4096 ∧
      (pages.fromEntry img e).bmkMembase.toNat + (pages.fromEntry img e).bmkMemsize.toNat =
      0x100000 + e.len.toNat := by
  have hos := ossize_toNat hbegin hend
  have haddr : e.addr = memstart := by
    simp only [MultibootMmapEntry.usable, Bool.and_eq_true, decide_eq_true_eq] at he
    exact he.1
  have hround := roundUp_lt (a := 4096) (by decide) img.imageEnd.toNat
  have hbase : (pages.fromEntry img e).bmkMembase.toNat = roundUp img.imageEnd.toNat 4096 := by
    simp only [PageState.fromEntry, haddr, UInt64.toNat_toUInt32, UInt64.toNat_add, UInt32.toNat_toUInt64]
    rw [show memstart.toNat = 0x100000 from rfl]
    omega
  have hlen : e.len.toUInt32.toNat = e.len.toNat := by
    rw [UInt64.toNat_toUInt32]
    omega
  have hle : img.ossize ≤ e.len.toUInt32 := by
    rw [UInt32.le_iff_toNat_le, hlen]
    omega
  refine ⟨hbase, ?_⟩
  rw [hbase]
  simp only [PageState.fromEntry]
  rw [UInt32.toNat_sub_of_le _ _ hle, hlen]
  omega

/-- On every map of records back to back: the first usable record is taken and divided exactly; if there is
    none, the assertion stops the boot and the globals are as they were. -/
theorem parsemem_finds_region (mem : ByteMem) (img : KernelImage) (pages : PageState) (addr len : UInt32)
    (entries : List MultibootMmapEntry) (hmap : MapAt mem addr entries)
    (hlen : mapBytes entries = len.toNat) (hbegin : img.imageBegin = 0x100000)
    (hend : img.imageEnd.toNat < 2 ^ 32 - 4096) :
    (∀ e, entries.find? MultibootMmapEntry.usable = some e →
      ∃ pages', parsemem mem img pages addr len = .returned 0 pages' ∧ pages' = pages.fromEntry img e ∧
        (∃ before after visited, entries = before ++ e :: after ∧ (∀ x ∈ before, x.usable = false) ∧
          scanMem mem addr len (2 ^ 32) 0 = some (visited, UInt32.ofNat (mapBytes before))) ∧
        (roundUp img.imageEnd.toNat 4096 - 0x100000 ≤ e.len.toNat → 0x100000 + e.len.toNat ≤ 2 ^ 32 →
          pages'.bmkMembase.toNat % 4096 = 0 ∧ img.imageEnd ≤ pages'.bmkMembase ∧
            pages'.bmkMembase.toNat + pages'.bmkMemsize.toNat = 0x100000 + e.len.toNat)) ∧
    (entries.find? MultibootMmapEntry.usable = none →
      parsemem mem img pages addr len = .asserted ∧
        ∀ (flags : UInt32) (s : Boot), flags &&& multibootMemoryInfo ≠ 0 →
          ∃ console, bmkMain mem img ⟨flags, len, addr⟩ s = (.asserted, ⟨s.pages, console⟩)) := by
  refine ⟨fun e he => ?_, fun hnone => ?_⟩
  · obtain ⟨husable, before, after, rfl, hbefore⟩ := List.find?_eq_some_iff_append.mp he
    have hnot : ∀ x ∈ before, x.usable = false := fun x hx => by simpa using hbefore x hx
    have hlt : mapBytes before < len.toNat := by
      rw [← hlen, mapBytes_append, mapBytes_cons]
      omega
    obtain ⟨visited, hscan⟩ := scanMem_found hmap hlt hnot husable
    have hin : UInt32.ofNat (mapBytes before) < len := by
      have := len.toNat_lt
      rw [UInt32.lt_iff_toNat_lt, UInt32.toNat_ofNat', Nat.mod_eq_of_lt (by omega)]
      exact hlt
    have hfound : parsemem mem img pages addr len = .returned 0 (pages.fromEntry img e) := by
      rw [parsemem_found hscan hin, mapAt_entry hmap]
    refine ⟨_, hfound, rfl, ⟨before, after, visited, rfl, hnot, hscan⟩, fun hsize hfit => ?_⟩
    obtain ⟨hbase, hsum⟩ := fromEntry_divides pages hbegin hend husable (by omega) hfit
    refine ⟨?_, ?_, hsum⟩
    · rw [hbase]
      exact Nat.mod_eq_zero_of_dvd (dvd_roundUp _ _)
    · rw [UInt32.le_iff_toNat_le, hbase]
      exact le_roundUp (by decide) _
  · have hnot : ∀ x ∈ entries, x.usable = false := fun x hx => by
      simpa using List.find?_eq_none.mp hnone x hx
    obtain ⟨visited, hscan⟩ := scanMem_exhausted hmap hlen hnot
    have hout : ¬ len < len := Nat.lt_irrefl _
    refine ⟨parsemem_asserted hscan hout, fun flags s hflags => ?_⟩
    simp only [bmkMain, if_neg hflags, parsemem_asserted hscan hout]
    exact ⟨_, rfl⟩

/-- The bytes of a map at `0x9000`, as a loader lays them out: the memory below 640 KiB, and 16 MiB from
    `MEMSTART` on behind a record that is four bytes longer than it need be. -/
def sampleMap : ByteMem := fun a =>
  if a < 0x9000 then 0
  else
    [20, 0, 0, 0, 0, 0, 0, 0, 0, 0, 0, 0, 0, 0xfc, 9, 0, 0, 0, 0, 0, 1, 0, 0, 0,
      24, 0, 0, 0, 0, 0, 0xf, 0, 0, 0, 0, 0, 0, 0, 1, 0, 0, 0, 0, 0, 2, 0, 0, 0, 0xaa, 0xaa, 0xaa, 0xaa,
      20, 0, 0, 0, 0, 0, 0x10, 0, 0, 0, 0, 0, 0, 0, 0, 1, 0, 0, 0, 0, 1, 0, 0, 0].getD (a - 0x9000) 0

/-- An image of half a megabyte and one byte. -/
def sampleImage : KernelImage := ⟨0x100000, 0x180001, by decide⟩

/-- The region of 16 MiB at `MEMSTART`, with `0x81000` bytes of it taken by the image. -/
theorem parsemem_finds_region_sample :
    ∃ pages', parsemem sampleMap sampleImage ⟨0, 0, 0⟩ 0x9000 76 = .returned 0 pages' ∧
      pages'.bmkMembase.toNat % 4096 = 0 ∧ sampleImage.imageEnd ≤ pages'.bmkMembase ∧
      pages'.bmkMembase.toNat + pages'.bmkMemsize.toNat = 0x100000 + 0x1000000 := by
  have hmap : MapAt sampleMap 0x9000
      [⟨20, 0, 0x9fc00, 1⟩, ⟨24, 0xf0000, 0x10000, 2⟩, ⟨20, 0x100000, 0x1000000, 1⟩] := by
    decide +kernel
  obtain ⟨hfound, -⟩ :=
    parsemem_finds_region sampleMap sampleImage ⟨0, 0, 0⟩ 0x9000 76 _ hmap rfl rfl (by decide)
  obtain ⟨pages', hparse, -, -, hdivides⟩ := hfound ⟨20, 0x100000, 0x1000000, 1⟩ rfl
  exact ⟨pages', hparse, hdivides (by decide) (by decide)⟩

/-! ### Any content of the map -/

/-- The stride of the record at `off` moves the offset forward: it is not zero, and the sum does not
    wrap. -/
def StrideFits (mem : ByteMem) (addr off : UInt32) : Prop :=
  (entryAt mem (addr + off)).stride ≠ 0 ∧ off.toNat + (entryAt mem (addr + off)).stride.toNat < 2 ^ 32

theorem lt_nextOff_iff (mem : ByteMem) (addr off : UInt32) :
    off.toNat < (nextOff mem addr off).toNat ↔ StrideFits mem addr off := by
  unfold nextOff StrideFits
  generalize (entryAt mem (addr + off)).stride = stride
  have hoff := off.toNat_lt
  have hstride := stride.toNat_lt
  have hzero : stride ≠ 0 ↔ stride.toNat ≠ 0 := UInt32.toNat_inj.symm.not
  rw [UInt32.toNat_add, hzero]
  omega

theorem offInside_of_le {a b : UInt32} (hle : a.toNat ≤ b.toNat) (h : offInside len b = true) :
    offInside len a = true := by
  have hb : b < len := of_decide_eq_true h
  rw [UInt32.lt_iff_toNat_lt] at hb
  exact decide_eq_true (UInt32.lt_iff_toNat_lt.mpr (hle.trans_lt hb))

/-- A scan that only moves forward ends, since every step brings it closer to the end of the map. -/
theorem scanMem_ends (h : ∀ off, Visits (offInside len) (usableAt mem addr) (nextOff mem addr) 0 off →
      usableAt mem addr off = false → StrideFits mem addr off) :
    ∃ r, scanMem mem addr len (2 ^ 32) 0 = some r := by
  refine walk_ends (fun off => 2 ^ 32 - 1 - off.toNat) (by decide) fun off hoff hnot => ?_
  have hup := (lt_nextOff_iff mem addr off).mpr (h off hoff hnot)
  have hlt := (nextOff mem addr off).toNat_lt
  omega

/-- For every content of the map buffer and every length: the scan looks at records at increasing offsets
    and ends, at a usable record or at the assertion, exactly if the stride of every record that it steps
    over fits.  A scan that has not ended after `2^32` records never ends. -/
theorem parsemem_scan_ends_iff (mem : ByteMem) (addr len : UInt32) :
    ((∃ visited off, scanMem mem addr len (2 ^ 32) 0 = some (visited, off) ∧ visited.Pairwise (· < ·) ∧
        ((off < len ∧ usableAt mem addr off = true) ∨ ¬ off < len)) ↔
      ∀ off, Visits (offInside len) (usableAt mem addr) (nextOff mem addr) 0 off →
        usableAt mem addr off = false →
        StrideFits mem addr off) ∧
    (∀ img pages, parsemem mem img pages addr len = .endless ↔
      ∀ rounds, scanMem mem addr len rounds 0 = none) := by
  refine ⟨⟨?_, fun hfits => ?_⟩, fun img pages => ⟨fun hendless rounds => ?_, fun hnone => ?_⟩⟩
  · rintro ⟨visited, last, hscan, hsorted, -⟩ off hoff hnot
    have hup := (walk_sorted_iff UInt32.toNat offInside_of_le hscan).mp hsorted off hoff hnot
    exact (lt_nextOff_iff mem addr off).mp hup
  · obtain ⟨⟨visited, last⟩, hscan⟩ := scanMem_ends hfits
    have hup : ∀ off, Visits (offInside len) (usableAt mem addr) (nextOff mem addr) 0 off →
        usableAt mem addr off = false → off.toNat < (nextOff mem addr off).toNat :=
      fun off hoff hnot => (lt_nextOff_iff mem addr off).mpr (hfits off hoff hnot)
    refine ⟨visited, last, hscan, (walk_sorted_iff UInt32.toNat offInside_of_le hscan).mpr hup, ?_⟩
    obtain hout | ⟨hin, hfound⟩ := walk_last hscan
    · exact .inr (of_decide_eq_false hout)
    · exact .inl ⟨of_decide_eq_true hin, hfound⟩
  · have hnone : scanMem mem addr len (2 ^ 32) 0 = none := by
      cases hscan : scanMem mem addr len (2 ^ 32) 0 with
      | none => rfl
      | some r =>
          by_cases hin : r.2 < len
          · rw [parsemem_found hscan hin] at hendless
            cases hendless
          · rw [parsemem_asserted hscan hin] at hendless
            cases hendless
    exact walk_none_all UInt32.toFin (fun _ _ h => UInt32.toFin_inj.mp h) hnone rounds
  · exact parsemem_endless (hnone _)

/-- A record whose size is `2^32 - 4`: the stride is zero, and the scan looks at this record for ever. -/
theorem parsemem_scan_stuck :
    let mem : ByteMem := fun a => if a = 0 then 0xfc else 0xff
    (∀ rounds, scanMem mem 0 24 rounds 0 = none) ∧
      parsemem mem sampleImage ⟨0, 0, 0⟩ 0 24 = .endless := by
  intro mem
  have hnext : nextOff mem 0 0 = 0 := by decide +kernel
  have hnone : ∀ rounds, scanMem mem 0 24 rounds 0 = none := by
    intro rounds
    refine walk_none_iff.mpr fun k _ => ?_
    rw [Function.iterate_fixed hnext]
    exact ⟨by decide +kernel, by decide +kernel⟩
  exact ⟨hnone, parsemem_endless (hnone _)⟩

/-! ### The flag that `bmk_main` tests -/

/-- The bytes that the info structure designates as the map. -/
def MultibootInfo.mmap (mbi : MultibootInfo) : Extent := ⟨mbi.mmapAddr.toNat, mbi.mmapLength.toNat⟩

/-- Two boots that differ in where the map is, how long it is and what it says, and in nothing else. -/
structure MapDiffers (mem mem' : ByteMem) (mbi mbi' : MultibootInfo) : Prop where
  flags : mbi'.flags = mbi.flags
  elsewhere : ∀ c, (c < mbi.mmap.start ∨ mbi.mmap.fin ≤ c) → (c < mbi'.mmap.start ∨ mbi'.mmap.fin ≤ c) →
    mem' c = mem c

/-- `bmk_main` looks at the map exactly if the loader has declared it valid. -/
structure GuardFollows (flags : UInt32) : Prop where
  /-- Without the declaration nothing depends on the map. -/
  ignores : flags &&& multibootInfoMemMap = 0 → ∀ mem mem' img mbi mbi' s, mbi.flags = flags →
    MapDiffers mem mem' mbi mbi' → bmkMain mem img mbi s = bmkMain mem' img mbi' s
  /-- With it the map is parsed. -/
  parses : flags &&& multibootInfoMemMap ≠ 0 → ∀ mem img mbi s, mbi.flags = flags →
    bmkMain mem img mbi s =
      afterParsemem (s.puts banner) (parsemem mem img s.pages mbi.mmapAddr mbi.mmapLength)

theorem bmkMain_refuses {mbi : MultibootInfo} {s : Boot} (h : mbi.flags &&& multibootMemoryInfo = 0) :
    bmkMain mem img mbi s = (.returned, (s.puts banner).puts "multiboot memory info not available\n") :=
    if_pos h

theorem bmkMain_parses {mbi : MultibootInfo} {s : Boot} (h : mbi.flags &&& multibootMemoryInfo ≠ 0) :
    bmkMain mem img mbi s =
      afterParsemem (s.puts banner) (parsemem mem img s.pages mbi.mmapAddr mbi.mmapLength) := if_neg h

/-- A map without records. -/
theorem parsemem_empty (mem : ByteMem) (img : KernelImage) (pages : PageState) (addr : UInt32) :
    parsemem mem img pages addr 0 = .asserted := by
  have hscan : scanMem mem addr 0 (2 ^ 32) 0 = some ([], 0) := walk_outside rfl
  exact parsemem_asserted hscan (by decide)

theorem sampleMap_elsewhere {c : Nat} (h : c < 0x9000 ∨ 0x9000 + 76 ≤ c) : sampleMap c = 0 := by
  unfold sampleMap
  split
  · rfl
  · apply List.getD_eq_default
    simp only [List.length_cons, List.length_nil]
    omega

theorem parsemem_sample :
    parsemem sampleMap sampleImage ⟨0, 0, 0⟩ 0x9000 76 = .returned 0 ⟨0x181000, 0xf7f000, 0⟩ := by
  decide +kernel

/-- For every value of the flags: `bmk_main` follows the loader exactly if `MULTIBOOT_MEMORY_INFO`, the bit
    that it tests, is set whenever `MULTIBOOT_INFO_MEM_MAP` is and never without it. -/
theorem bmkMain_guard_iff (flags : UInt32) :
    GuardFollows flags ↔ (flags &&& multibootMemoryInfo = 0 ↔ flags &&& multibootInfoMemMap = 0) := by
  refine ⟨fun hfollows => ⟨fun hinfo => ?_, fun hmap => ?_⟩, fun hiff => ⟨fun hmap => ?_, fun hmap => ?_⟩⟩
  · by_contra hmap
    have hparse := hfollows.parses hmap (fun _ => 0) sampleImage ⟨flags, 0, 0⟩ ⟨⟨0, 0, 0⟩, []⟩ rfl
    rw [bmkMain_refuses hinfo, parsemem_empty] at hparse
    cases hparse
  · by_contra hinfo
    have hdiffers : MapDiffers (fun _ => 0) sampleMap ⟨flags, 0, 0x9000⟩ ⟨flags, 76, 0x9000⟩ :=
      ⟨rfl, fun c _ hc => sampleMap_elsewhere hc⟩
    have hsame := hfollows.ignores hmap _ _ sampleImage _ _ ⟨⟨0, 0, 0⟩, []⟩ rfl hdiffers
    rw [bmkMain_parses hinfo, bmkMain_parses hinfo, parsemem_empty, parsemem_sample] at hsame
    cases hsame
  · intro mem mem' img mbi mbi' s hflags hdiffers
    rw [bmkMain_refuses, bmkMain_refuses]
    · rw [hdiffers.flags, hflags]
      exact hiff.mpr hmap
    · rw [hflags]
      exact hiff.mpr hmap
  · intro mem img mbi s hflags
    apply bmkMain_parses
    rw [hflags]
    exact fun hinfo => hmap (hiff.mp hinfo)

/-- A loader that sets the bit of the boot device only, without a map: the boot goes on with a map that
    happens to be where `mmap_addr` points, and stops where there is none.  One that declares a map and no
    boot device is told that there is none. -/
theorem bmkMain_wrong_flag :
    (bmkMain sampleMap sampleImage ⟨2, 76, 0x9000⟩ ⟨⟨0, 0, 0⟩, []⟩).1 = .started ∧
      (bmkMain (fun _ => 0) sampleImage ⟨2, 0, 0x9000⟩ ⟨⟨0, 0, 0⟩, []⟩).1 = .asserted ∧
      (bmkMain sampleMap sampleImage ⟨0x40, 76, 0x9000⟩ ⟨⟨0, 0, 0⟩, []⟩).1 = .returned := by
  decide +kernel

end RumpBaremetal
