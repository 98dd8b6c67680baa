/-
Module: RumpBaremetal.Proofs.Rumpuser
Layer: Proofs
Purpose: What the hypercalls of rumpuser.c promise their callers.  `rumpuser_malloc` sends requests of one
  page past the allocator, which alone looks at the alignment; `rumpuser_getrandom` works in words and
  reports bytes; the digits of `RUMP_MEMLIMIT` are produced in reverse and turned around.
Trusted boundary: none (fully proved)
Main exports: bmkMemalloc_aligned, MallocAgrees, rumpuserMalloc_agrees_iff, randomLoop_eq,
  randomLoop_append, getrandom_fills_iff, memlimitDigits_eq, ParamStrings, memlimit_rendered
-/
import RumpBaremetal.Lib.Decimal
import RumpBaremetal.Proofs.Store
import RumpBaremetal.Proofs.Subr

namespace RumpBaremetal

open ByteMem StepSystem

/-! ### The alignment of what is allocated -/

/-- Whatever state the heap is in: an alignment that is served has passed the test, and the pointer is a
    multiple of it. -/
theorem bmkMemalloc_aligned {Pages : Type*} {allocpg : Pages → UInt32 → UInt32 × Pages} {h : Heap}
    {pages : Pages} {nbytes align : UInt32} (hne : (bmkMemalloc allocpg h pages nbytes align).1 ≠ 0) :
    align &&& (align - 1) = 0 ∧
      (align ≠ 0 → align.toNat ∣ (bmkMemalloc allocpg h pages nbytes align).1.toNat) := by
  rw [bmkMemalloc_eq] at hne ⊢
  cases hclass : classOf (initPagesz h) nbytes align with
  | none =>
      rw [hclass] at hne
      exact absurd rfl hne
  | some cls =>
      have htest : align &&& (align - 1) = 0 := by
        by_contra hfail
        simp [classOf, hfail] at hclass
      obtain ⟨k, -, -, halign, hdvd⟩ := effectiveAlign_pow htest
      simp only [hclass, serve] at hne ⊢
      split at hne
      · exact absurd rfl hne
      · rename_i hop
        refine ⟨htest, fun halign0 => (hdvd halign0).trans ?_⟩
        rw [if_neg hop]
        simp only [takeBlock]
        rw [UInt32.toNat_mask halign]
        exact Nat.dvd_mul_left _ _

/-- The pages of the source start at multiples of the page size if the managed memory does. -/
theorem allocpg_aligned {p : PageHistory} (hbase : p.pages.bmkMembase % pageSize = 0) (howmany : UInt32) :
    4096 ∣ (p.allocpg howmany).1.toNat := by
  have hbase' : p.pages.bmkMembase.toNat % 4096 = 0 := by
    rw [← UInt32.toNat_inj, UInt32.toNat_mod] at hbase
    exact hbase
  simp only [PageHistory.allocpg, bmkAllocpg]
  split
  · exact Nat.dvd_zero _
  · rw [rv_toNat]
    unfold PageState.offset
    rw [UInt32.toNat_mul, show pageSize.toNat = 4096 from rfl]
    omega

theorem membase_run {mem : ByteMem} {bmkMembase bmkMemsize : UInt32} {requests : List StoreRequest}
    {s : Store} (hrun : run storeStep (.boot mem bmkMembase bmkMemsize) requests = some s) :
    s.pages.pages.bmkMembase = bmkMembase := by
  refine run_invariant (I := fun s => s.pages.pages.bmkMembase = bmkMembase) ?_ rfl hrun
  intro s r s' hs hstep
  rw [(storeStep_inv hstep).2, request_pages]
  split
  · exact hs
  · rw [(allocpg_state _ _).1]
    exact hs

/-- What the callers of `rumpuser_malloc` rely on, for one request in one state. -/
structure MallocAgrees (s : Store) (howmuch : UInt32) (alignment : Int32) : Prop where
  /-- Success means a valid alignment, and a pointer that has it. -/
  aligned : ∀ memp, (rumpuserMalloc s howmuch alignment memp).1 = 0 → alignment ≠ 0 →
    alignment.toNatClampNeg.isPowerOfTwo ∧
      alignment.toNatClampNeg ∣ (rumpuserMalloc s howmuch alignment memp).2.1.toNat
  /-- What the allocator refuses is refused. -/
  refused : alignment.toUInt32 &&& (alignment.toUInt32 - 1) ≠ 0 →
    ∀ memp, (rumpuserMalloc s howmuch alignment memp).1 ≠ 0
  /-- A request that fails leaves the caller's variable alone. -/
  unchanged : ∀ memp, (rumpuserMalloc s howmuch alignment memp).1 ≠ 0 →
    (rumpuserMalloc s howmuch alignment memp).2.1 = memp

/-- The pointer behind a request, `0` for `NULL`. -/
def mallocPointer (s : Store) (howmuch : UInt32) (alignment : Int32) : UInt32 :=
  if howmuch = pageSize then (s.pages.allocpg 1).1
  else (bmkMemalloc PageHistory.allocpg s.heap s.pages howmuch alignment.toUInt32).1

theorem rumpuserMalloc_eq (s : Store) (howmuch : UInt32) (alignment : Int32) (memp : UInt32) :
    (mallocPointer s howmuch alignment ≠ 0 ∧ (rumpuserMalloc s howmuch alignment memp).1 = 0 ∧
      (rumpuserMalloc s howmuch alignment memp).2.1 = mallocPointer s howmuch alignment) ∨
    (mallocPointer s howmuch alignment = 0 ∧ (rumpuserMalloc s howmuch alignment memp).1 = eNomem ∧
      (rumpuserMalloc s howmuch alignment memp).2.1 = memp) := by
  unfold mallocPointer rumpuserMalloc
  by_cases hpage : howmuch = pageSize
  · simp only [if_pos hpage]
    split
    · exact .inl ⟨by assumption, rfl, rfl⟩
    · rename_i hnull
      exact .inr ⟨not_not.mp hnull, rfl, rfl⟩
  · simp only [if_neg hpage]
    split
    · exact .inl ⟨by assumption, rfl, rfl⟩
    · rename_i hnull
      exact .inr ⟨not_not.mp hnull, rfl, rfl⟩

theorem toUInt32_ne_zero {alignment : Int32} (h : alignment ≠ 0) : alignment.toUInt32 ≠ 0 := by
  intro hzero
  exact h (Int32.toBitVec_inj.mp (congrArg UInt32.toBitVec hzero))

/-- It comes down to the pointer. -/
theorem mallocAgrees_iff (s : Store) (howmuch : UInt32) {alignment : Int32} (hnonneg : 0 ≤ alignment) :
    MallocAgrees s howmuch alignment ↔
      (mallocPointer s howmuch alignment ≠ 0 → alignment ≠ 0 →
        alignment.toNatClampNeg.isPowerOfTwo ∧
          alignment.toNatClampNeg ∣ (mallocPointer s howmuch alignment).toNat) := by
  refine ⟨fun h hptr hne => ?_,
    fun h => ⟨fun memp hok hne => ?_, fun hfail memp hok => ?_, fun memp hfail => ?_⟩⟩
  · obtain ⟨-, hok, heq⟩ | ⟨hnull, -⟩ := rumpuserMalloc_eq s howmuch alignment 0
    · rw [← heq]
      exact h.aligned 0 hok hne
    · exact absurd hnull hptr
  · obtain ⟨hptr, -, heq⟩ | ⟨-, herror, -⟩ := rumpuserMalloc_eq s howmuch alignment memp
    · rw [heq]
      exact h hptr hne
    · rw [herror] at hok
      cases hok
  · obtain ⟨hptr, -⟩ | ⟨-, herror, -⟩ := rumpuserMalloc_eq s howmuch alignment memp
    · have hne : alignment ≠ 0 := by
        rintro rfl
        exact hfail rfl
      obtain ⟨hpow, -⟩ := h hptr hne
      rw [← Int32.toNat_toUInt32_of_le hnonneg] at hpow
      exact hfail ((UInt32.test_iff (toUInt32_ne_zero hne)).mpr hpow)
    · rw [herror] at hok
      cases hok
  · obtain ⟨-, hok, -⟩ | ⟨-, -, heq⟩ := rumpuserMalloc_eq s howmuch alignment memp
    · exact absurd hok hfail
    · exact heq

/-- The allocator keeps the promise for every size that reaches it. -/
theorem mallocPointer_general {s : Store} {howmuch : UInt32} {alignment : Int32} (hnonneg : 0 ≤ alignment)
    (hpage : howmuch ≠ pageSize) (hptr : mallocPointer s howmuch alignment ≠ 0) (hne : alignment ≠ 0) :
    alignment.toNatClampNeg.isPowerOfTwo ∧
    alignment.toNatClampNeg ∣ (mallocPointer s howmuch alignment).toNat := by
  unfold mallocPointer at hptr ⊢
  rw [if_neg hpage] at hptr ⊢
  obtain ⟨htest, hdvd⟩ := bmkMemalloc_aligned hptr
  rw [← Int32.toNat_toUInt32_of_le hnonneg]
  exact ⟨(UInt32.test_iff (toUInt32_ne_zero hne)).mp htest, hdvd (toUInt32_ne_zero hne)⟩

/-- For every request: the page path agrees with the general one in all states that the store can reach,
    exactly if the request is not for one page, or has an alignment that every page has. -/
theorem rumpuserMalloc_agrees_iff (howmuch : UInt32) (alignment : Int32) (hnonneg : 0 ≤ alignment) :
    (∀ mem bmkMembase bmkMemsize requests s, bmkMembase % pageSize = 0 →
      run storeStep (.boot mem bmkMembase bmkMemsize) requests = some s →
      MallocAgrees s howmuch alignment) ↔
    (howmuch = pageSize →
      alignment = 0 ∨ alignment.toNatClampNeg.isPowerOfTwo ∧ alignment.toNatClampNeg ≤ 2 ^ 12) := by
  refine ⟨fun h hpage => ?_, fun hcond mem bmkMembase bmkMemsize requests s hbase hrun => ?_⟩
  · -- a first page at `0x1000` is a multiple of nothing larger
    have hagrees := h (fun _ => 0) 0x1000 0x1000 [] _ (by decide) rfl
    rw [mallocAgrees_iff _ _ hnonneg] at hagrees
    have hptr : mallocPointer (.boot (fun _ => 0) 0x1000 0x1000) howmuch alignment = 0x1000 := by
      unfold mallocPointer
      rw [if_pos hpage]
      rfl
    rw [hptr] at hagrees
    refine or_iff_not_imp_left.mpr fun hne => ?_
    obtain ⟨hpow, hdvd⟩ := hagrees (by decide) hne
    exact ⟨hpow, Nat.le_of_dvd (by decide) hdvd⟩
  · rw [mallocAgrees_iff _ _ hnonneg]
    intro hptr hne
    by_cases hpage : howmuch = pageSize
    · obtain ⟨hpow, hle⟩ := (hcond hpage).resolve_left hne
      refine ⟨hpow, ?_⟩
      obtain ⟨k, hk⟩ := hpow
      have hdvd : alignment.toNatClampNeg ∣ 2 ^ 12 := by
        rw [hk] at hle ⊢
        exact pow_dvd_of_le hle
      unfold mallocPointer
      rw [if_pos hpage]
      have hsame := membase_run hrun
      exact hdvd.trans (allocpg_aligned (by rw [hsame]; exact hbase) 1)
    · exact mallocPointer_general hnonneg hpage hptr hne

/-- A request for 100 bytes at a multiple of 64, in 16 MiB at 2 MiB. -/
theorem rumpuserMalloc_agrees_iff_general :
    MallocAgrees (.boot (fun _ => 0) 0x200000 0x1000000) 100 64 := by
  have hall := (rumpuserMalloc_agrees_iff 100 64 (by decide)).mpr fun hpage => absurd hpage (by decide)
  exact hall (fun _ => 0) 0x200000 0x1000000 [] _ (by decide) rfl

/-- A page is given out for the alignment 3, which the allocator refuses, and for the alignment 8192 at an
    odd multiple of 4096. -/
theorem rumpuserMalloc_page_ignores_alignment :
    (rumpuserMalloc (.boot (fun _ => 0) 0x201000 0x1000000) 4096 3 0).1 = 0 ∧
      (rumpuserMalloc (.boot (fun _ => 0) 0x201000 0x1000000) 4095 3 0).1 = eNomem ∧
      (rumpuserMalloc (.boot (fun _ => 0) 0x201000 0x1000000) 4096 8192 0).1 = 0 ∧
      (rumpuserMalloc (.boot (fun _ => 0) 0x201000 0x1000000) 4096 8192 0).2.1 = 0x201000 := by
  decide +kernel

/-! ### Random bytes -/

/-- The loop in closed form: whole words, each from the next seed. -/
theorem randomLoop_eq {n : Nat} : ∀ (mem : ByteMem) (v seed : UInt32), n ≤ 2 ^ 32 →
    randomLoop mem v seed n =
      (patch mem v (n / 4 * 4) fun i => byte (nextSeed^[i / 4] seed) (i % 4), nextSeed^[n / 4] seed) := by
  induction n using Nat.strong_induction_on with
  | _ n ih =>
      intro mem v seed hn
      by_cases hshort : n < 4
      · have hzero : n / 4 = 0 := by omega
        have hend : randomLoop mem v seed n = (mem, seed) := by
          obtain rfl | rfl | rfl | rfl : n = 0 ∨ n = 1 ∨ n = 2 ∨ n = 3 := by omega
          all_goals rfl
        rw [hend, hzero, Nat.zero_mul, patch_zero, Function.iterate_zero_apply]
      · obtain ⟨n, rfl⟩ := Nat.exists_eq_add_of_le' (Nat.le_of_not_lt hshort)
        have hword : storeBytes mem v (wordBytes seed) = patch mem v 4 fun i => (wordBytes seed).getD i 0 :=
          storeBytes_eq mem v (show 4 ≤ 2 ^ 32 by decide)
        have hfour : v + 4 = v + UInt32.ofNat 4 := rfl
        rw [randomLoop, ih n (by omega) _ _ _ (by omega), hword, hfour, patch_append mem v (by omega)]
        have hdiv : (n + 4) / 4 = n / 4 + 1 := by omega
        rw [hdiv, Function.iterate_succ_apply, show 4 + n / 4 * 4 = (n / 4 + 1) * 4 by omega]
        congr 2
        funext i
        split
        · rename_i hi
          obtain rfl | rfl | rfl | rfl : i = 0 ∨ i = 1 ∨ i = 2 ∨ i = 3 := by omega
          all_goals rfl
        · rename_i hi
          rw [← Function.iterate_succ_apply,
            show ((i - 4) / 4).succ = i / 4 by omega, show (i - 4) % 4 = i % 4 by omega]

/-- Whole words first, and then the rest from where they end. -/
theorem randomLoop_append (k n : Nat) : ∀ (mem : ByteMem) (v seed : UInt32),
    randomLoop mem v seed (n + 4 * k) =
      randomLoop (randomLoop mem v seed (4 * k)).1 (v + UInt32.ofNat (4 * k))
        (randomLoop mem v seed (4 * k)).2 n := by
  induction k with
  | zero =>
      intro mem v seed
      rw [Nat.mul_zero, Nat.add_zero, add_ofNat_zero]
      rfl
  | succ k ih =>
      intro mem v seed
      have hstep : ∀ m, randomLoop mem v seed (m + 4) =
          randomLoop (storeBytes mem v (wordBytes seed)) (v + 4) (nextSeed seed) m := fun m => rfl
      have haddr : v + 4 + UInt32.ofNat (4 * k) = v + UInt32.ofNat (4 * k + 4) := by
        rw [Nat.add_comm, UInt32.ofNat_add, ← UInt32.add_assoc]
        rfl
      rw [Nat.mul_succ, ← Nat.add_assoc, hstep, hstep, ih, haddr]

/-- For every seed, buffer and length: the bytes that are reported depend on the seed alone exactly if the
    length is a multiple of four.  No byte outside the buffer is written, and a request may be split behind
    any word. -/
theorem getrandom_fills_iff (seed buf buflen : UInt32) (flags : Int32) :
    ((∀ mem mem', ∀ i < (rumpuserGetrandom seed mem buf buflen flags).ret.toNat,
        (rumpuserGetrandom seed mem buf buflen flags).mem (addr buf i) =
          (rumpuserGetrandom seed mem' buf buflen flags).mem (addr buf i)) ↔ 4 ∣ buflen.toNat) ∧
    (∀ mem, (rumpuserGetrandom seed mem buf buflen flags).rv = 0 ∧
      ∀ c, (∀ i < buflen.toNat, c ≠ addr buf i) →
        (rumpuserGetrandom seed mem buf buflen flags).mem c = mem c) ∧
    ∀ mem m flags' flags'', 4 ∣ m.toNat → m ≤ buflen →
      let first := rumpuserGetrandom seed mem buf m flags'
      let second := rumpuserGetrandom first.seed first.mem (buf + m) (buflen - m) flags''
      second.mem = (rumpuserGetrandom seed mem buf buflen flags).mem ∧
        second.seed = (rumpuserGetrandom seed mem buf buflen flags).seed := by
  have hlt := buflen.toNat_lt
  have hmem : ∀ mem, (rumpuserGetrandom seed mem buf buflen flags).mem =
      patch mem buf (buflen.toNat / 4 * 4) fun i => byte (nextSeed^[i / 4] seed) (i % 4) := by
    intro mem
    simp only [rumpuserGetrandom, randomLoop_eq mem buf seed hlt.le]
  refine ⟨⟨fun hsame => ?_, fun hdvd mem mem' i hi => ?_⟩, fun mem => ⟨rfl, fun c hc => ?_⟩, ?_⟩
  · -- the last byte of the buffer is left as it was
    by_contra hodd
    have hlast : buflen.toNat - 1 < buflen.toNat := by omega
    have heq := hsame (fun _ => 0) (fun _ => 1) (buflen.toNat - 1) hlast
    have hout : ∀ i < buflen.toNat / 4 * 4, addr buf (buflen.toNat - 1) ≠ addr buf i := by
      intro i hi haddr
      have := addr_inj buf (by omega) (by omega) haddr
      omega
    rw [hmem, hmem, patch_of_outside hout, patch_of_outside hout] at heq
    exact absurd heq (by decide)
  · have hi' : i < buflen.toNat / 4 * 4 := by
      rw [Nat.div_mul_cancel hdvd]
      exact hi
    rw [hmem, hmem, patch_addr (by omega) hi', patch_addr (by omega) hi']
  · rw [hmem]
    exact patch_of_outside fun i hi => hc i (by omega)
  · intro mem m flags' flags'' hdvd hle
    obtain ⟨k, hk⟩ := hdvd
    have hrest : (buflen - m).toNat + 4 * k = buflen.toNat := by
      rw [UInt32.toNat_sub_of_le _ _ hle, ← hk]
      exact Nat.sub_add_cancel (UInt32.le_iff_toNat_le.mp hle)
    have hm : UInt32.ofNat (4 * k) = m := by
      rw [← hk, UInt32.ofNat_toNat]
    simp only [rumpuserGetrandom]
    rw [← hrest, randomLoop_append, hm, ← hk]
    exact ⟨rfl, rfl⟩

/-- Six bytes: the last two are what was in the buffer. -/
theorem getrandom_leaves_tail :
    (rumpuserGetrandom 12345 (fun _ => 0xaa) 0x1000 6 0).ret = 6 ∧
      (rumpuserGetrandom 12345 (fun _ => 0xaa) 0x1000 6 0).mem 0x1004 = 0xaa ∧
      (rumpuserGetrandom 12345 (fun _ => 0xbb) 0x1000 6 0).mem 0x1004 = 0xbb := by
  decide +kernel

/-! ### `RUMP_MEMLIMIT` -/

/-- The first loop leaves the digits in reverse, if there is room for them. -/
theorem memlimitDigits_eq {left : Nat} : ∀ {memsize : UInt32}, (Nat.digits 10 memsize.toNat).length ≤ left →
    memlimitDigits left memsize = some ((Nat.digits 10 memsize.toNat).map Decimal.digitChar) := by
  induction left with
  | zero =>
      intro memsize hlen
      have hnil : Nat.digits 10 memsize.toNat = [] := List.length_eq_zero_iff.mp (Nat.le_zero.mp hlen)
      have hzero : memsize = 0 := UInt32.toNat_inj.mp (Nat.digits_eq_nil_iff_eq_zero.mp hnil)
      rw [memlimitDigits, if_pos hzero, hnil]
      rfl
  | succ left ih =>
      intro memsize hlen
      rw [memlimitDigits]
      split
      · rename_i hzero
        rw [hzero]
        rfl
      · rename_i hne
        have hpos : memsize.toNat ≠ 0 := fun hzero => hne (UInt32.toNat_inj.mp hzero)
        have hdigits :
            Nat.digits 10 memsize.toNat = memsize.toNat % 10 :: Nat.digits 10 (memsize / 10).toNat := by
          rw [Nat.digits_def' (by decide) (Nat.pos_of_ne_zero hpos), UInt32.toNat_div]
          rfl
        rw [hdigits, List.length_cons] at hlen
        have hdigit : (memsize % 10).toUInt8 + 48 = Decimal.digitChar (memsize.toNat % 10) := by
          apply UInt8.toNat_inj.mp
          rw [Decimal.digitChar_toNat (Nat.mod_lt _ (by decide)), UInt8.toNat_add, UInt32.toNat_toUInt8,
            UInt32.toNat_mod,
            show (10 : UInt32).toNat = 10 from rfl, show (48 : UInt8).toNat = 48 from rfl]
          omega
        rw [ih (Nat.le_of_succ_le_succ hlen), hdigits, Option.map_some, List.map_cons, hdigit]

/-- The characters of a string literal. -/
def cstring (s : String) : List UInt8 := s.toList.map fun c => UInt8.ofNat c.toNat

/-- The names that `rumpuser_getparam` compares with, as `rump/rumpuser.h` defines the first and the
    third. -/
structure ParamStrings (mem : ByteMem) (lit : Literals) : Prop where
  ncpu : IsString mem lit.ncpu (cstring "_RUMPUSER_NCPU")
  verbose : IsString mem lit.verbose (cstring "RUMP_VERBOSE")
  hostname : IsString mem lit.hostname (cstring "_RUMPUSER_HOSTNAME")
  memlimit : IsString mem lit.memlimit (cstring "RUMP_MEMLIMIT")

/-- A comparison is right unless the strings first differ at the last character of the first. -/
theorem equals_eq {mem : ByteMem} {a b : UInt32} {s t : List UInt8} (hs : IsString mem a s)
    (ht : IsString mem b t) (hgood : common s t + 1 ≠ s.length) :
    equals mem a b = some (decide (s = t)) := by
  obtain ⟨value, r, hcmp, -, hvalue, -⟩ := bmkStrcmp_eq hs ht
  obtain ⟨rfl, -⟩ := hvalue hgood
  have hiff : charValue (s.getD (common s t) 0) - charValue (t.getD (common s t) 0) = 0 ↔ s = t := by
    rw [Int.sub_eq_zero, charValue_inj, eq_iff_common hs.nonNul ht.nonNul]
  simp only [equals, hcmp, Option.map_some, hiff]

theorem paramOf_memlimit {mem : ByteMem} {lit : Literals} {name : UInt32} (hlit : ParamStrings mem lit)
    (hname : IsString mem name (cstring "RUMP_MEMLIMIT")) : paramOf mem lit name = some .memlimit := by
  have hncpu := equals_eq hname hlit.ncpu (by decide)
  have hverbose := equals_eq hname hlit.verbose (by decide)
  have hhost := equals_eq hname hlit.hostname (by decide)
  have hmem := equals_eq hname hlit.memlimit (by decide)
  rw [show decide (cstring "RUMP_MEMLIMIT" = cstring "_RUMPUSER_NCPU") = false by decide] at hncpu
  rw [show decide (cstring "RUMP_MEMLIMIT" = cstring "RUMP_VERBOSE") = false by decide] at hverbose
  rw [show decide (cstring "RUMP_MEMLIMIT" = cstring "_RUMPUSER_HOSTNAME") = false by decide] at hhost
  rw [decide_eq_true rfl] at hmem
  simp [paramOf, hncpu, hverbose, hhost, hmem]

/-- A string that is stored behind its terminator. -/
theorem storeBytes_string (mem : ByteMem) (p : UInt32) {s : List UInt8} (hne : ∀ b ∈ s, b ≠ 0)
    (hlen : s.length < 2 ^ 32) :
    IsString (storeBytes (Function.update mem (p + UInt32.ofNat s.length).toNat 0) p s) p s ∧
      ∀ c, (∀ i ≤ s.length, c ≠ addr p i) →
        storeBytes (Function.update mem (p + UInt32.ofNat s.length).toNat 0) p s c = mem c := by
  rw [storeBytes_eq _ _ hlen.le, toNat_add_ofNat]
  refine ⟨IsString.of_bytes hne fun i hi => ?_, fun c hc => ?_⟩
  · obtain hlt | rfl := Nat.lt_or_eq_of_le hi
    · exact patch_addr hlen.le hlt
    · have hout : ∀ i < s.length, addr p s.length ≠ addr p i := by
        intro i hi heq
        have := addr_inj p hlen (hi.trans hlen) heq
        omega
      rw [patch_of_outside hout, Function.update_self, List.getD_eq_default _ _ le_rfl]
  · rw [patch_of_outside fun i hi => hc i hi.le, Function.update_of_ne (hc _ le_rfl)]

/-- The branch of `rumpuser_getparam` for the memory limit, with the digits in the order in which they are
    stored. -/
theorem getparam_memlimit {mem : ByteMem} {lit : Literals} {bmkMemsize name buflen : UInt32} {n : Nat}
    (buf : UInt32) (hlit : ParamStrings mem lit) (hname : IsString mem name (cstring "RUMP_MEMLIMIT"))
    (hsize : bmkMemsize > bmkMemreserve) (hbuf : buflen > 1) (hn : (bmkMemsize - bmkMemreserve).toNat = n) :
    (Decimal.render n).length ≤ 63 ∧
      rumpuserGetparam mem lit bmkMemsize name buf buflen =
        some (if UInt32.ofNat (Decimal.render n).length ≥ buflen then (1, mem)
          else
            (0, storeBytes (Function.update mem (buf + UInt32.ofNat (Decimal.render n).length).toNat 0) buf
              (Decimal.render n))) := by
  have hlt : n < 2 ^ 32 := hn ▸ (bmkMemsize - bmkMemreserve).toNat_lt
  have hlen : (Nat.digits 10 n).length ≤ 63 :=
    (Nat.digits_length_le_iff (by decide) n).mpr (hlt.trans (by decide))
  have hdigits := memlimitDigits_eq (hn ▸ hlen)
  rw [hn] at hdigits
  have hlength : ((Nat.digits 10 n).map Decimal.digitChar).length = (Decimal.render n).length := by
    rw [Decimal.length_render, List.length_map]
  have hrender : ((Nat.digits 10 n).map Decimal.digitChar).reverse = Decimal.render n := rfl
  refine ⟨Decimal.length_render n ▸ hlen, ?_⟩
  rw [rumpuserGetparam, if_neg (UInt32.not_le.mpr hbuf), paramOf_memlimit hlit hname]
  simp only [if_pos hsize, hdigits, Option.map_some, hlength, hrender]

/-- For every size of memory above the reserve and every buffer of more than one byte: the limit is written
    as a decimal number exactly if it fits with its terminator, and otherwise the buffer is left alone.  No
    assertion fails. -/
theorem memlimit_rendered {mem : ByteMem} {lit : Literals} {bmkMemsize name buf buflen : UInt32}
    (hlit : ParamStrings mem lit) (hname : IsString mem name (cstring "RUMP_MEMLIMIT"))
    (hsize : bmkMemsize > bmkMemreserve) (hbuf : buflen > 1) :
    ∃ rv mem', rumpuserGetparam mem lit bmkMemsize name buf buflen = some (rv, mem') ∧
      (rv = 0 ↔ (Decimal.render (bmkMemsize.toNat - 0x100000)).length + 1 ≤ buflen.toNat) ∧
      (rv = 0 → ∃ b rest, Decimal.render (bmkMemsize.toNat - 0x100000) = b :: rest ∧ b ≠ 48 ∧
        IsString mem' buf (b :: rest) ∧ Decimal.value (b :: rest) = bmkMemsize.toNat - 0x100000) ∧
      (rv ≠ 0 → rv = 1 ∧ mem' = mem) ∧
      ∀ c, (∀ i < buflen.toNat, c ≠ addr buf i) → mem' c = mem c := by
  have hsub : (bmkMemsize - bmkMemreserve).toNat = bmkMemsize.toNat - 0x100000 := by
    rw [UInt32.toNat_sub_of_le _ _ (UInt32.le_of_lt hsize)]
    rfl
  have hpos : bmkMemsize.toNat - 0x100000 ≠ 0 := by
    have hlt := UInt32.lt_iff_toNat_lt.mp hsize
    rw [show bmkMemreserve.toNat = 0x100000 from rfl] at hlt
    omega
  generalize bmkMemsize.toNat - 0x100000 = n at hsub hpos
  obtain ⟨hlen, hcall⟩ := getparam_memlimit buf hlit hname hsize hbuf hsub
  have hfits : ¬ UInt32.ofNat (Decimal.render n).length ≥ buflen ↔
      (Decimal.render n).length + 1 ≤ buflen.toNat := by
    rw [ge_iff_le, UInt32.le_iff_toNat_le, UInt32.toNat_ofNat', Nat.mod_eq_of_lt (by omega)]
    omega
  rw [hcall]
  by_cases hroom : UInt32.ofNat (Decimal.render n).length ≥ buflen
  · rw [if_pos hroom]
    refine ⟨1, mem, rfl, ?_, fun h => absurd h (by decide), fun _ => ⟨rfl, rfl⟩, fun _ _ => rfl⟩
    rw [← hfits]
    exact ⟨fun h => absurd h (by decide), fun h => absurd hroom h⟩
  · rw [if_neg hroom]
    obtain ⟨hstring, hframe⟩ := storeBytes_string mem buf (Decimal.render_ne_nul n) (by omega)
    obtain ⟨b, rest, heq, hb⟩ := Decimal.render_head hpos
    refine ⟨0, _, rfl, ⟨fun _ => hfits.mp hroom, fun _ => rfl⟩, fun _ => ⟨b, rest, heq, hb, ?_, ?_⟩,
      fun h => absurd rfl h, fun c hc => ?_⟩
    · rw [← heq]
      exact hstring
    · rw [← heq]
      exact Decimal.value_render n
    · have hlast := hfits.mp hroom
      exact hframe c fun i hi => hc i (by omega)

/-- 16 MiB, of which 15728640 bytes are reported, into 32 bytes. -/
theorem memlimit_rendered_small :
    ∃ mem', rumpuserGetparam (rodata sampleStrings) sampleLiterals 0x1000000 0x102f 0x2000 32 =
      some (0, mem') ∧
      IsString mem' 0x2000 (cstring "15728640") := by
  have hlit : ParamStrings (rodata sampleStrings) sampleLiterals :=
    ⟨by decide +kernel, by decide +kernel, by decide +kernel, by decide +kernel⟩
  obtain ⟨rv, mem', hcall, hiff, hgood, -⟩ :=
    @memlimit_rendered (rodata sampleStrings) sampleLiterals 0x1000000 0x102f
    0x2000 32 hlit hlit.memlimit (by decide) (by decide)
  have hdigits : Nat.digits 10 15728640 = [0, 4, 6, 8, 2, 7, 5, 1] := by norm_num
  have hrender : Decimal.render ((0x1000000 : UInt32).toNat - 0x100000) = cstring "15728640" := by
    rw [show (0x1000000 : UInt32).toNat - 0x100000 = 15728640 from rfl, Decimal.render, hdigits]
    decide
  rw [hrender] at hiff hgood
  obtain rfl := hiff.mpr (by decide)
  obtain ⟨b, rest, heq, -, hstring, -⟩ := hgood rfl
  rw [← heq] at hstring
  exact ⟨mem', hcall, hstring⟩

end RumpBaremetal
