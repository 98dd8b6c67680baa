/-
Module: RumpBaremetal.Proofs.Subr
Layer: Proofs
Purpose: What the string and memory functions compute.  `bmk_strcmp` steps both pointers before it knows
  that two characters differ, and steps back only if its first string goes on: it compares strings unless
  they first differ at the last character of the first.  `bmk_strncpy` fills its buffer exactly if the
  string fits; a longer one makes its counter wrap, and the rest of the address space is cleared.
Trusted boundary: none (fully proved)
Main exports: common, chars, strcmpLoop_ends, Compares, Comparable, bmkStrcmp_compares, fillLoop_eq,
  copyLoop_eq, bmkStrncpy_fits, bmkStrncpy_wraps
-/
import RumpBaremetal.Kernel.Rumpuser

namespace RumpBaremetal

open ByteMem

/-! ### Where two strings differ -/

theorem charValue_inj {x y : UInt8} : charValue x = charValue y ↔ x = y := by
  unfold charValue
  rw [Int8.toInt_inj]
  refine ⟨fun h => ?_, fun h => by rw [h]⟩
  have hbyte := congrArg Int8.toUInt8 h
  simpa using hbyte

theorem charValue_of_lt {x : UInt8} (h : x < 128) : charValue x = x.toNat := by
  have hlt : x.toNat < 128 := UInt8.lt_iff_toNat_lt.mp h
  show x.toBitVec.toInt = _
  rw [BitVec.toInt_eq_toNat_of_lt]
  · rfl
  · show 2 * x.toNat < 2 ^ 8
    omega

/-- The length of the longest common beginning. -/
def common : List UInt8 → List UInt8 → Nat
  | x :: s, y :: t => if x = y then common s t + 1 else 0
  | _, _ => 0

theorem common_le : ∀ s t : List UInt8, common s t ≤ s.length ∧ common s t ≤ t.length
  | [], _ => ⟨Nat.zero_le _, Nat.zero_le _⟩
  | _ :: _, [] => ⟨Nat.zero_le _, Nat.zero_le _⟩
  | x :: s, y :: t => by
      obtain ⟨hs, ht⟩ := common_le s t
      unfold common
      split
      · exact ⟨Nat.succ_le_succ hs, Nat.succ_le_succ ht⟩
      · exact ⟨Nat.zero_le _, Nat.zero_le _⟩

theorem common_comm : ∀ s t : List UInt8, common s t = common t s
  | [], [] => rfl
  | [], _ :: _ => rfl
  | _ :: _, [] => rfl
  | x :: s, y :: t => by
      rw [common, common, common_comm s t]
      simp only [eq_comm]

theorem common_self : ∀ s : List UInt8, common s s = s.length
  | [] => rfl
  | x :: s => by rw [common, if_pos rfl, common_self s, List.length_cons]

/-- The characters of a string with its terminator. -/
def chars (s : List UInt8) : List Int := (s ++ [0]).map charValue

theorem chars_nil : chars [] = [charValue 0] := rfl

theorem chars_cons (x : UInt8) (s : List UInt8) : chars (x :: s) = charValue x :: chars s := rfl

/-- Two strings are compared where they differ first; there one of them may have its terminator. -/
theorem chars_lt_iff : ∀ {s t : List UInt8}, (∀ c ∈ s, c ≠ 0) → (∀ c ∈ t, c ≠ 0) →
    (chars s < chars t ↔ charValue (s.getD (common s t) 0) < charValue (t.getD (common s t) 0))
  | [], [], _, _ => by simp [common]
  | [], y :: t, _, ht => by
      have hy : charValue 0 ≠ charValue y := fun h => ht y List.mem_cons_self (charValue_inj.mp h).symm
      rw [chars_cons, chars_nil, List.cons_lt_cons_iff]
      exact ⟨fun h => h.resolve_right fun heq => hy heq.1, .inl⟩
  | x :: s, [], hs, _ => by
      have hx : charValue x ≠ charValue 0 := fun h => hs x List.mem_cons_self (charValue_inj.mp h)
      rw [chars_cons, chars_nil, List.cons_lt_cons_iff]
      exact ⟨fun h => h.resolve_right fun heq => hx heq.1, .inl⟩
  | x :: s, y :: t, hs, ht => by
      have ih := chars_lt_iff (List.forall_mem_cons.mp hs).2 (List.forall_mem_cons.mp ht).2
      rw [chars_cons, chars_cons, List.cons_lt_cons_iff, charValue_inj, common]
      split
      · rename_i heq
        subst heq
        rw [List.getD_cons_succ, List.getD_cons_succ, ← ih]
        exact ⟨fun h => (h.resolve_left (lt_irrefl _)).2, fun h => .inr ⟨rfl, h⟩⟩
      · rename_i hne
        exact ⟨fun h => h.resolve_right fun heq => hne heq.1, .inl⟩

theorem eq_iff_common : ∀ {s t : List UInt8}, (∀ c ∈ s, c ≠ 0) → (∀ c ∈ t, c ≠ 0) →
    (s = t ↔ s.getD (common s t) 0 = t.getD (common s t) 0)
  | [], [], _, _ => by simp [common]
  | [], y :: t, _, ht => by
      have hy : y ≠ 0 := ht y List.mem_cons_self
      simp [common, hy.symm]
  | x :: s, [], hs, _ => by
      have hx : x ≠ 0 := hs x List.mem_cons_self
      simp [common, hx]
  | x :: s, y :: t, hs, ht => by
      have ih := eq_iff_common (List.forall_mem_cons.mp hs).2 (List.forall_mem_cons.mp ht).2
      rw [List.cons_eq_cons, common]
      split
      · rename_i heq
        rw [List.getD_cons_succ, List.getD_cons_succ, ← ih]
        exact ⟨fun h => h.2, fun h => ⟨heq, h⟩⟩
      · rename_i hne
        exact ⟨fun h => absurd h.1 hne, fun h => absurd h hne⟩

/-- Of two different strings, one comes first. -/
theorem chars_lt_or_gt {s t : List UInt8} (hs : ∀ c ∈ s, c ≠ 0) (ht : ∀ c ∈ t, c ≠ 0) (hne : s ≠ t) :
    chars t < chars s ↔ ¬chars s < chars t := by
  have hdiffer : charValue (s.getD (common s t) 0) ≠ charValue (t.getD (common s t) 0) := fun h =>
    hne ((eq_iff_common hs ht).mpr (charValue_inj.mp h))
  rw [chars_lt_iff hs ht, chars_lt_iff ht hs, common_comm t s]
  omega

/-- Seven-bit strings are ordered as lists of bytes. -/
theorem chars_lt_of_ascii : ∀ {s t : List UInt8}, (∀ c ∈ s, c ≠ 0) → (∀ c ∈ t, c ≠ 0) →
    (∀ c ∈ s, c < 128) → (∀ c ∈ t, c < 128) → (chars s < chars t ↔ s < t)
  | [], [], _, _, _, _ => by simp
  | [], y :: t, _, ht, _, ht7 => by
      have hy := charValue_of_lt (ht7 y List.mem_cons_self)
      have hpos : y.toNat ≠ 0 := fun h => ht y List.mem_cons_self (UInt8.toNat_inj.mp h)
      rw [chars_cons, chars_nil, List.cons_lt_cons_iff, hy]
      exact ⟨fun _ => List.nil_lt_cons _ _, fun _ => .inl (by show (0 : Int) < _; omega)⟩
  | x :: s, [], _, _, hs7, _ => by
      have hx := charValue_of_lt (hs7 x List.mem_cons_self)
      rw [chars_cons, chars_nil, List.cons_lt_cons_iff, hx]
      refine ⟨fun h => ?_, fun h => absurd h (List.not_lt_nil _)⟩
      rcases h with h | ⟨-, h⟩
      · have hneg : (x.toNat : Int) < 0 := h
        omega
      · exact absurd h (List.not_lt_nil _)
  | x :: s, y :: t, hs, ht, hs7, ht7 => by
      have ih := chars_lt_of_ascii (List.forall_mem_cons.mp hs).2 (List.forall_mem_cons.mp ht).2
        (List.forall_mem_cons.mp hs7).2 (List.forall_mem_cons.mp ht7).2
      have hx := charValue_of_lt (hs7 x List.mem_cons_self)
      have hy := charValue_of_lt (ht7 y List.mem_cons_self)
      have hlt : charValue x < charValue y ↔ x < y := by
        rw [hx, hy, UInt8.lt_iff_toNat_lt]
        exact Int.ofNat_lt
      rw [chars_cons, chars_cons, List.cons_lt_cons_iff, List.cons_lt_cons_iff, charValue_inj, hlt, ih]

/-! ### The loop of `bmk_strcmp` -/

/-- How far the pointers have been stepped when the loop ends: up to the terminator of the first string, or
    past the characters that differ. -/
def stepped (s t : List UInt8) : Nat := if common s t = s.length then s.length else common s t + 1

/-- What has been read through a pointer since `old`: no further than the byte `n` behind `p`. -/
def ReadsGrow (p : UInt32) (n : Nat) (old reads : List UInt32) : Prop :=
  ∀ q ∈ reads, q ∈ old ∨ ∃ i ≤ n, q = p + UInt32.ofNat i

namespace ReadsGrow

variable {p : UInt32} {n : Nat} {old old' reads : List UInt32}

theorem refl : ReadsGrow p n old old := fun _ hq => .inl hq

/-- The byte that the pointer is at. -/
theorem here (h : ReadsGrow p n old reads) : ReadsGrow p n old (p :: reads) :=
  List.forall_mem_cons.mpr ⟨.inr ⟨0, Nat.zero_le _, (add_ofNat_zero p).symm⟩, h⟩

/-- The pointer is stepped. -/
theorem next (hold : ReadsGrow p (n + 1) old old') (h : ReadsGrow (p + 1) n old' reads) :
    ReadsGrow p (n + 1) old reads := by
  intro q hq
  rcases h q hq with hq' | ⟨i, hi, rfl⟩
  · exact hold q hq'
  · exact .inr ⟨i + 1, Nat.succ_le_succ hi, succ_add_ofNat _ _⟩

end ReadsGrow

/-- The loop ends, having read no further than the strings agree. -/
theorem strcmpLoop_ends {mem : ByteMem} :
    ∀ {s t : List UInt8} (rounds : Nat) (c : Strcmp), s.length < rounds → IsString mem c.a s →
      IsString mem c.b t →
      ∃ c', strcmpLoop mem rounds c = some c' ∧
        c'.a = c.a + UInt32.ofNat (stepped s t) ∧ c'.b = c.b + UInt32.ofNat (stepped s t) ∧
        ReadsGrow c.a (common s t) c.readA c'.readA ∧ ReadsGrow c.b (common s t) c.readB c'.readB := by
  intro s
  induction s with
  | nil =>
      intro t rounds c hrounds hs ht
      obtain ⟨rounds, rfl⟩ := Nat.exists_eq_succ_of_ne_zero (Nat.ne_of_gt hrounds)
      have hend : mem c.a.toNat = 0 := hs
      refine ⟨{ c with readA := c.a :: c.readA }, ?_, ?_, ?_, ReadsGrow.refl.here, .refl⟩
      · rw [Nat.succ_eq_add_one, strcmpLoop, if_pos hend]
      · simp [stepped, common]
      · simp [stepped, common]
  | cons x s ih =>
      intro t rounds c hrounds hs ht
      obtain ⟨rounds, rfl⟩ := Nat.exists_eq_succ_of_ne_zero (Nat.ne_of_gt (Nat.zero_lt_of_lt hrounds))
      obtain ⟨hx, hne, hs'⟩ := hs
      have hgo : mem c.a.toNat ≠ 0 := by rw [hx]; exact hne
      rw [Nat.succ_eq_add_one, strcmpLoop, if_neg hgo]
      by_cases heq : mem c.a.toNat = mem c.b.toNat
      · -- the second string goes on with the same character
        rw [if_pos heq]
        cases t with
        | nil => exact absurd (heq.trans ht) hgo
        | cons y t =>
            obtain ⟨hy, -, ht'⟩ := ht
            obtain rfl : x = y := by rw [← hx, heq, hy]
            obtain ⟨c', hloop, ha, hb, hreadA, hreadB⟩ :=
              ih rounds ⟨c.a + 1, c.b + 1, c.a :: c.a :: c.readA, c.b :: c.readB⟩
                (Nat.lt_of_succ_lt_succ hrounds) hs' ht'
            have hcommon : common (x :: s) (x :: t) = common s t + 1 := if_pos rfl
            have hstepped : stepped (x :: s) (x :: t) = stepped s t + 1 := by
              simp only [stepped, hcommon, List.length_cons, Nat.add_right_cancel_iff]
              split <;> rfl
            refine ⟨c', hloop, ?_, ?_, ?_, ?_⟩
            · rw [ha, hstepped, succ_add_ofNat]
            · rw [hb, hstepped, succ_add_ofNat]
            · rw [hcommon]
              exact ReadsGrow.refl.here.here.next hreadA
            · rw [hcommon]
              exact ReadsGrow.refl.here.next hreadB
      · rw [if_neg heq]
        have hcommon : common (x :: s) t = 0 := by
          cases t with
          | nil => rfl
          | cons y t =>
              refine if_neg fun hxy => heq ?_
              rw [hx, ht.1, hxy]
        have hstepped : stepped (x :: s) t = 1 := by simp [stepped, hcommon]
        exact ⟨_, rfl,
          by rw [hstepped]; rfl, by rw [hstepped]; rfl, ReadsGrow.refl.here.here, ReadsGrow.refl.here⟩

theorem strcmpEnd_stop {mem : ByteMem} {c : Strcmp} (h : mem c.a.toNat = 0) :
    strcmpEnd mem c = (charValue 0 - charValue (mem c.b.toNat),
      { c with readA := c.a :: c.a :: c.readA, readB := c.b :: c.readB }) := by
  simp only [strcmpEnd, ne_eq, h, not_true_eq_false, if_false]

theorem strcmpEnd_back {mem : ByteMem} {c : Strcmp} (h : mem c.a.toNat ≠ 0) :
    strcmpEnd mem c = (charValue (mem (c.a - 1).toNat) - charValue (mem (c.b - 1).toNat),
      ⟨c.a - 1, c.b - 1, (c.a - 1) :: c.a :: c.readA, (c.b - 1) :: c.readB⟩) := by
  simp only [strcmpEnd, ne_eq, h, not_false_eq_true, if_true]

/-- The addresses lie in the first `n` bytes behind a pointer, or are that of the byte `n`. -/
def ReadTo (p : UInt32) (n : Nat) (reads : List UInt32) : Prop :=
  ∀ q ∈ reads, ∃ i ≤ n, q = p + UInt32.ofNat i

theorem ReadTo.cons {p : UInt32} {n i : Nat} {reads : List UInt32} (h : ReadTo p n reads) (hi : i ≤ n) :
    ReadTo p n ((p + UInt32.ofNat i) :: reads) := List.forall_mem_cons.mpr ⟨⟨i, hi, rfl⟩, h⟩

/-- What `bmk_strcmp` returns, and how far it reads, in terms of the first difference. -/
theorem bmkStrcmp_eq {mem : ByteMem} {a b : UInt32} {s t : List UInt8} (hs : IsString mem a s)
    (ht : IsString mem b t) :
    ∃ value r, bmkStrcmp mem a b = some (value, r) ∧ ReadTo a s.length r.readA ∧
      (common s t + 1 ≠ s.length →
        value = charValue (s.getD (common s t) 0) - charValue (t.getD (common s t) 0) ∧
        ReadTo b t.length r.readB) ∧
      (common s t + 1 = s.length → value = -charValue (mem (addr b s.length)) ∧
        b + UInt32.ofNat s.length ∈ r.readB ∧
        (s.length ≤ t.length → ReadTo b t.length r.readB)) := by
  obtain ⟨hks, hkt⟩ := common_le s t
  obtain ⟨c, hloop, ha, hb, hreadA, hreadB⟩ :=
    strcmpLoop_ends (2 ^ 32) ⟨a, b, [], []⟩ hs.length_lt hs ht
  dsimp only at ha hb hreadA hreadB
  have hA : ReadTo a s.length c.readA := by
    intro q hq
    obtain ⟨i, hi, rfl⟩ := (hreadA q hq).resolve_left List.not_mem_nil
    exact ⟨i, hi.trans hks, rfl⟩
  have hB : ReadTo b t.length c.readB := by
    intro q hq
    obtain ⟨i, hi, rfl⟩ := (hreadB q hq).resolve_left List.not_mem_nil
    exact ⟨i, hi.trans hkt, rfl⟩
  refine ⟨(strcmpEnd mem c).1, (strcmpEnd mem c).2, by rw [bmkStrcmp, hloop]; rfl, ?_⟩
  by_cases hall : common s t = s.length
  · -- the first string is a beginning of the second
    rw [stepped, if_pos hall] at ha hb
    have hend : mem c.a.toNat = 0 := by
      rw [ha, toNat_add_ofNat, hs.byte le_rfl, List.getD_eq_default _ _ le_rfl]
    have hother : mem c.b.toNat = t.getD (common s t) 0 := by
      rw [hb, toNat_add_ofNat, ← hall, ht.byte hkt]
    rw [strcmpEnd_stop hend]
    refine ⟨?_, fun _ => ⟨?_, ?_⟩, fun h => absurd h (by omega)⟩
    · simp only [ha]
      exact (hA.cons le_rfl).cons le_rfl
    · simp only [hother]
      rw [List.getD_eq_default s _ hall.ge]
    · simp only [hb]
      exact hB.cons (hall ▸ hkt)
  · rw [stepped, if_neg hall] at ha hb
    have hnext : mem c.a.toNat = s.getD (common s t + 1) 0 := by
      rw [ha, toNat_add_ofNat, hs.byte (by omega)]
    by_cases hlast : common s t + 1 = s.length
    · -- no step back: the second pointer is past the difference
      have hend : mem c.a.toNat = 0 := by
        rw [hnext, hlast, List.getD_eq_default _ _ le_rfl]
      rw [hlast] at ha hb
      rw [strcmpEnd_stop hend]
      refine ⟨?_, fun h => absurd hlast h, fun _ => ⟨?_, ?_, fun hle => ?_⟩⟩
      · simp only [ha]
        exact (hA.cons le_rfl).cons le_rfl
      · simp only [hb, toNat_add_ofNat]
        exact zero_sub _
      · simp only [hb]
        exact List.mem_cons_self
      · simp only [hb]
        exact hB.cons hle
    · have hlt : common s t + 1 < s.length := by omega
      have hgo : mem c.a.toNat ≠ 0 := by
        rw [hnext, List.getD_eq_getElem _ _ hlt]
        exact hs.nonNul _ (List.getElem_mem hlt)
      rw [strcmpEnd_back hgo, ha, hb, add_ofNat_pred, add_ofNat_pred, toNat_add_ofNat, toNat_add_ofNat,
        hs.byte hks,
        ht.byte hkt]
      refine ⟨(hA.cons hlt.le).cons hks, fun _ => ⟨rfl, hB.cons hkt⟩, fun h => absurd h hlast⟩

/-- The sign is that of the order, each element up to the terminator by the value of its `char`, and the
    second string is not read past its terminator. -/
structure Compares (b : UInt32) (s t : List UInt8) (value : Int) (readB : List UInt32) : Prop where
  zero : value = 0 ↔ s = t
  neg : value < 0 ↔ chars s < chars t
  pos : 0 < value ↔ chars t < chars s
  reads : ReadTo b t.length readB

/-- The strings do not first differ at the last character of the first.  Or they do, but the second is the
    longer, and the sign of its character behind the difference happens to be the right one. -/
def Comparable (s t : List UInt8) : Prop :=
  common s t + 1 ≠ s.length ∨
    s.length < t.length ∧ (0 < charValue (t.getD s.length 0) ↔ chars s < chars t)

instance (s t : List UInt8) : Decidable (Comparable s t) := inferInstanceAs (Decidable (_ ∨ _))

theorem compares_of_difference {b : UInt32} {s t : List UInt8} {readB : List UInt32} (hs : ∀ c ∈ s, c ≠ 0)
    (ht : ∀ c ∈ t, c ≠ 0) (hreads : ReadTo b t.length readB) :
    Compares b s t (charValue (s.getD (common s t) 0) - charValue (t.getD (common s t) 0)) readB := by
  refine ⟨?_, ?_, ?_, hreads⟩
  · rw [sub_eq_zero, charValue_inj, ← eq_iff_common hs ht]
  · rw [sub_neg, chars_lt_iff hs ht]
  · rw [sub_pos, chars_lt_iff ht hs, common_comm t s]

/-- A pointer that has been stepped over the end of the shorter string. -/
theorem not_readTo {b : UInt32} {m n : Nat} {reads : List UInt32} (hm : m < 2 ^ 32) (hlt : n < m)
    (hmem : b + UInt32.ofNat m ∈ reads) : ¬ReadTo b n reads := by
  intro hreads
  obtain ⟨i, hi, heq⟩ := hreads _ hmem
  have hsame := congrArg UInt32.toNat ((UInt32.add_right_inj b).mp heq)
  rw [UInt32.toNat_ofNat', UInt32.toNat_ofNat', Nat.mod_eq_of_lt hm, Nat.mod_eq_of_lt (by omega)] at hsame
  omega

/-- When the strings first differ at the last character of the first, the element behind the difference
    decides. -/
theorem compares_behind_iff {mem : ByteMem} {a b : UInt32} {s t : List UInt8} {readB : List UInt32}
    (hs : IsString mem a s) (ht : IsString mem b t) (hlast : common s t + 1 = s.length)
    (hmem : b + UInt32.ofNat s.length ∈ readB) (hreads : s.length ≤ t.length → ReadTo b t.length readB) :
    Compares b s t (-charValue (mem (addr b s.length))) readB ↔
      s.length < t.length ∧ (0 < charValue (t.getD s.length 0) ↔ chars s < chars t) := by
  have hne : s ≠ t := by
    rintro rfl
    rw [common_self] at hlast
    omega
  have hbyte : s.length ≤ t.length → mem (addr b s.length) = t.getD s.length 0 := fun hle => ht.byte hle
  constructor
  · intro h
    have hle : s.length ≤ t.length := by
      by_contra hgt
      exact not_readTo hs.length_lt (not_le.mp hgt) hmem h.reads
    rw [hbyte hle] at h
    refine ⟨lt_of_le_of_ne hle fun heq => ?_, ?_⟩
    · -- the byte is the terminator of the second string
      rw [List.getD_eq_default _ _ heq.ge] at h
      exact hne (h.zero.mp rfl)
    · rw [← h.neg, neg_lt_zero]
  · rintro ⟨hlt, hsign⟩
    have hnonzero : charValue (t.getD s.length 0) ≠ 0 := by
      rw [List.getD_eq_getElem _ _ hlt]
      exact fun h => ht.nonNul _ (List.getElem_mem hlt) (charValue_inj.mp h)
    rw [hbyte hlt.le]
    refine ⟨iff_of_false (neg_ne_zero.mpr hnonzero) hne, ?_, ?_, hreads hlt.le⟩
    · rw [neg_lt_zero, hsign]
    · rw [neg_pos, chars_lt_or_gt hs.nonNul ht.nonNul hne, ← hsign]
      omega

/-- `bmk_strcmp` returns for any two strings, reads the first no further than to its terminator, and
    compares the strings exactly if they are comparable: it fails where they first differ at the last
    character of the first.  There it returns the element of the second string behind the difference,
    negated, which is past its terminator if the second string is the shorter. -/
theorem bmkStrcmp_compares {mem : ByteMem} {a b : UInt32} {s t : List UInt8} (hs : IsString mem a s)
    (ht : IsString mem b t) :
    ∃ value r, bmkStrcmp mem a b = some (value, r) ∧ ReadTo a s.length r.readA ∧
      (Compares b s t value r.readB ↔ Comparable s t) ∧
      ((∀ c ∈ s, c < 128) → (∀ c ∈ t, c < 128) → (chars s < chars t ↔ s < t) ∧
        (chars t < chars s ↔ t < s)) ∧
      (common s t + 1 = s.length →
        value = -charValue (mem (addr b s.length)) ∧ b + UInt32.ofNat s.length ∈ r.readB) := by
  obtain ⟨value, r, hcmp, hreadA, hvalue, hbehind⟩ := bmkStrcmp_eq hs ht
  refine ⟨value, r, hcmp, hreadA, ?_, fun hs7 ht7 => ⟨?_, ?_⟩, fun hlast => ?_⟩
  · by_cases hlast : common s t + 1 = s.length
    · obtain ⟨rfl, hmem, hreads⟩ := hbehind hlast
      rw [compares_behind_iff hs ht hlast hmem hreads, Comparable]
      exact ⟨.inr, fun h => h.resolve_left (absurd hlast)⟩
    · obtain ⟨rfl, hreadB⟩ := hvalue hlast
      exact ⟨fun _ => .inl hlast, fun _ => compares_of_difference hs.nonNul ht.nonNul hreadB⟩
  · exact chars_lt_of_ascii hs.nonNul ht.nonNul hs7 ht7
  · exact chars_lt_of_ascii ht.nonNul hs.nonNul ht7 hs7
  · obtain ⟨hval, hmem, -⟩ := hbehind hlast
    exact ⟨hval, hmem⟩

/-- A memory that holds some bytes from `0x1000` on. -/
def rodata (bytes : List UInt8) : ByteMem := fun c => if 0x1000 ≤ c then bytes.getD (c - 0x1000) 0 else 0

/-- `acd` and `abd` -/
theorem bmkStrcmp_compares_acd :
    ∃ value r, bmkStrcmp (rodata [97, 99, 100, 0, 97, 98, 100, 0]) 0x1000 0x1004 = some (value, r) ∧
      0 < value ∧
      ReadTo 0x1004 3 r.readB := by
  have hs : IsString (rodata [97, 99, 100, 0, 97, 98, 100, 0]) 0x1000 [97, 99, 100] := by decide
  have ht : IsString (rodata [97, 99, 100, 0, 97, 98, 100, 0]) 0x1004 [97, 98, 100] := by decide
  obtain ⟨value, r, hcmp, -, hgood, -, -⟩ := bmkStrcmp_compares hs ht
  have hcompares := hgood.mpr (by decide)
  exact ⟨value, r, hcmp, hcompares.pos.mpr (by decide), hcompares.reads⟩

/-- `b` and `c` are found equal.  When `b` is compared with the empty string, the byte behind the terminator
    of the latter is read and decides. -/
theorem bmkStrcmp_misses_last :
    (∃ r, bmkStrcmp (rodata [98, 0, 99, 0]) 0x1000 0x1002 = some (0, r)) ∧
      IsString (rodata [98, 0, 99, 0]) 0x1000 [98] ∧ IsString (rodata [98, 0, 99, 0]) 0x1002 [99] ∧
      (∃ r, bmkStrcmp (rodata [98, 0, 0, 120]) 0x1000 0x1002 = some (-120, r) ∧ 0x1003 ∈ r.readB) ∧
      IsString (rodata [98, 0, 0, 120]) 0x1000 [98] ∧ IsString (rodata [98, 0, 0, 120]) 0x1002 [] := by
  have hequal : bmkStrcmp (rodata [98, 0, 99, 0]) 0x1000 0x1002 =
      some (0, ⟨0x1001, 0x1003, [0x1001, 0x1001, 0x1000, 0x1000], [0x1003, 0x1002]⟩) := by
    decide +kernel
  have hpast : bmkStrcmp (rodata [98, 0, 0, 120]) 0x1000 0x1002 =
      some (-120, ⟨0x1001, 0x1003, [0x1001, 0x1001, 0x1000, 0x1000], [0x1003, 0x1002]⟩) := by
    decide +kernel
  exact ⟨⟨_, hequal⟩, by decide, by decide, ⟨_, hpast, by decide⟩, by decide, by decide⟩

/-! ### Loops that store -/

theorem fillLoop_eq (byte : UInt8) {n : Nat} :
    ∀ (mem : ByteMem) (p : UInt32), n ≤ 2 ^ 32 → fillLoop mem p byte n = patch mem p n fun _ => byte := by
  induction n with
  | zero => exact fun mem p _ => (patch_zero mem p _).symm
  | succ n ih =>
      intro mem p hn
      rw [fillLoop, ih _ _ (Nat.le_of_succ_le hn)]
      exact patch_cons mem p hn fun _ => byte

theorem storeBytes_eq {bytes : List UInt8} :
    ∀ (mem : ByteMem) (p : UInt32), bytes.length ≤ 2 ^ 32 →
      storeBytes mem p bytes = patch mem p bytes.length fun i => bytes.getD i 0 := by
  induction bytes with
  | nil => exact fun mem p _ => (patch_zero mem p _).symm
  | cons b bytes ih =>
      intro mem p hn
      rw [storeBytes, ih _ _ (Nat.le_of_succ_le hn)]
      exact patch_cons mem p hn fun i => (b :: bytes).getD i 0

/-- A source that is apart from the destination is copied as it was. -/
theorem copyLoop_eq {n : Nat} :
    ∀ (mem : ByteMem) (d s : UInt32), n ≤ 2 ^ 32 → RangesApart d n s n →
      copyLoop mem d s n = patch mem d n fun i => mem (addr s i) := by
  induction n with
  | zero => exact fun mem d s _ _ => (patch_zero mem d _).symm
  | succ n ih =>
      intro mem d s hn hapart
      have hlater : ∀ i < n, Function.update mem d.toNat (mem s.toNat) (addr (s + 1) i) =
          mem (addr s (i + 1)) := by
        intro i hi
        rw [addr_succ, ← addr_zero d]
        exact Function.update_of_ne (hapart 0 (Nat.succ_pos n) (i + 1) (Nat.succ_lt_succ hi)).symm _ _
      rw [copyLoop, ih _ _ _ (Nat.le_of_succ_le hn) hapart.succ, ← patch_cons mem d hn, addr_zero]
      refine patch_eq (Nat.le_of_succ_le hn) (fun i hi => ?_) fun c hc => patch_of_outside hc
      rw [patch_addr (Nat.le_of_succ_le hn) hi, hlater i hi]

/-! ### `bmk_strncpy` -/

/-- The first loop stores the string with its terminator, or the first `n + 1` characters of a longer one,
    and then the counter has wrapped. -/
theorem strncpyCopy_eq {n : Nat} :
    ∀ {mem : ByteMem} {d s : UInt32} {str : List UInt8}, n < 2 ^ 32 → IsString mem s str →
      RangesApart d (n + 1) s (str.length + 1) →
      strncpyCopy mem d s n =
        (patch mem d (min str.length n + 1) fun i => str.getD i 0, d + UInt32.ofNat (min str.length n + 1),
          if str.length ≤ n then n - str.length else 2 ^ 32 - 1) := by
  induction n with
  | zero =>
      intro mem d s str _ hs _
      have hone := patch_cons mem d (n := 0) (by decide) fun i => str.getD i 0
      rw [patch_zero] at hone
      have hfirst := hs.byte (Nat.zero_le _)
      rw [addr_zero] at hfirst
      rw [strncpyCopy, Nat.min_zero, ← hone, hfirst]
      cases str with
      | nil => rfl
      | cons x str =>
          have hne : (x :: str).getD 0 0 ≠ 0 := hs.2.1
          rw [if_neg hne, if_neg (by simp)]
          rfl
  | succ n ih =>
      intro mem d s str hn hs hapart
      cases str with
      | nil =>
          have hend : mem s.toNat = 0 := hs
          have hone := patch_cons mem d (n := 0) (by decide) fun i => ([] : List UInt8).getD i 0
          rw [patch_zero] at hone
          rw [strncpyCopy, if_pos hend, List.length_nil, Nat.zero_min, ← hone, hend]
          rfl
      | cons x str =>
          obtain ⟨hx, hne, hrest⟩ := hs
          have hgo : mem s.toNat ≠ 0 := by rw [hx]; exact hne
          have hrest' : IsString (Function.update mem d.toNat (mem s.toNat)) (s + 1) str := by
            refine hrest.frame fun i hi => Function.update_of_ne ?_ _ _
            rw [addr_succ, ← addr_zero d]
            exact (hapart 0 (Nat.succ_pos _) (i + 1) (by simpa using hi)).symm
          rw [strncpyCopy, if_neg hgo, ih (Nat.lt_of_succ_lt hn) hrest' hapart.succ, List.length_cons,
            Nat.add_min_add_right]
          refine Prod.ext ?_ (Prod.ext ?_ ?_)
          · rw [hx]
            exact patch_cons mem d (by omega) fun i => (x :: str).getD i 0
          · exact succ_add_ofNat d _
          · simp only [Nat.add_le_add_iff_right, Nat.add_sub_add_right]

theorem bmkStrncpy_fits {mem : ByteMem} {d s n : UInt32} {str : List UInt8} (hs : IsString mem s str)
    (hapart : RangesApart d (n.toNat + 1) s (str.length + 1)) (hfits : str.length ≤ n.toNat) :
    bmkStrncpy mem d s n = patch mem d (n.toNat + 1) fun i => str.getD i 0 := by
  have hn := n.toNat_lt
  rw [bmkStrncpy, strncpyCopy_eq hn hs hapart]
  simp only [Nat.min_eq_left hfits, if_pos hfits]
  rw [fillLoop_eq _ _ _ (by omega), patch_append mem d (by omega)]
  rw [show str.length + 1 + (n.toNat - str.length) = n.toNat + 1 by omega]
  congr 1
  funext i
  split
  · rfl
  · exact (List.getD_eq_default _ _ (by omega)).symm

/-- A string that does not fit: every byte of the address space is cleared but one, which holds a
    character. -/
theorem bmkStrncpy_wraps {mem : ByteMem} {d s n : UInt32} {str : List UInt8} (hs : IsString mem s str)
    (hapart : RangesApart d (n.toNat + 1) s (str.length + 1)) (hlong : n.toNat < str.length) :
    (∀ c < 2 ^ 32, c ≠ addr d n.toNat → bmkStrncpy mem d s n c = 0) ∧
    bmkStrncpy mem d s n (addr d n.toNat) ≠ 0 := by
  have hn := n.toNat_lt
  rw [bmkStrncpy, strncpyCopy_eq hn hs hapart]
  simp only [Nat.min_eq_right hlong.le, if_neg (Nat.not_le_of_lt hlong)]
  rw [fillLoop_eq _ _ _ (by decide)]
  refine ⟨fun c hc hne => ?_, ?_⟩
  · -- behind the buffer, the loop comes around to the byte before its start
    obtain ⟨i, hi, rfl⟩ : ∃ i < 2 ^ 32, c = addr (d + UInt32.ofNat (n.toNat + 1)) i :=
      ⟨_, Nat.mod_lt _ (by decide), (addr_offset _ hc).symm⟩
    refine patch_addr (by decide) (Nat.lt_of_le_of_ne (by omega) fun hlast => hne ?_)
    rw [hlast, addr_add]
    unfold addr
    omega
  · rw [patch_of_outside, patch_addr (by omega) (Nat.lt_succ_self _), List.getD_eq_getElem _ _ hlong]
    · exact hs.nonNul _ (List.getElem_mem hlong)
    · intro i hi
      rw [addr_add]
      unfold addr
      omega

/-- A buffer of `n + 1` bytes as a caller of `bmk_strncpy` wants it: the string as far as it goes, the rest
    cleared, and no other byte of memory changed. -/
structure Filled (mem mem' : ByteMem) (d : UInt32) (n : Nat) (str : List UInt8) : Prop where
  outside : ∀ c, (∀ i ≤ n, c ≠ addr d i) → mem' c = mem c
  copied : ∀ i < min str.length n, mem' (addr d i) = str.getD i 0
  cleared : ∀ i, min str.length n ≤ i → i ≤ n → mem' (addr d i) = 0

theorem filled_iff {mem : ByteMem} {d s n : UInt32} {str : List UInt8} (hs : IsString mem s str)
    (hapart : RangesApart d (n.toNat + 1) s (str.length + 1)) :
    Filled mem (bmkStrncpy mem d s n) d n.toNat str ↔ str.length ≤ n.toNat := by
  have hn := n.toNat_lt
  constructor
  · intro h
    by_contra hlong
    have hlong : n.toNat < str.length := Nat.lt_of_not_le hlong
    exact (bmkStrncpy_wraps hs hapart hlong).2 (h.cleared n.toNat (Nat.min_le_right _ _) le_rfl)
  · intro hfits
    rw [bmkStrncpy_fits hs hapart hfits]
    refine ⟨fun c hc => ?_, fun i hi => ?_, fun i hlo hhi => ?_⟩
    · exact patch_of_outside fun i hi => hc i (Nat.le_of_lt_succ hi)
    · exact patch_addr (by omega) (by omega)
    · rw [patch_addr (by omega) (by omega)]
      exact List.getD_eq_default _ _ (by omega)

/-! ### The callers of `bmk_strncpy` -/

theorem pred_toNat {n : UInt32} (h : 0 < n.toNat) : (n - 1).toNat = n.toNat - 1 :=
  UInt32.toNat_sub_of_le _ _ (UInt32.le_iff_toNat_le.mpr h)

theorem memlimitDigits_length {left : Nat} :
    ∀ {memsize : UInt32} {tmp : List UInt8}, memlimitDigits left memsize = some tmp →
      tmp.length ≤ left := by
  induction left with
  | zero =>
      intro memsize tmp h
      unfold memlimitDigits at h
      split at h
      · cases h
        exact le_rfl
      · cases h
  | succ left ih =>
      intro memsize tmp h
      unfold memlimitDigits at h
      split at h
      · cases h
        exact Nat.zero_le _
      · obtain ⟨rest, hrest, rfl⟩ := Option.map_eq_some_iff.mp h
        exact Nat.succ_le_succ (ih hrest)

/-- The value of the host name parameter. -/
def hostnameText : List UInt8 := "rump-baremetal".toList.map fun c => UInt8.ofNat c.toNat

/-- The two values that `rumpuser_getparam` copies are in memory, apart from the buffer. -/
structure ValuesApart (mem : ByteMem) (lit : Literals) (buf buflen : UInt32) : Prop where
  one : IsString mem lit.one [49]
  oneApart : RangesApart buf buflen.toNat lit.one 2
  host : IsString mem lit.rumpBaremetal hostnameText
  hostApart : RangesApart buf buflen.toNat lit.rumpBaremetal 15

instance (mem : ByteMem) (lit : Literals) (buf buflen : UInt32) :
    Decidable (ValuesApart mem lit buf buflen) :=
  decidable_of_iff (IsString mem lit.one [49] ∧ RangesApart buf buflen.toNat lit.one 2 ∧
    IsString mem lit.rumpBaremetal hostnameText ∧ RangesApart buf buflen.toNat lit.rumpBaremetal 15)
    ⟨fun h => ⟨h.1, h.2.1, h.2.2.1, h.2.2.2⟩, fun h => ⟨h.one, h.oneApart, h.host, h.hostApart⟩⟩

/-- A value that fits is copied into the buffer. -/
theorem strncpy_in_buffer {mem : ByteMem} {buf buflen s : UInt32} {str : List UInt8}
    (hs : IsString mem s str) (hapart : RangesApart buf buflen.toNat s (str.length + 1))
    (hlen : str.length + 1 ≤ buflen.toNat) {c : Nat} (hc : ∀ i < buflen.toNat, c ≠ addr buf i) :
    bmkStrncpy mem buf s (buflen - 1) c = mem c := by
  have hpred : (buflen - 1).toNat + 1 = buflen.toNat := by
    rw [pred_toNat (by omega)]
    omega
  rw [← hpred] at hapart hc
  exact ((filled_iff hs hapart).mpr (by omega)).outside c fun i hi => hc i (Nat.lt_succ_of_le hi)

theorem rumpuserGetparam_within {mem mem' : ByteMem} {lit : Literals}
    {bmkMemsize name buf buflen : UInt32} {rv : Int} (hvalues : ValuesApart mem lit buf buflen)
    (hhost : paramOf mem lit name = some .hostname → 15 ≤ buflen.toNat)
    (hcall : rumpuserGetparam mem lit bmkMemsize name buf buflen = some (rv, mem')) {c : Nat}
    (hc : ∀ i < buflen.toNat, c ≠ addr buf i) : mem' c = mem c := by
  unfold rumpuserGetparam at hcall
  split at hcall
  · cases hcall
    rfl
  · rename_i hshort
    have hlen : 2 ≤ buflen.toNat := Nat.lt_of_not_le fun h => hshort (UInt32.le_iff_toNat_le.mpr h)
    cases hparam : paramOf mem lit name with
    | none =>
        rw [hparam] at hcall
        cases hcall
    | some param =>
        rw [hparam] at hcall
        cases param with
        | one =>
            cases hcall
            exact strncpy_in_buffer hvalues.one hvalues.oneApart hlen hc
        | hostname =>
            cases hcall
            exact strncpy_in_buffer hvalues.host hvalues.hostApart (hhost hparam) hc
        | unknown =>
            cases hcall
            rfl
        | memlimit =>
            dsimp only at hcall
            split at hcall
            · obtain ⟨tmp, htmp, hres⟩ := Option.map_eq_some_iff.mp hcall
              have hdigits := memlimitDigits_length htmp
              split at hres
              · cases hres
                rfl
              · rename_i hroom
                have hroom' : tmp.length < buflen.toNat := by
                  rw [ge_iff_le, UInt32.le_iff_toNat_le, UInt32.toNat_ofNat', Nat.mod_eq_of_lt (by omega)]
                    at hroom
                  exact Nat.lt_of_not_le hroom
                cases hres
                rw [storeBytes_eq _ _ (by rw [List.length_reverse]; omega), patch_of_outside,
                  Function.update_of_ne]
                · rw [toNat_add_ofNat]
                  exact hc _ hroom'
                · intro i hi
                  rw [List.length_reverse] at hi
                  exact hc i (hi.trans hroom')
            · cases hcall

/-- `bmk_strncpy` leaves a buffer of `n + 1` bytes as its callers want it exactly if the string has at most
    `n` characters; a longer one clears all of memory but one byte.  So `bmk_sched_create` changes nothing
    but `bt_name` for a name of at most 15 characters, and `rumpuser_getparam` nothing but its buffer, of
    whatever size, unless it is to put the host name into less than 15 bytes. -/
theorem strncpy_stays_within (mem : ByteMem) :
    (∀ d s n str, IsString mem s str → RangesApart d (n.toNat + 1) s (str.length + 1) →
      (Filled mem (bmkStrncpy mem d s n) d n.toNat str ↔ str.length ≤ n.toNat) ∧
      (n.toNat < str.length → ∀ c < 2 ^ 32, c ≠ addr d n.toNat → bmkStrncpy mem d s n c = 0)) ∧
    (∀ thread name str, IsString mem name str → RangesApart thread 16 name (str.length + 1) →
      str.length ≤ 15 →
      ∀ c, (∀ i < 16, c ≠ addr thread i) → bmkSchedCreateName mem thread name c = mem c) ∧
    ∀ lit bmkMemsize name buf buflen rv mem', ValuesApart mem lit buf buflen →
      (paramOf mem lit name = some .hostname → 15 ≤ buflen.toNat) →
      rumpuserGetparam mem lit bmkMemsize name buf buflen = some (rv, mem') →
      ∀ c, (∀ i < buflen.toNat, c ≠ addr buf i) → mem' c = mem c := by
  refine ⟨fun d s n str hs hapart => ⟨filled_iff hs hapart, fun hlong => ?_⟩, ?_, ?_⟩
  · exact (bmkStrncpy_wraps hs hapart hlong).1
  · intro thread name str hs hapart hlen c hc
    have hroom : str.length + 1 ≤ nameMaxlen.toNat := Nat.succ_le_succ hlen
    have hapart' : RangesApart thread nameMaxlen.toNat name (str.length + 1) := hapart
    exact strncpy_in_buffer hs hapart' hroom hc
  · intro lit bmkMemsize name buf buflen rv mem' hvalues hhost hcall c hc
    exact rumpuserGetparam_within hvalues hhost hcall hc

/-- The strings of `rumpuser_getparam` one behind the other. -/
def sampleStrings : List UInt8 :=
  "_RUMPUSER_NCPU\x00RUMP_VERBOSE\x00_RUMPUSER_HOSTNAME\x00RUMP_MEMLIMIT\x001\x00rump-baremetal\x00".toList.map
    fun c => UInt8.ofNat c.toNat

def sampleLiterals : Literals := ⟨0x1000, 0x100f, 0x101c, 0x102f, 0x103d, 0x103f⟩

/-- A thread is called `rump-baremetal`, and the host name is put into 32 bytes. -/
theorem strncpy_stays_within_hostname :
    (∀ c, (∀ i < 16, c ≠ addr 0x2000 i) →
      bmkSchedCreateName (rodata sampleStrings) 0x2000 0x103f c = rodata sampleStrings c) ∧
    ∃ mem', rumpuserGetparam (rodata sampleStrings) sampleLiterals 0 0x101c 0x2000 32 = some (0, mem') ∧
      ∀ c, (∀ i < 32, c ≠ addr 0x2000 i) → mem' c = rodata sampleStrings c := by
  obtain ⟨-, hname, hparam⟩ := strncpy_stays_within (rodata sampleStrings)
  have hvalues : ValuesApart (rodata sampleStrings) sampleLiterals 0x2000 32 := by decide +kernel
  have hcall :
      (rumpuserGetparam (rodata sampleStrings) sampleLiterals 0 0x101c 0x2000 32).map (·.1) = some 0 := by
    decide +kernel
  obtain ⟨⟨rv, mem'⟩, hcall, rfl⟩ := Option.map_eq_some_iff.mp hcall
  refine ⟨hname 0x2000 0x103f hostnameText (by decide +kernel) (by decide +kernel) (by decide +kernel),
    mem', hcall, ?_⟩
  exact hparam _ _ _ _ _ _ _ hvalues (fun _ => by decide) hcall

/-- The strings again, with a byte that is not cleared behind the first 16 bytes from `0x2000` on, and with
    a name of 16 characters. -/
def sampleMemory : ByteMem := fun c =>
  if c = 0x2010 then 7 else if 0x3000 ≤ c ∧ c < 0x3010 then 120 else rodata sampleStrings c

/-- A thread name of 16 characters clears the byte behind `bt_name`, and the host name put into 8 bytes
    clears a byte that is another 8 bytes away. -/
theorem strncpy_runs_over :
    IsString sampleMemory 0x3000 (List.replicate 16 120) ∧ sampleMemory 0x2010 = 7 ∧
      bmkSchedCreateName sampleMemory 0x2000 0x3000 0x2010 = 0 ∧
      ValuesApart sampleMemory sampleLiterals 0x2000 8 ∧
      ∃ mem', rumpuserGetparam sampleMemory sampleLiterals 0 0x101c 0x2000 8 = some (0, mem') ∧
        mem' 0x2010 = 0 := by
  have hname : IsString sampleMemory 0x3000 (List.replicate 16 120) := by decide +kernel
  have hvalues : ValuesApart sampleMemory sampleLiterals 0x2000 8 := by decide +kernel
  have hparam : paramOf sampleMemory sampleLiterals 0x101c = some .hostname := by decide +kernel
  refine ⟨hname, by decide, ?_, hvalues, bmkStrncpy sampleMemory 0x2000 0x103f 7, ?_, ?_⟩
  · exact (bmkStrncpy_wraps (n := 15) hname (by decide +kernel) (by decide)).1 _ (by decide) (by decide)
  · rw [rumpuserGetparam, if_neg (by decide), hparam]
    rfl
  · exact (bmkStrncpy_wraps (n := 7) hvalues.host (by decide +kernel) (by decide)).1 _ (by decide)
      (by decide)

end RumpBaremetal
