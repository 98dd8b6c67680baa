/-
Module: RumpBaremetal.Lib.Patch
Layer: Lib
Purpose: Memory as C code walks through it, byte by byte, with a 32-bit pointer that wraps at `2^32`.
  `patch` is what a loop that stores `n` bytes leaves, in closed form, for any `n` up to the whole address
  space; a loop is related to it by one rule for its next byte and one for two loops in a row.  `IsString`
  says that a pointer leads through the bytes of a string to its terminator.
Trusted boundary: none
Main exports: addr, RangesApart, patch, patch_addr, patch_of_outside, patch_cons, patch_append, IsString,
  IsString.byte, IsString.of_bytes
-/
import Mathlib.Data.List.GetD
import RumpBaremetal.Lib.ByteMem

namespace ByteMem

/-! ### Addresses behind a pointer -/

/-- The address of the byte `i` behind a pointer. -/
def addr (p : UInt32) (i : Nat) : Nat := (p.toNat + i) % 2 ^ 32

/-- How far an address lies behind a pointer. -/
def offset (p : UInt32) (c : Nat) : Nat := (c + 2 ^ 32 - p.toNat) % 2 ^ 32

@[simp] theorem addr_zero (p : UInt32) : addr p 0 = p.toNat := Nat.mod_eq_of_lt p.toNat_lt

theorem addr_lt (p : UInt32) (i : Nat) : addr p i < 2 ^ 32 := Nat.mod_lt _ (by decide)

theorem addr_add (p : UInt32) (k i : Nat) : addr (p + UInt32.ofNat k) i = addr p (k + i) := by
  unfold addr
  rw [UInt32.toNat_add, UInt32.toNat_ofNat']
  omega

/-- Stepping the pointer. -/
theorem addr_succ (p : UInt32) (i : Nat) : addr (p + 1) i = addr p (i + 1) := by
  rw [Nat.add_comm i 1]
  exact addr_add p 1 i

theorem toNat_add_ofNat (p : UInt32) (i : Nat) : (p + UInt32.ofNat i).toNat = addr p i := by
  rw [← addr_zero, addr_add]
  rfl

theorem add_ofNat_zero (p : UInt32) : p + UInt32.ofNat 0 = p := UInt32.add_zero p

theorem succ_add_ofNat (p : UInt32) (i : Nat) : p + 1 + UInt32.ofNat i = p + UInt32.ofNat (i + 1) := by
  rw [UInt32.ofNat_add, UInt32.add_comm (UInt32.ofNat i), ← UInt32.add_assoc]
  rfl

theorem add_ofNat_pred (p : UInt32) (i : Nat) : p + UInt32.ofNat (i + 1) - 1 = p + UInt32.ofNat i := by
  rw [UInt32.ofNat_add, ← UInt32.add_assoc]
  exact UInt32.add_sub_cancel _ _

theorem addr_of_lt {p : UInt32} {i : Nat} (h : p.toNat + i < 2 ^ 32) : addr p i = p.toNat + i :=
  Nat.mod_eq_of_lt h

/-- A word behind the pointer, up to the one in front of it, is apart from the word at the pointer. -/
theorem addr_apart (p : UInt32) {k : Nat} (hk : 4 ≤ k) (hk' : k + 4 ≤ 2 ^ 32) :
    p.toNat + 4 ≤ addr p k ∨ addr p k + 4 ≤ p.toNat := by
  have hp := p.toNat_lt
  unfold addr
  omega

theorem offset_addr (p : UInt32) {i : Nat} (hi : i < 2 ^ 32) : offset p (addr p i) = i := by
  have hp := p.toNat_lt
  unfold offset addr
  omega

theorem addr_offset (p : UInt32) {c : Nat} (hc : c < 2 ^ 32) : addr p (offset p c) = c := by
  have hp := p.toNat_lt
  unfold offset addr
  omega

theorem addr_inj (p : UInt32) {i j : Nat} (hi : i < 2 ^ 32) (hj : j < 2 ^ 32) (h : addr p i = addr p j) :
    i = j := by
  rw [← offset_addr p hi, h, offset_addr p hj]

/-- Two ranges that share no byte, one behind each pointer. -/
def RangesApart (d : UInt32) (m : Nat) (s : UInt32) (n : Nat) : Prop :=
  ∀ i < m, ∀ j < n, addr d i ≠ addr s j

instance (d : UInt32) (m : Nat) (s : UInt32) (n : Nat) : Decidable (RangesApart d m s n) :=
  inferInstanceAs (Decidable (∀ i < m, ∀ j < n, addr d i ≠ addr s j))

theorem RangesApart.succ {d s : UInt32} {m n : Nat} (h : RangesApart d (m + 1) s (n + 1)) :
    RangesApart (d + 1) m (s + 1) n := by
  intro i hi j hj
  rw [addr_succ, addr_succ]
  exact h (i + 1) (Nat.succ_lt_succ hi) (j + 1) (Nat.succ_lt_succ hj)

/-! ### Storing consecutive bytes -/

/-- The memory with `n` bytes stored from `p` on, `f i` as the byte `i`. -/
def patch (mem : ByteMem) (p : UInt32) (n : Nat) (f : Nat → UInt8) : ByteMem := fun c =>
  if c < 2 ^ 32 ∧ offset p c < n then f (offset p c) else mem c

variable {mem : ByteMem} {p : UInt32} {n : Nat} {f : Nat → UInt8}

theorem patch_addr (hn : n ≤ 2 ^ 32) {i : Nat} (hi : i < n) : patch mem p n f (addr p i) = f i := by
  have hoff : offset p (addr p i) = i := offset_addr p (hi.trans_le hn)
  unfold patch
  rw [hoff, if_pos ⟨addr_lt p i, hi⟩]

theorem patch_of_outside {c : Nat} (h : ∀ i < n, c ≠ addr p i) : patch mem p n f c = mem c := by
  unfold patch
  rw [if_neg]
  rintro ⟨hc, hlt⟩
  exact h _ hlt (addr_offset p hc).symm

@[simp] theorem patch_zero (mem : ByteMem) (p : UInt32) (f : Nat → UInt8) : patch mem p 0 f = mem := by
  funext c
  exact patch_of_outside (by simp)

/-- Two memories that agree where the first is patched, byte by byte, and elsewhere. -/
theorem patch_eq {mem' : ByteMem} (hn : n ≤ 2 ^ 32) (hin : ∀ i < n, mem' (addr p i) = f i)
    (hout : ∀ c, (∀ i < n, c ≠ addr p i) → mem' c = mem c) : mem' = patch mem p n f := by
  funext c
  by_cases h : ∃ i < n, c = addr p i
  · obtain ⟨i, hi, rfl⟩ := h
    rw [hin i hi, patch_addr hn hi]
  · push Not at h
    rw [hout c h, patch_of_outside h]

/-- One byte, and then the rest. -/
theorem patch_cons (mem : ByteMem) (p : UInt32) {n : Nat} (hn : n + 1 ≤ 2 ^ 32) (f : Nat → UInt8) :
    patch (Function.update mem p.toNat (f 0)) (p + 1) n (fun i => f (i + 1)) = patch mem p (n + 1) f := by
  refine patch_eq hn (fun i hi => ?_) fun c hc => ?_
  · cases i with
    | zero =>
        rw [patch_of_outside, addr_zero, Function.update_self]
        intro j hj heq
        rw [addr_succ] at heq
        exact absurd (addr_inj p (by decide) (by omega) heq) (by omega)
    | succ i =>
        rw [← addr_succ]
        exact patch_addr (by omega) (by omega)
  · rw [patch_of_outside, Function.update_of_ne]
    · rw [← addr_zero p]
      exact hc 0 (Nat.succ_pos n)
    · intro i hi
      rw [addr_succ]
      exact hc (i + 1) (Nat.succ_lt_succ hi)

/-- A second loop goes on where the first has stopped. -/
theorem patch_append (mem : ByteMem) (p : UInt32) {m n : Nat} (h : m + n ≤ 2 ^ 32) (f g : Nat → UInt8) :
    patch (patch mem p m f) (p + UInt32.ofNat m) n g =
      patch mem p (m + n) fun i => if i < m then f i else g (i - m) := by
  refine patch_eq h (fun i hi => ?_) fun c hc => ?_
  · by_cases hfirst : i < m
    · rw [if_pos hfirst, patch_of_outside, patch_addr (by omega) hfirst]
      intro j hj heq
      rw [addr_add] at heq
      exact absurd (addr_inj p (by omega) (by omega) heq) (by omega)
    · obtain ⟨j, rfl⟩ := Nat.exists_eq_add_of_le (Nat.le_of_not_lt hfirst)
      rw [if_neg hfirst, Nat.add_sub_cancel_left, ← addr_add]
      exact patch_addr (by omega) (by omega)
  · rw [patch_of_outside, patch_of_outside]
    · intro i hi
      exact hc i (by omega)
    · intro i hi
      rw [addr_add]
      exact hc (m + i) (by omega)

/-! ### Strings -/

/-- The pointer leads through the bytes of the string, none of them `NUL`, to its terminator. -/
def IsString (mem : ByteMem) : UInt32 → List UInt8 → Prop
  | p, [] => mem p.toNat = 0
  | p, b :: s => mem p.toNat = b ∧ b ≠ 0 ∧ IsString mem (p + 1) s

instance decidableIsString (mem : ByteMem) : (p : UInt32) → (s : List UInt8) → Decidable (IsString mem p s)
  | p, [] => inferInstanceAs (Decidable (mem p.toNat = 0))
  | p, b :: s =>
      have := decidableIsString mem (p + 1) s
      inferInstanceAs (Decidable (mem p.toNat = b ∧ b ≠ 0 ∧ IsString mem (p + 1) s))

namespace IsString

/-- The byte `i` of a string; the terminator counts as one. -/
theorem byte {s : List UInt8} : ∀ {p : UInt32}, IsString mem p s → ∀ {i : Nat}, i ≤ s.length →
    mem (addr p i) = s.getD i 0 := by
  induction s with
  | nil =>
      intro p h i hi
      obtain rfl : i = 0 := Nat.le_zero.mp hi
      rw [addr_zero]
      exact h
  | cons b s ih =>
      intro p h i hi
      obtain ⟨hb, -, hrest⟩ := h
      cases i with
      | zero =>
          rw [addr_zero]
          exact hb
      | succ i =>
          rw [← addr_succ, ih hrest (Nat.le_of_succ_le_succ hi), List.getD_cons_succ]

/-- Bytes that are not `NUL`, and a terminator behind them, make a string. -/
theorem of_bytes {s : List UInt8} :
    ∀ {p : UInt32}, (∀ b ∈ s, b ≠ 0) → (∀ i ≤ s.length, mem (addr p i) = s.getD i 0) →
    IsString mem p s := by
  induction s with
  | nil =>
      intro p _ hbytes
      have hend := hbytes 0 le_rfl
      rwa [addr_zero] at hend
  | cons b s ih =>
      intro p hne hbytes
      have hfirst := hbytes 0 (Nat.zero_le _)
      rw [addr_zero] at hfirst
      refine ⟨hfirst, hne b List.mem_cons_self,
        ih (fun c hc => hne c (List.mem_cons_of_mem b hc)) fun i hi => ?_⟩
      rw [addr_succ]
      exact hbytes (i + 1) (Nat.succ_le_succ hi)

theorem nonNul {s : List UInt8} : ∀ {p : UInt32}, IsString mem p s → ∀ b ∈ s, b ≠ 0 := by
  induction s with
  | nil => exact fun _ b hb => absurd hb List.not_mem_nil
  | cons b s ih =>
      intro p h
      exact List.forall_mem_cons.mpr ⟨h.2.1, ih h.2.2⟩

/-- A string ends before its pointer has come around. -/
theorem length_lt {s : List UInt8} (h : IsString mem p s) : s.length < 2 ^ 32 := by
  by_contra hlong
  -- the terminator would lie where an earlier byte lies
  have hlast := h.byte (i := s.length) le_rfl
  have hearlier := h.byte (i := s.length - 2 ^ 32) (by omega)
  have hsame : addr p (s.length - 2 ^ 32) = addr p s.length := by
    unfold addr
    omega
  rw [hsame, hlast] at hearlier
  have hlt : s.length - 2 ^ 32 < s.length := by omega
  rw [List.getD_eq_default _ _ le_rfl, List.getD_eq_getElem _ _ hlt] at hearlier
  exact h.nonNul _ (List.getElem_mem hlt) hearlier.symm

/-- A string survives a change elsewhere. -/
theorem frame {mem' : ByteMem} {s : List UInt8} :
    ∀ {p : UInt32}, IsString mem p s → (∀ i ≤ s.length, mem' (addr p i) = mem (addr p i)) →
      IsString mem' p s := by
  induction s with
  | nil =>
      intro p h hsame
      have hfirst := hsame 0 le_rfl
      rw [addr_zero] at hfirst
      exact hfirst.trans h
  | cons b s ih =>
      intro p h hsame
      obtain ⟨hb, hne, hrest⟩ := h
      have hfirst := hsame 0 (Nat.zero_le _)
      rw [addr_zero] at hfirst
      refine ⟨hfirst.trans hb, hne, ih hrest fun i hi => ?_⟩
      rw [addr_succ]
      exact hsame (i + 1) (Nat.succ_le_succ hi)

end IsString

end ByteMem
