/-
Module: RumpBaremetal.Lib.Extent
Layer: Lib
Purpose: Half-open address ranges over the naturals: containment, separation, and exact tilings of a
  range by equally sized pieces.  Machine addresses enter only through their numeric value, so wrap
  around is something a client has to exclude before it may speak about a range.
Trusted boundary: none
Main exports: Extent, Extent.Inside, Extent.Apart, Extent.pieces
-/
import Mathlib.Tactic

/-- The bytes `start, …, start + len - 1`. -/
structure Extent where
  start : Nat
  len : Nat
deriving DecidableEq, Repr

namespace Extent

/-- One past the last byte. -/
def fin (e : Extent) : Nat := e.start + e.len

/-- `e` lies between the two ends of `outer`. -/
def Inside (e outer : Extent) : Prop :=
  outer.start ≤ e.start ∧ e.fin ≤ outer.fin

/-- The two ranges share no byte. -/
def Apart (e f : Extent) : Prop :=
  e.fin ≤ f.start ∨ f.fin ≤ e.start

instance (e outer : Extent) : Decidable (Inside e outer) :=
  inferInstanceAs (Decidable (_ ∧ _))

instance (e f : Extent) : Decidable (Apart e f) :=
  inferInstanceAs (Decidable (_ ∨ _))

theorem Apart.symm {e f : Extent} (h : Apart e f) : Apart f e := Or.symm h

theorem Apart.mono {e e' f f' : Extent} (h : Apart e f) (he : Inside e' e) (hf : Inside f' f) :
    Apart e' f' := by
  rcases h with h | h
  · exact Or.inl (he.2.trans (h.trans hf.1))
  · exact Or.inr (hf.2.trans (h.trans he.1))

/-- The starting points of the pieces of size `sz` that a range is cut into. -/
def pieces (e : Extent) (sz : Nat) : List Nat :=
  (List.range (e.len / sz)).map fun k => e.start + k * sz

theorem mem_pieces {e : Extent} {sz a : Nat} :
    a ∈ e.pieces sz ↔ ∃ k, k < e.len / sz ∧ a = e.start + k * sz := by
  simp [pieces, eq_comm]

theorem piece_inside {e : Extent} {sz a : Nat} (h : a ∈ e.pieces sz) : Inside ⟨a, sz⟩ e := by
  obtain ⟨k, hk, rfl⟩ := mem_pieces.mp h
  have hle : (k + 1) * sz ≤ e.len :=
    le_trans (Nat.mul_le_mul_right sz hk) (Nat.div_mul_le_self e.len sz)
  rw [Nat.add_mul, Nat.one_mul] at hle
  refine ⟨Nat.le_add_right _ _, ?_⟩
  simp only [fin]
  omega

/-- Pieces whose size divides the length of the range cover it, and nothing else. -/
theorem pieces_cover {e : Extent} {sz : Nat} (hsz : 0 < sz) (h : sz ∣ e.len) (c : Nat) :
    (e.start ≤ c ∧ c < e.fin) ↔ ∃ a ∈ e.pieces sz, a ≤ c ∧ c < a + sz := by
  constructor
  · rintro ⟨hlo, hhi⟩
    have hhi : c - e.start < e.len := by
      simp only [fin] at hhi
      omega
    have hdiv := Nat.div_add_mod (c - e.start) sz
    have hmod := Nat.mod_lt (c - e.start) hsz
    rw [Nat.mul_comm] at hdiv
    refine ⟨_, mem_pieces.mpr ⟨(c - e.start) / sz, Nat.div_lt_div_of_lt_of_dvd h hhi, rfl⟩, ?_, ?_⟩
    · omega
    · omega
  · rintro ⟨a, ha, hlo, hhi⟩
    have hinside := piece_inside ha
    simp only [Inside, fin] at hinside ⊢
    omega

theorem pieces_nodup (e : Extent) {sz : Nat} (hsz : 0 < sz) : (e.pieces sz).Nodup := by
  refine List.Nodup.map ?_ List.nodup_range
  intro k k' h
  have hmul : k * sz = k' * sz := by
    have h' : e.start + k * sz = e.start + k' * sz := h
    omega
  exact Nat.eq_of_mul_eq_mul_right hsz hmul

theorem pieces_apart {e : Extent} {sz a b : Nat} (ha : a ∈ e.pieces sz) (hb : b ∈ e.pieces sz)
    (hne : a ≠ b) : Apart ⟨a, sz⟩ ⟨b, sz⟩ := by
  obtain ⟨k, -, rfl⟩ := mem_pieces.mp ha
  obtain ⟨k', -, rfl⟩ := mem_pieces.mp hb
  have hstep : ∀ {i j : Nat}, i < j → i * sz + sz ≤ j * sz := by
    intro i j hij
    calc i * sz + sz = (i + 1) * sz := by rw [Nat.add_mul, Nat.one_mul]
      _ ≤ j * sz := Nat.mul_le_mul_right sz hij
  rcases Nat.lt_trichotomy k k' with hlt | heq | hgt
  · refine Or.inl ?_
    have := hstep hlt
    simp only [fin]
    omega
  · exact absurd (by rw [heq]) hne
  · refine Or.inr ?_
    have := hstep hgt
    simp only [fin]
    omega

end Extent
