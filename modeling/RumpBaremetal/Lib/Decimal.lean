/-
Module: RumpBaremetal.Lib.Decimal
Layer: Lib
Purpose: Numbers as strings of decimal digits, most significant first: `render` writes one, `value` reads
  one, and what was written reads back as it was.
Trusted boundary: none
Main exports: digitChar, render, value, value_render, render_digits, render_head
-/
import Mathlib.Data.Nat.Digits.Lemmas
import Mathlib.Tactic

namespace Decimal

/-- The character of a digit. -/
def digitChar (d : Nat) : UInt8 := UInt8.ofNat (48 + d)

/-- The digits of a number, without leading zeros. -/
def render (n : Nat) : List UInt8 := ((Nat.digits 10 n).map digitChar).reverse

/-- The number that a string of digits stands for. -/
def value (s : List UInt8) : Nat := s.foldl (fun v b => 10 * v + (b.toNat - 48)) 0

theorem digitChar_toNat {d : Nat} (h : d < 10) : (digitChar d).toNat = 48 + d := by
  unfold digitChar
  rw [UInt8.toNat_ofNat', Nat.mod_eq_of_lt (by omega)]

theorem length_render (n : Nat) : (render n).length = (Nat.digits 10 n).length := by
  unfold render
  rw [List.length_reverse, List.length_map]

/-- Every character is a digit. -/
theorem render_digits (n : Nat) : ∀ b ∈ render n, 48 ≤ b.toNat ∧ b.toNat ≤ 57 := by
  intro b hb
  obtain ⟨d, hd, rfl⟩ := List.mem_map.mp (List.mem_reverse.mp hb)
  have hlt : d < 10 := Nat.digits_lt_base (by decide) hd
  rw [digitChar_toNat hlt]
  omega

theorem render_ne_nul (n : Nat) : ∀ b ∈ render n, b ≠ 0 := by
  rintro b hb rfl
  exact absurd (render_digits n 0 hb).1 (by decide)

/-- The first digit is not zero. -/
theorem render_head {n : Nat} (hn : n ≠ 0) : ∃ b rest, render n = b :: rest ∧ b ≠ 48 := by
  have hne : Nat.digits 10 n ≠ [] := Nat.digits_ne_nil_iff_ne_zero.mpr hn
  have hlast := Nat.getLast_digit_ne_zero 10 hn
  have hlt : (Nat.digits 10 n).getLast hne < 10 := Nat.digits_lt_base (by decide) (List.getLast_mem hne)
  refine ⟨digitChar ((Nat.digits 10 n).getLast hne),
    ((Nat.digits 10 n).dropLast.map digitChar).reverse, ?_, ?_⟩
  · unfold render
    conv_lhs => rw [← List.dropLast_append_getLast hne, List.map_append, List.reverse_append]
    rfl
  · intro heq
    have hnat := congrArg UInt8.toNat heq
    rw [digitChar_toNat hlt, show (48 : UInt8).toNat = 48 from rfl] at hnat
    omega

/-- Reading the digits from the least significant on. -/
theorem foldr_digitChar {ds : List Nat} (hds : ∀ d ∈ ds, d < 10) :
    (ds.map digitChar).foldr (fun b v => 10 * v + (b.toNat - 48)) 0 = Nat.ofDigits 10 ds := by
  induction ds with
  | nil => rfl
  | cons d ds ih =>
      have hd : d < 10 := hds d List.mem_cons_self
      have hrest := ih fun x hx => hds x (List.mem_cons_of_mem d hx)
      rw [List.map_cons, List.foldr_cons, hrest, digitChar_toNat hd, Nat.ofDigits_cons]
      omega

/-- What was written reads back. -/
theorem value_render (n : Nat) : value (render n) = n := by
  have hdigits : ∀ d ∈ Nat.digits 10 n, d < 10 := fun d hd => Nat.digits_lt_base (by decide) hd
  unfold value render
  rw [List.foldl_reverse, foldr_digitChar hdigits, Nat.ofDigits_digits]

end Decimal
