/-
Module: RumpBaremetal.Lib.ByteMem
Layer: Lib
Purpose: A byte memory addressed by the naturals, with little-endian 32-bit words, and singly linked lists
  threaded through words of such a memory.  A word reads back what was stored in it, a store is seen by
  no byte outside the word, and a list survives every change that spares its links.  `Agree` says of two
  memories that they hold the same bytes in a range.
Trusted boundary: none
Main exports: ByteMem, load32, store32, load32_store32, store32_of_apart, load32_congr, Agree, Chain,
  Chain.frame, Chain.of_links
-/
import RumpBaremetal.Lib.Extent

/-- One byte for each address. -/
abbrev ByteMem := Nat → UInt8

namespace ByteMem

/-- The word at `a`, least significant byte first. -/
def load32 (m : ByteMem) (a : Nat) : UInt32 :=
  UInt32.ofNat ((m a).toNat + (m (a + 1)).toNat * 2 ^ 8 + (m (a + 2)).toNat * 2 ^ 16 +
    (m (a + 3)).toNat * 2 ^ 24)

/-- Byte `i` of a word. -/
def byte (x : UInt32) (i : Nat) : UInt8 := UInt8.ofNat (x.toNat / 2 ^ (8 * i))

/-- Store a word at `a`, least significant byte first. -/
def store32 (m : ByteMem) (a : Nat) (x : UInt32) : ByteMem := fun b =>
  if a ≤ b ∧ b < a + 4 then byte x (b - a) else m b

theorem store32_of_apart (m : ByteMem) {a b : Nat} (x : UInt32) (h : b < a ∨ a + 4 ≤ b) :
    store32 m a x b = m b := by
  unfold store32
  rw [if_neg (by omega)]

theorem load32_congr {m m' : ByteMem} {a : Nat} (h : ∀ b, a ≤ b → b < a + 4 → m' b = m b) :
    load32 m' a = load32 m a := by
  unfold load32
  rw [h a (by omega) (by omega), h (a + 1) (by omega) (by omega), h (a + 2) (by omega) (by omega),
    h (a + 3) (by omega) (by omega)]

theorem load32_zero {m : ByteMem} {a : Nat} (h : ∀ b, a ≤ b → b < a + 4 → m b = 0) : load32 m a = 0 := by
  rw [load32_congr (m := fun _ => 0) h]
  simp [load32]

theorem store32_self (m : ByteMem) (a : Nat) (x : UInt32) {i : Nat} (hi : i < 4) :
    store32 m a x (a + i) = byte x i := by
  unfold store32
  rw [if_pos (by omega), Nat.add_sub_cancel_left]

@[simp] theorem load32_store32 (m : ByteMem) (a : Nat) (x : UInt32) :
    load32 (store32 m a x) a = x := by
  have hx := x.toNat_lt
  have h0 := store32_self m a x (i := 0) (by omega)
  rw [Nat.add_zero] at h0
  unfold load32
  rw [h0, store32_self m a x (by omega), store32_self m a x (by omega),
    store32_self m a x (by omega)]
  apply UInt32.toNat_inj.mp
  simp only [byte, UInt8.toNat_ofNat', UInt32.toNat_ofNat']
  omega

/-- A store does not touch another word. -/
theorem load32_store32_of_apart (m : ByteMem) {a b : Nat} (x : UInt32) (h : a + 4 ≤ b ∨ b + 4 ≤ a) :
    load32 (store32 m b x) a = load32 m a := by
  refine load32_congr fun d hlo hhi => store32_of_apart m x ?_
  omega

/-! ### Ranges -/

/-- The memories hold the same bytes in the range. -/
def Agree (e : Extent) (m m' : ByteMem) : Prop := ∀ b, e.start ≤ b → b < e.fin → m' b = m b

namespace Agree

variable {e : Extent} {m m' m'' : ByteMem}

theorem refl (e : Extent) (m : ByteMem) : Agree e m m := fun _ _ _ => rfl

theorem trans (h : Agree e m m') (h' : Agree e m' m'') : Agree e m m'' :=
  fun b hlo hhi => (h' b hlo hhi).trans (h b hlo hhi)

theorem mono {e' : Extent} (h : Agree e m m') (hin : e'.Inside e) : Agree e' m m' :=
  fun b hlo hhi => h b (hin.1.trans hlo) (hhi.trans_le hin.2)

/-- A word outside the range is stored. -/
theorem store32 (h : Agree e m m') {a : Nat} (hapart : Extent.Apart ⟨a, 4⟩ e) (x : UInt32) :
    Agree e m (ByteMem.store32 m' a x) := by
  intro b hlo hhi
  rw [store32_of_apart m' x, h b hlo hhi]
  rcases hapart with hle | hle
  · exact .inr (hle.trans hlo)
  · exact .inl (hhi.trans_le hle)

theorem load32 (h : Agree e m m') {a : Nat} (hin : Extent.Inside ⟨a, 4⟩ e) :
    ByteMem.load32 m' a = ByteMem.load32 m a :=
  load32_congr fun b hlo hhi => h b (hin.1.trans hlo) (hhi.trans_le hin.2)

end Agree

/-! ### Linked lists -/

/-- From the pointer `p`, the links lead through the nodes of the list, in order, to the null pointer. -/
def Chain (next : Nat → Nat) : Nat → List Nat → Prop
  | p, [] => p = 0
  | p, a :: rest => p = a ∧ a ≠ 0 ∧ Chain next (next a) rest

theorem Chain.frame {next next' : Nat → Nat} {l : List Nat} :
    ∀ {p : Nat}, Chain next p l → (∀ a ∈ l, next' a = next a) → Chain next' p l := by
  induction l with
  | nil =>
      intro p h _
      exact h
  | cons a rest ih =>
      intro p h hsame
      obtain ⟨hp, hne, hrest⟩ := h
      refine ⟨hp, hne, ?_⟩
      rw [hsame a List.mem_cons_self]
      exact ih hrest fun b hb => hsame b (List.mem_cons_of_mem _ hb)

/-- Nodes that are not null, each with a link to the next one, and the last with a null link. -/
theorem Chain.of_links {next : Nat → Nat} (rest : Nat) :
    ∀ (node : Nat → Nat), (∀ i ≤ rest, node i ≠ 0) → (∀ i < rest, next (node i) = node (i + 1)) →
      next (node rest) = 0 → Chain next (node 0) ((List.range (rest + 1)).map node) := by
  induction rest with
  | zero =>
      intro node hne _ hlast
      exact ⟨rfl, hne 0 le_rfl, hlast⟩
  | succ rest ih =>
      intro node hne hlink hlast
      rw [List.range_succ_eq_map, List.map_cons, List.map_map]
      refine ⟨rfl, hne 0 (Nat.zero_le _), ?_⟩
      rw [hlink 0 (Nat.succ_pos _)]
      apply ih (node ∘ Nat.succ)
      · intro i hi
        exact hne (i + 1) (Nat.succ_le_succ hi)
      · intro i hi
        exact hlink (i + 1) (Nat.succ_lt_succ hi)
      · exact hlast

theorem Chain.eq_nil {next : Nat → Nat} {l : List Nat} (h : Chain next 0 l) : l = [] := by
  cases l with
  | nil => rfl
  | cons a rest => exact absurd h.1.symm h.2.1

theorem Chain.eq_cons {next : Nat → Nat} {p : Nat} {l : List Nat} (h : Chain next p l)
    (hp : p ≠ 0) : ∃ rest, l = p :: rest ∧ Chain next (next p) rest := by
  cases l with
  | nil => exact absurd h hp
  | cons a rest =>
      obtain ⟨rfl, -, hrest⟩ := h
      exact ⟨rest, rfl, hrest⟩

/-- The links leave no choice. -/
theorem Chain.unique {next : Nat → Nat} {l : List Nat} :
    ∀ {p : Nat} {l' : List Nat}, Chain next p l → Chain next p l' → l = l' := by
  induction l with
  | nil =>
      intro p l' h h'
      obtain rfl : p = 0 := h
      exact h'.eq_nil.symm
  | cons a rest ih =>
      intro p l' h h'
      obtain ⟨rfl, hne, hrest⟩ := h
      obtain ⟨rest', rfl, hrest'⟩ := h'.eq_cons hne
      rw [ih hrest hrest']

end ByteMem
