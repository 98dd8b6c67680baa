/-
Module: RumpBaremetal.Lib.Cursor
Layer: Lib
Purpose: Loops that move a cursor through data which itself says how far the next record is.  Such a loop
  need not end and need not move forward: `walk` executes it for a number of rounds and records where it has
  been, `Visits` says where it comes without a bound on the rounds.  Over finitely many positions a loop
  that has not ended after as many rounds as there are positions never ends.
Trusted boundary: none
Main exports: walk, Visits, walk_visited, walk_sorted_iff, walk_ends, walk_none_iff, walk_none_all
-/
import Mathlib.Tactic

namespace Cursor

variable {α : Type*}

/-- `for (a = start; inside a; a = next a) if (found a) break;` for a number of rounds: the positions at
    which the body was executed, in order, and the position behind the loop.  `none` if the loop has not
    ended by then. -/
def walk (inside found : α → Bool) (next : α → α) : Nat → α → Option (List α × α)
  | 0, _ => none
  | rounds + 1, a =>
      if inside a then
        if found a then some ([a], a)
        else (walk inside found next rounds (next a)).map fun r => (a :: r.1, r.2)
      else some ([], a)

/-- The body of the loop is executed at a position. -/
inductive Visits (inside found : α → Bool) (next : α → α) (a : α) : α → Prop
  | here (ha : inside a = true) : Visits inside found next a a
  | next {b : α} (hb : Visits inside found next a b) (hnot : found b = false)
      (hin : inside (next b) = true) :
      Visits inside found next a (next b)

variable {inside found : α → Bool} {next : α → α} {a b c last : α} {visited : List α} {rounds : Nat}

/-! ### One round -/

theorem walk_outside (h : inside a = false) : walk inside found next (rounds + 1) a = some ([], a) := by
  simp [walk, h]

theorem walk_found (h : inside a = true) (hfound : found a = true) :
    walk inside found next (rounds + 1) a = some ([a], a) := by
  simp [walk, h, hfound]

theorem walk_next (h : inside a = true) (hnot : found a = false) :
    walk inside found next (rounds + 1) a = (walk inside found next rounds (next a)).map fun r =>
    (a :: r.1, r.2) := by
  simp [walk, h, hnot]

/-- How a walk that ends begins. -/
theorem walk_cases (h : walk inside found next (rounds + 1) a = some (visited, last)) :
    (inside a = false ∧ visited = [] ∧ last = a) ∨
    (inside a = true ∧ found a = true ∧ visited = [a] ∧ last = a) ∨
    ∃ rest, inside a = true ∧ found a = false ∧ visited = a :: rest ∧
      walk inside found next rounds (next a) = some (rest, last) := by
  cases hin : inside a with
  | false =>
      rw [walk_outside hin] at h
      obtain ⟨rfl, rfl⟩ := Prod.mk.inj (Option.some.inj h)
      exact .inl ⟨rfl, rfl, rfl⟩
  | true =>
      cases hfound : found a with
      | true =>
          rw [walk_found hin hfound] at h
          obtain ⟨rfl, rfl⟩ := Prod.mk.inj (Option.some.inj h)
          exact .inr (.inl ⟨rfl, rfl, rfl, rfl⟩)
      | false =>
          rw [walk_next hin hfound] at h
          obtain ⟨⟨rest, final⟩, hrest, heq⟩ := Option.map_eq_some_iff.mp h
          obtain ⟨rfl, rfl⟩ := Prod.mk.inj heq
          exact .inr (.inr ⟨rest, rfl, rfl, rfl, hrest⟩)

namespace Visits

theorem inside_start (h : Visits inside found next a c) : inside a = true := by
  induction h with
  | here ha => exact ha
  | next _ _ _ ih => exact ih

/-- The other end of the path. -/
theorem cons (hin : inside a = true) (hnot : found a = false) (h : Visits inside found next (next a) c) :
    Visits inside found next a c := by
  induction h with
  | here hnext => exact .next (.here hin) hnot hnext
  | next _ hb hnext ih => exact .next ih hb hnext

theorem cases_head (h : Visits inside found next a c) :
    c = a ∨ found a = false ∧ Visits inside found next (next a) c := by
  induction h with
  | here _ => exact .inl rfl
  | next hb hnot hin ih =>
      obtain rfl | ⟨ha, hb'⟩ := ih
      · exact .inr ⟨hnot, .here hin⟩
      · exact .inr ⟨ha, .next hb' hnot hin⟩

end Visits

/-! ### Walks that end -/

/-- The record of a walk is complete. -/
theorem walk_visited : ∀ {rounds : Nat} {a : α} {visited : List α},
    walk inside found next rounds a = some (visited, last) → ∀ c, c ∈ visited ↔
    Visits inside found next a c := by
  intro rounds
  induction rounds with
  | zero =>
      intro a visited h
      cases h
  | succ rounds ih =>
      intro a visited h c
      obtain ⟨hin, rfl, rfl⟩ | ⟨hin, hfound, rfl, rfl⟩ | ⟨rest, hin, hnot, rfl, hrest⟩ := walk_cases h
      · refine ⟨fun hc => absurd hc List.not_mem_nil, fun hc => ?_⟩
        rw [hc.inside_start] at hin
        cases hin
      · refine ⟨fun hc => ?_, fun hc => ?_⟩
        · rw [List.mem_singleton.mp hc]
          exact .here hin
        · obtain rfl | ⟨hnot, -⟩ := hc.cases_head
          · exact List.mem_singleton_self c
          · rw [hfound] at hnot
            cases hnot
      · rw [List.mem_cons, ih hrest c]
        refine ⟨fun hc => ?_, fun hc => ?_⟩
        · obtain rfl | hc := hc
          · exact .here hin
          · exact hc.cons hin hnot
        · exact hc.cases_head.imp_right And.right

/-- Where a walk ends. -/
theorem walk_last : ∀ {rounds : Nat} {a : α} {visited : List α},
    walk inside found next rounds a = some (visited, last) →
      inside last = false ∨ (inside last = true ∧ found last = true) := by
  intro rounds
  induction rounds with
  | zero =>
      intro a visited h
      cases h
  | succ rounds ih =>
      intro a visited h
      obtain ⟨hin, -, rfl⟩ | ⟨hin, hfound, -, rfl⟩ | ⟨rest, -, -, -, hrest⟩ := walk_cases h
      · exact .inl hin
      · exact .inr ⟨hin, hfound⟩
      · exact ih hrest

/-- More rounds change nothing once the walk has ended. -/
theorem walk_mono : ∀ {rounds more : Nat} {a : α} {r : List α × α},
    walk inside found next rounds a = some r → rounds ≤ more → walk inside found next more a = some r := by
  intro rounds
  induction rounds with
  | zero =>
      intro more a r h
      cases h
  | succ rounds ih =>
      intro more a r h hle
      obtain ⟨more, rfl⟩ := Nat.exists_eq_add_of_le' (Nat.lt_of_lt_of_le (Nat.succ_pos rounds) hle)
      obtain ⟨visited, last⟩ := r
      obtain ⟨hin, rfl, rfl⟩ | ⟨hin, hfound, rfl, rfl⟩ | ⟨rest, hin, hnot, rfl, hrest⟩ := walk_cases h
      · exact walk_outside hin
      · exact walk_found hin hfound
      · rw [walk_next hin hnot, ih hrest (Nat.le_of_succ_le_succ hle)]
        rfl

/-- A walk whose steps make a measure smaller ends. -/
theorem walk_ends (measure : α → Nat) : ∀ {bound : Nat} {a : α}, measure a < bound →
    (∀ b, Visits inside found next a b → found b = false → measure (next b) < measure b) →
      ∃ r, walk inside found next bound a = some r := by
  intro bound
  induction bound with
  | zero =>
      intro a hlt
      exact absurd hlt (Nat.not_lt_zero _)
  | succ bound ih =>
      intro a hlt hdown
      cases hin : inside a with
      | false => exact ⟨_, walk_outside hin⟩
      | true =>
          cases hfound : found a with
          | true => exact ⟨_, walk_found hin hfound⟩
          | false =>
              have hstep := hdown a (.here hin) hfound
              obtain ⟨r, hr⟩ := ih (by omega) fun b hb hnot => hdown b (hb.cons hin hfound) hnot
              exact ⟨_, (walk_next hin hfound).trans (congrArg _ hr)⟩

/-! ### Walks that only move forward -/

section Order

variable {β : Type*} [LinearOrder β] {rank : α → β}

theorem Visits.rank_le (hup : ∀ b, Visits inside found next a b → found b = false → rank b < rank (next b))
    (h : Visits inside found next a c) : rank a ≤ rank c := by
  induction h with
  | here _ => exact le_rfl
  | next hb hnot _ ih => exact ih.trans (hup _ hb hnot).le

/-- The positions of a walk increase exactly if every step that is taken moves forward.  A step backward
    stays inside, so it is seen in the record. -/
theorem walk_sorted_iff (rank : α → β)
    (hdown : ∀ {a b : α}, rank a ≤ rank b → inside b = true → inside a = true) :
    ∀ {rounds : Nat} {a : α} {visited : List α}, walk inside found next rounds a = some (visited, last) →
      ((visited.Pairwise fun a b => rank a < rank b) ↔
        ∀ b, Visits inside found next a b → found b = false → rank b < rank (next b)) := by
  intro rounds
  induction rounds with
  | zero =>
      intro a visited h
      cases h
  | succ rounds ih =>
      intro a visited h
      obtain ⟨hin, rfl, rfl⟩ | ⟨hin, hfound, rfl, rfl⟩ | ⟨rest, hin, hnot, rfl, hrest⟩ := walk_cases h
      · refine ⟨fun _ b hb _ => ?_, fun _ => .nil⟩
        rw [hb.inside_start] at hin
        cases hin
      · refine ⟨fun _ b hb hnot => ?_, fun _ => List.pairwise_singleton _ _⟩
        obtain rfl | ⟨hnot', -⟩ := hb.cases_head
        · rw [hfound] at hnot
          cases hnot
        · rw [hfound] at hnot'
          cases hnot'
      · rw [List.pairwise_cons, ih hrest]
        refine ⟨fun hsorted b hb hb' => ?_,
          fun hup => ⟨fun c hc => ?_, fun b hb => hup b (hb.cons hin hnot)⟩⟩
        · obtain ⟨hhead, htail⟩ := hsorted
          obtain rfl | ⟨-, hrest'⟩ := hb.cases_head
          · by_contra hback
            have hin' := hdown (not_lt.mp hback) hin
            exact hback (hhead _ ((walk_visited hrest _).mpr (.here hin')))
          · exact htail b hrest' hb'
        · have hfirst : rank a < rank (next a) := hup a (.here hin) hnot
          have hc' := (walk_visited hrest c).mp hc
          exact hfirst.trans_le (hc'.rank_le fun b hb => hup b (hb.cons hin hnot))

end Order

/-! ### Walks that do not end -/

theorem walk_none_iff : ∀ {rounds : Nat} {a : α},
    walk inside found next rounds a = none ↔
      ∀ k < rounds, inside (next^[k] a) = true ∧ found (next^[k] a) = false := by
  intro rounds
  induction rounds with
  | zero =>
      intro a
      exact ⟨fun _ k hk => absurd hk (Nat.not_lt_zero k), fun _ => rfl⟩
  | succ rounds ih =>
      intro a
      refine ⟨fun h => ?_, fun h => ?_⟩
      · cases hin : inside a with
        | false =>
            rw [walk_outside hin] at h
            cases h
        | true =>
            cases hfound : found a with
            | true =>
                rw [walk_found hin hfound] at h
                cases h
            | false =>
                rw [walk_next hin hfound, Option.map_eq_none_iff] at h
                intro k hk
                cases k with
                | zero => exact ⟨hin, hfound⟩
                | succ k =>
                    rw [Function.iterate_succ_apply]
                    exact ih.mp h k (Nat.lt_of_succ_lt_succ hk)
      · obtain ⟨hin, hfound⟩ := h 0 (Nat.succ_pos rounds)
        rw [Function.iterate_zero_apply] at hin hfound
        rw [walk_next hin hfound, Option.map_eq_none_iff, ih]
        intro k hk
        rw [← Function.iterate_succ_apply]
        exact h (k + 1) (Nat.succ_lt_succ hk)

/-- Over `n` positions the first `n` iterates are all there are. -/
theorem iterate_mem_first {n : Nat} (index : α → Fin n) (hinj : Function.Injective index) (next : α → α)
    (a : α) (m : Nat) :
    ∃ k < n, next^[m] a = next^[k] a := by
  induction m using Nat.strong_induction_on with
  | _ m ih =>
      by_cases hm : m < n
      · exact ⟨m, hm, rfl⟩
      · obtain ⟨i, j, hne, heq⟩ := Fintype.exists_ne_map_eq_of_card_lt
          (fun k : Fin (n + 1) => index (next^[k] a)) (by simp)
        -- the iterates repeat from the smaller of the two on, so that `m` may be taken back by
        -- their distance
        have hback : ∀ {i j : Nat}, i < j → j ≤ n → next^[i] a = next^[j] a →
            ∃ k < n, next^[m] a = next^[k] a := by
          intro i j hij hj heq
          obtain ⟨k, hk, hmk⟩ := ih (m - j + i) (by omega)
          refine ⟨k, hk, ?_⟩
          rw [← hmk, Function.iterate_add_apply, heq, ← Function.iterate_add_apply,
            Nat.sub_add_cancel (by omega)]
        obtain hij | hji := Nat.lt_or_gt_of_ne (Fin.val_ne_of_ne hne)
        · exact hback hij (Nat.le_of_lt_succ j.isLt) (hinj heq)
        · exact hback hji (Nat.le_of_lt_succ i.isLt) (hinj heq).symm

/-- A loop over `n` positions that has not ended after `n` rounds never ends. -/
theorem walk_none_all {n : Nat} (index : α → Fin n) (hinj : Function.Injective index)
    (h : walk inside found next n a = none) (rounds : Nat) : walk inside found next rounds a = none := by
  rw [walk_none_iff] at h ⊢
  intro m _
  obtain ⟨k, hk, heq⟩ := iterate_mem_first index hinj next a m
  rw [heq]
  exact h k hk

end Cursor
