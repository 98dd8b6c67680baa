/-
Module: RumpBaremetal.Lib.StepSystem
Layer: Lib
Purpose: Partial step functions `σ → α → Option σ`, their runs along a list of labels, and the two
  induction rules every safety result of the development goes through: an invariant kept by each
  step holds after each run, and an invariant kept by each step that meets a side condition holds
  after each run whose steps all meet it.  Two systems whose steps go together have runs that go together,
  also where the one has steps that the other cannot see.
  Observations made at each step are collected along a run.
Trusted boundary: none
Main exports: run, Meets, Meets.cons, meets_iff, run_invariant, run_invariant_of_meets, run_simulation,
  run_refines, run_follows, collect
-/
import Mathlib.Tactic

namespace StepSystem

variable {σ α : Type*} {step : σ → α → Option σ}

/-- Follow a list of labels.  The run is undefined as soon as one label is not enabled. -/
def run (step : σ → α → Option σ) : σ → List α → Option σ
  | s, [] => some s
  | s, a :: as =>
      match step s a with
      | none => none
      | some t => run step t as

@[simp] theorem run_nil (s : σ) : run step s [] = some s := rfl

theorem run_cons_inv {s u : σ} {a : α} {as : List α} (h : run step s (a :: as) = some u) :
    ∃ t, step s a = some t ∧ run step t as = some u := by
  unfold run at h
  cases ht : step s a with
  | none => simp [ht] at h
  | some t =>
      simp only [ht] at h
      exact ⟨t, rfl, h⟩

/-- A run in two parts. -/
theorem run_append (as bs : List α) :
    ∀ s : σ, run step s (as ++ bs) = (run step s as).bind fun t => run step t bs := by
  induction as with
  | nil => exact fun s => rfl
  | cons a as ih =>
      intro s
      simp only [List.cons_append, run]
      cases step s a with
      | none => rfl
      | some t => exact ih t

/-- Every step of the run, taken from the state it is taken in, satisfies `C`. -/
def Meets (step : σ → α → Option σ) (C : σ → α → Prop) : σ → List α → Prop
  | _, [] => True
  | s, a :: as => C s a ∧ ∀ t, step s a = some t → Meets step C t as

theorem meets_cons_of_some {C : σ → α → Prop} {s t : σ} {a : α} {as : List α} (ht : step s a = some t) :
    Meets step C s (a :: as) ↔ C s a ∧ Meets step C t as := by
  refine and_congr_right fun _ => ⟨fun h => h t ht, fun h u hu => ?_⟩
  rw [ht] at hu
  cases hu
  exact h

theorem meets_cons_of_none {C : σ → α → Prop} {s : σ} {a : α} {as : List α} (ht : step s a = none) :
    Meets step C s (a :: as) ↔ C s a := by
  refine and_iff_left fun u hu => ?_
  rw [ht] at hu
  cases hu

/-- A condition that can be evaluated can be evaluated along a run. -/
instance decidableMeets {C : σ → α → Prop} [∀ s a, Decidable (C s a)] :
    (s : σ) → (as : List α) → Decidable (Meets step C s as)
  | _, [] => .isTrue trivial
  | s, a :: as =>
      match h : step s a with
      | none => decidable_of_iff _ (meets_cons_of_none h).symm
      | some t =>
          match decidableMeets t as with
          | .isTrue hrest =>
              decidable_of_iff (C s a) ⟨fun hc => (meets_cons_of_some h).mpr ⟨hc, hrest⟩, fun hm => hm.1⟩
          | .isFalse hrest => .isFalse fun hm => hrest ((meets_cons_of_some h).mp hm).2

/-- Extend a run that meets the condition at its front. -/
theorem Meets.cons {C : σ → α → Prop} {s t : σ} {a : α} {as : List α} (first : C s a)
    (ht : step s a = some t) (rest : Meets step C t as) : Meets step C s (a :: as) := by
  refine ⟨first, fun u hu => ?_⟩
  rw [ht] at hu
  cases hu
  exact rest

/-- The invariant rule for runs with a side condition on their steps. -/
theorem run_invariant_of_meets {C : σ → α → Prop} {I : σ → Prop}
    (keep : ∀ s a t, I s → C s a → step s a = some t → I t) :
    ∀ {as : List α} {s u : σ}, I s → Meets step C s as → run step s as = some u → I u
  | [], s, u, hs, _, h => by
      simp only [run_nil, Option.some.injEq] at h
      exact h ▸ hs
  | a :: as, s, u, hs, hmeets, h => by
      obtain ⟨t, ht, hrest⟩ := run_cons_inv h
      exact run_invariant_of_meets keep (keep s a t hs hmeets.1 ht) (hmeets.2 t ht) hrest

/-- A condition that holds of every label of a run is met by it. -/
theorem meets_of_mem {C : σ → α → Prop} :
    ∀ {as : List α}, (∀ a ∈ as, ∀ s, C s a) → ∀ s : σ, Meets step C s as
  | [], _, _ => trivial
  | a :: _, all, s =>
      ⟨all a List.mem_cons_self s,
        fun t _ => meets_of_mem (fun b hb => all b (List.mem_cons_of_mem a hb)) t⟩

theorem Meets.and {C D : σ → α → Prop} : ∀ {as : List α} {s : σ}, Meets step C s as → Meets step D s as →
    Meets step (fun s a => C s a ∧ D s a) s as
  | [], _, _, _ => trivial
  | _ :: _, _, hC, hD => ⟨⟨hC.1, hD.1⟩, fun t ht => (hC.2 t ht).and (hD.2 t ht)⟩

/-- Two conditions that agree on the steps from states with an invariant, which the steps that meet the
    second one keep, agree on a run. -/
theorem meets_iff {C D : σ → α → Prop} {I : σ → Prop}
    (keep : ∀ s a t, I s → D s a → step s a = some t → I t)
    (agree : ∀ s a t, I s → step s a = some t → (C s a ↔ D s a)) :
    ∀ {as : List α} {s u : σ}, I s → run step s as = some u → (Meets step C s as ↔ Meets step D s as)
  | [], _, _, _, _ => Iff.rfl
  | a :: as, s, u, hs, h => by
      obtain ⟨t, ht, hrest⟩ := run_cons_inv h
      rw [meets_cons_of_some ht, meets_cons_of_some ht, agree s a t hs ht]
      exact and_congr_right fun hD => meets_iff keep agree (keep s a t hs hD ht) hrest

/-- The invariant rule: what every step keeps, every run keeps. -/
theorem run_invariant {I : σ → Prop} (keep : ∀ s a t, I s → step s a = some t → I t)
    {as : List α} {s u : σ} (hs : I s) (h : run step s as = some u) : I u :=
  run_invariant_of_meets (C := fun _ _ => True) (fun s a t hI _ ht => keep s a t hI ht) hs
    (meets_of_mem (fun _ _ _ => trivial) s) h

/-! ### Two systems -/

/-- The simulation rule: two systems whose steps go together, along labels that meet a side condition of the
    first, have runs that go together. -/
theorem run_simulation {τ : Type*} {step' : τ → α → Option τ} {C : σ → α → Prop} {R : σ → τ → Prop}
    (sim : ∀ s s' a, R s s' → C s a → Option.Rel R (step s a) (step' s' a)) :
    ∀ {as : List α} {s : σ} {s' : τ}, R s s' → Meets step C s as →
      Option.Rel R (run step s as) (run step' s' as) := by
  intro as
  induction as with
  | nil => exact fun hR _ => .some hR
  | cons a as ih =>
      intro s s' hR hmeets
      have hstep := sim s s' a hR hmeets.1
      have hrest := hmeets.2
      simp only [run]
      cases h : step s a with
      | none =>
          cases h' : step' s' a with
          | none => exact .none
          | some t' =>
              rw [h, h'] at hstep
              cases hstep
      | some t =>
          cases h' : step' s' a with
          | none =>
              rw [h, h'] at hstep
              cases hstep
          | some t' =>
              rw [h, h'] at hstep
              cases hstep with
              | some hR' => exact ih hR' (hrest t h)

theorem rel_mono {τ : Type*} {R R' : σ → τ → Prop} (h : ∀ s t, R s t → R' s t) :
    ∀ {s : Option σ} {t : Option τ}, Option.Rel R s t → Option.Rel R' s t
  | _, _, .some hR => .some (h _ _ hR)
  | _, _, .none => .none

theorem rel_of_some {τ : Type*} {R : σ → τ → Prop} {s : σ} :
    ∀ {t : Option τ}, Option.Rel R (some s) t → ∃ u, t = some u ∧ R s u
  | _, .some hR => ⟨_, rfl, hR⟩

/-- What no step can bring about holds before a run if it holds behind it. -/
theorem run_back {G : σ → Prop} (back : ∀ s a t, step s a = some t → G t → G s) :
    ∀ {as : List α} {s u : σ}, run step s as = some u → G u → G s := by
  intro as
  induction as with
  | nil =>
      intro s u hrun hu
      cases hrun
      exact hu
  | cons a as ih =>
      intro s u hrun hu
      obtain ⟨t, ht, hrest⟩ := run_cons_inv hrun
      exact back s a t ht (ih hrest hu)

/-- The refinement rule: the second system follows the first along the labels that it can see, in every run
    at the end of which `G` holds. -/
theorem run_refines {β τ : Type*} {step' : τ → β → Option τ} {visible : α → Option β} {G : σ → Prop}
    {R : σ → τ → Prop} (back : ∀ s a t, step s a = some t → G t → G s)
    (hidden : ∀ s a t s', R s s' → step s a = some t → G t → visible a = none → R t s')
    (seen : ∀ s a t s' b, R s s' → step s a = some t → G t → visible a = some b →
      ∃ t', step' s' b = some t' ∧ R t t') :
    ∀ {as : List α} {s u : σ} {s' : τ}, R s s' → run step s as = some u → G u →
      ∃ u', run step' s' (as.filterMap visible) = some u' ∧ R u u' := by
  intro as
  induction as with
  | nil =>
      intro s u s' hR hrun _
      cases hrun
      exact ⟨s', rfl, hR⟩
  | cons a as ih =>
      intro s u s' hR hrun hu
      obtain ⟨t, ht, hrest⟩ := run_cons_inv hrun
      have hG := run_back back hrest hu
      cases hvisible : visible a with
      | none =>
          rw [List.filterMap_cons_none hvisible]
          exact ih (hidden s a t s' hR ht hG hvisible) hrest hu
      | some b =>
          obtain ⟨t', ht', hR'⟩ := seen s a t s' b hR ht hG hvisible
          obtain ⟨u', hrun', hRu⟩ := ih hR' hrest hu
          refine ⟨u', ?_, hRu⟩
          rw [List.filterMap_cons_some hvisible, run, ht']
          exact hrun'

/-- The rule for a second system with smaller steps: it follows each step of the first by a run of its own,
    in every run at the end of which `G` holds. -/
theorem run_follows {β τ : Type*} {step' : τ → β → Option τ} {G : σ → Prop} {R : σ → τ → Prop}
    (back : ∀ s a t, step s a = some t → G t → G s)
    (follow : ∀ s a t s', R s s' → step s a = some t → G t → ∃ bs t', run step' s' bs = some t' ∧ R t t') :
    ∀ {as : List α} {s u : σ} {s' : τ}, R s s' → run step s as = some u → G u →
      ∃ bs u', run step' s' bs = some u' ∧ R u u' := by
  intro as
  induction as with
  | nil =>
      intro s u s' hR hrun _
      cases hrun
      exact ⟨[], s', rfl, hR⟩
  | cons a as ih =>
      intro s u s' hR hrun hu
      obtain ⟨t, ht, hrest⟩ := run_cons_inv hrun
      obtain ⟨bs, t', hrun', hR'⟩ := follow s a t s' hR ht (run_back back hrest hu)
      obtain ⟨cs, u', hrest', hRu⟩ := ih hR' hrest hu
      refine ⟨bs ++ cs, u', ?_, hRu⟩
      rw [run_append, hrun']
      exact hrest'

/-! ### Observations -/

/-- What is observed along a run, in order. -/
def collect {β : Type*} (step : σ → α → Option σ) (obs : σ → α → List β) : σ → List α → List β
  | _, [] => []
  | s, a :: as =>
      match step s a with
      | none => []
      | some t => obs s a ++ collect step obs t as

theorem collect_cons {β : Type*} {obs : σ → α → List β} {s t : σ} {a : α} (ht : step s a = some t)
    (as : List α) :
    collect step obs s (a :: as) = obs s a ++ collect step obs t as := by
  simp only [collect, ht]

end StepSystem
