/-
Module: RumpBaremetal.Proofs.Queue
Layer: Proofs
Purpose: The pointers of bmk/queue.h as lists.  A head holds a list when the links lead through its elements
  to `tqh_last`, each element points back to the link that leads to it, and nothing follows.  Each macro is
  shown to do to that list what its name says and to leave the lists of all other heads alone; a loop over a
  queue visits its list.
Trusted boundary: none (fully proved)
Main exports: Holds, Holds.init, Holds.insertHead, Holds.insertTail, Holds.remove, foreachSafe_rule,
  foreach_rule, QueueLists, QueueOp, tailqStep, queueStep, Proper, ReadsAs, tailqs_refine_lists
-/
import RumpBaremetal.Kernel.Queue
import RumpBaremetal.Lib.StepSystem

namespace RumpBaremetal

open Links StepSystem

variable {Head Elm : Type*}

/-- The links of the head lead through the elements of the list. -/
structure Holds (q : Tailqs Head Elm) (head : Head) (xs : List Elm) : Prop where
  path : Leads Link.next q.links (.first head) xs (q.tqhLast head)
  ends : q.links.target (q.tqhLast head) = none

theorem first_ne_next (head : Head) (z : Elm) : Link.first head ≠ Link.next z := by
  intro h
  cases h

theorem next_injective : Function.Injective (Link.next : Elm → Link Head Elm) := by
  intro x y h
  cases h
  rfl

namespace Holds

variable {q : Tailqs Head Elm} {head other : Head} {xs ys zs : List Elm} {x y e : Elm}

theorem nodup (h : Holds q head xs) : xs.Nodup := h.path.nodup next_injective (first_ne_next head)

/-- An element is in one queue at most: it has one `tqe_prev`. -/
theorem disjoint (h : Holds q head xs) (h' : Holds q other ys) (hne : head ≠ other) : xs.Disjoint ys := by
  refine Leads.disjoint next_injective (first_ne_next head) (first_ne_next other) ?_ h.path h'.path
  intro heq
  cases heq
  exact hne rfl

theorem first_eq (h : Holds q head xs) : tailqFirst q head = xs.head? := by
  cases xs with
  | nil =>
      have hlast : Link.first head = q.tqhLast head := h.path
      rw [tailqFirst, hlast]
      exact h.ends
  | cons x xs => exact h.path.1

theorem empty_iff (h : Holds q head xs) : tailqEmpty q head = true ↔ xs = [] := by
  rw [tailqEmpty, h.first_eq]
  cases xs <;> simp

/-- What follows an element in memory follows it in the list. -/
theorem next_eq (h : Holds q head (xs ++ x :: ys)) : tailqNext q x = ys.head? := by
  obtain ⟨-, -, hrest⟩ := h.path.split
  cases ys with
  | nil =>
      have hlast : Link.next x = q.tqhLast head := hrest
      rw [tailqNext, hlast]
      exact h.ends
  | cons y ys => exact hrest.1

/-- The link of an element outside the queue is not on the way. -/
theorem back_ne_next (h : Holds q head xs) (he : e ∉ xs) : ∀ y ∈ xs, q.links.back y ≠ .next e := by
  intro y hy heq
  rcases h.path.back_cell hy with hroot | ⟨z, hz, hback⟩
  · exact first_ne_next head e (hroot.symm.trans heq)
  · exact he (next_injective (heq.symm.trans hback) ▸ hz)

theorem back_ne_first (h : Holds q head xs) (hne : head ≠ other) :
    ∀ y ∈ xs, q.links.back y ≠ .first other := by
  intro y hy heq
  rcases h.path.back_cell hy with hroot | ⟨z, -, hback⟩
  · have := hroot.symm.trans heq
    cases this
    exact hne rfl
  · exact first_ne_next other z (heq.symm.trans hback)

theorem last_ne_next (h : Holds q head xs) (he : e ∉ xs) : q.tqhLast head ≠ .next e := by
  intro heq
  rcases h.path.last_cell with hroot | ⟨z, hz, hlast⟩
  · exact first_ne_next head e (hroot.symm.trans heq)
  · exact he (next_injective (heq.symm.trans hlast) ▸ hz)

theorem last_ne_first (h : Holds q head xs) (hne : head ≠ other) : q.tqhLast head ≠ .first other := by
  intro heq
  rcases h.path.last_cell with hroot | ⟨z, -, hlast⟩
  · have := hroot.symm.trans heq
    cases this
    exact hne rfl
  · exact first_ne_next other z (heq.symm.trans hlast)

/-! #### Single assignments -/

section Assignments

variable [DecidableEq Head] [DecidableEq Elm] {link : Link Head Elm}

omit [DecidableEq Head] [DecidableEq Elm] in
/-- The link that leads to an element of a queue leads to nothing else. -/
theorem back_ne_of_target (h : Holds q head xs) (htarget : ∀ y ∈ xs, q.links.target link ≠ some y) :
    ∀ y ∈ xs, q.links.back y ≠ link := by
  intro y hy heq
  exact htarget y hy (heq ▸ h.path.target_back hy)

theorem setTarget (h : Holds q head xs) (spared : ∀ y ∈ xs, q.links.back y ≠ link)
    (hlast : q.tqhLast head ≠ link) (v : Option Elm) : Holds (q.setTarget link v) head xs where
  path := h.path.setTarget spared v
  ends := (q.links.setTarget_target_of_ne hlast v).trans h.ends

omit [DecidableEq Head] in
theorem setPrev (h : Holds q head xs) (hx : x ∉ xs) (link : Link Head Elm) :
    Holds (q.setPrev x link) head xs where
  path := h.path.setBack hx link
  ends := h.ends

omit [DecidableEq Elm] in
theorem setLast (h : Holds q head xs) (hne : head ≠ other) (link : Link Head Elm) :
    Holds (q.setLast other link) head xs := by
  have hlast := q.setLast_tqhLast_of_ne hne link
  exact ⟨hlast ▸ h.path, hlast ▸ h.ends⟩

/-! #### The macros on the queue itself -/

theorem init (q : Tailqs Head Elm) (head : Head) : Holds (tailqInit q head) head [] where
  path := by simp [Leads, tailqInit]
  ends := by simp [tailqInit]

theorem insertHead_empty (h : tailqFirst q head = none) (e : Elm) :
    tailqInsertHead q head e =
      (((q.setTarget (.next e) none).setLast head (.next e)).setTarget (.first head) (some e)).setPrev e
        (.first head) := by
  simp [tailqInsertHead, tailqNext, h]

theorem insertHead_first (h : tailqFirst q head = some x) (e : Elm) :
    tailqInsertHead q head e =
      (((q.setTarget (.next e) (some x)).setPrev x (.next e)).setTarget (.first head) (some e)).setPrev e
        (.first head) := by
  have hstill : tailqFirst (q.setTarget (.next e) (some x)) head = some x :=
    (q.links.setTarget_target_of_ne (first_ne_next head e) _).trans h
  simp [tailqInsertHead, tailqNext, h, hstill]

theorem insertHead (h : Holds q head xs) (he : e ∉ xs) :
    Holds (tailqInsertHead q head e) head (e :: xs) := by
  have hne : Link.first head ≠ Link.next e := first_ne_next head e
  cases xs with
  | nil =>
      rw [insertHead_empty h.first_eq]
      refine ⟨⟨?_, ?_, ?_⟩, ?_⟩
      · simp
      · simp
      · simp [Leads]
      · simp [Links.setTarget_target_of_ne _ hne.symm]
  | cons x xs =>
      rw [insertHead_first h.first_eq]
      have hx : x ∉ xs := (List.nodup_cons.mp h.nodup).1
      have hxe : x ≠ e := fun heq => he (heq ▸ List.mem_cons_self)
      have hfirst : ∀ y ∈ x :: xs, y ≠ x → q.links.back y ≠ .first head := by
        intro y hy hyx hback
        have htarget := h.path.target_back hy
        rw [hback, h.path.1] at htarget
        exact hyx (Option.some.inj htarget).symm
      have hlast : q.tqhLast head ≠ .first head := by
        intro heq
        have hnone := h.ends
        rw [heq, h.path.1] at hnone
        cases hnone
      refine ⟨⟨?_, ?_, ?_, ?_, ?_⟩, ?_⟩
      · simp
      · simp
      · simp [Links.setTarget_target_of_ne _ hne.symm]
      · simp [Links.setBack_back_of_ne _ hxe]
      · -- the rest of the way is where it was
        refine (((h.path.2.2.setTarget (fun y hy => ?_) _).setBack hx _).setTarget (fun y hy => ?_)
          _).setBack ?_ _
        · exact h.back_ne_next he y (List.mem_cons_of_mem x hy)
        · have hyx : y ≠ x := fun heq => hx (heq ▸ hy)
          simp only [Links.setBack_back_of_ne _ hyx, Links.setTarget_back]
          exact hfirst y (List.mem_cons_of_mem x hy) hyx
        · exact fun hmem => he (List.mem_cons_of_mem x hmem)
      · simp [Links.setTarget_target_of_ne _ hlast, Links.setTarget_target_of_ne _ (h.last_ne_next he),
          h.ends]

theorem insertTail (h : Holds q head xs) (he : e ∉ xs) :
    Holds (tailqInsertTail q head e) head (xs ++ [e]) := by
  have hlast := h.last_ne_next he
  have hends : ∀ y ∈ xs, q.links.back y ≠ q.tqhLast head := by
    apply h.back_ne_of_target
    simp [h.ends]
  have hback : ∀ y ∈ xs, (q.links.setBack e (q.tqhLast head)).back y ≠ q.tqhLast head := by
    intro y hy
    have hye : y ≠ e := fun heq => he (heq ▸ hy)
    rw [Links.setBack_back_of_ne _ hye]
    exact hends y hy
  refine ⟨Leads.append (d := q.tqhLast head) ?_ ⟨?_, ?_, ?_⟩, ?_⟩
  · exact ((h.path.setTarget (h.back_ne_next he) _).setBack he _).setTarget hback _
  · simp [tailqInsertTail]
  · simp [tailqInsertTail]
  · simp [tailqInsertTail, Leads]
  · simp [tailqInsertTail, Links.setTarget_target_of_ne _ hlast.symm]

omit [DecidableEq Head] [DecidableEq Elm] in
/-- Two elements of a queue do not share the link that leads to them. -/
theorem back_ne_back (h : Holds q head (xs ++ e :: ys)) (hy : y ∈ xs ++ e :: ys) (hne : y ≠ e) :
    q.links.back y ≠ q.links.back e := by
  intro heq
  have htarget := h.path.target_back hy
  rw [heq, h.path.target_back (by simp)] at htarget
  exact hne (Option.some.inj htarget).symm

omit [DecidableEq Head] [DecidableEq Elm] in
theorem last_ne_back (h : Holds q head xs) (hy : q.links.target link = some y) : q.tqhLast head ≠ link := by
  intro heq
  have hends := h.ends
  rw [heq, hy] at hends
  cases hends

theorem remove_last (h : tailqNext q e = none) :
    tailqRemove q head e = (q.setLast head (q.links.back e)).setTarget (q.links.back e) none := by
  have hstill : tailqNext (q.setLast head (q.links.back e)) e = none := h
  simp [tailqRemove, h, hstill]

theorem remove_inner (h : tailqNext q e = some x) (hne : x ≠ e) :
    tailqRemove q head e = (q.setPrev x (q.links.back e)).setTarget (q.links.back e) (some x) := by
  have hstill : tailqNext (q.setPrev x (q.links.back e)) e = some x := h
  simp [tailqRemove, h, hstill, Links.setBack_back_of_ne _ hne.symm]

theorem remove (h : Holds q head (xs ++ e :: ys)) : Holds (tailqRemove q head e) head (xs ++ ys) := by
  obtain ⟨hbefore, hhere, hbehind⟩ := h.path.split
  have hnodup := List.nodup_append.mp h.nodup
  have hxs : ∀ y ∈ xs, q.links.back y ≠ q.links.back e := by
    intro y hy
    exact h.back_ne_back (List.mem_append_left _ hy) (hnodup.2.2 y hy e List.mem_cons_self)
  have hys : ∀ y ∈ ys, q.links.back y ≠ q.links.back e := by
    intro y hy
    refine h.back_ne_back (List.mem_append_right _ (List.mem_cons_of_mem e hy)) ?_
    rintro rfl
    exact (List.nodup_cons.mp hnodup.2.1).1 hy
  have hnext := h.next_eq
  cases ys with
  | nil =>
      rw [remove_last hnext, List.append_nil]
      refine ⟨?_, ?_⟩
      · simpa using hbefore.setTarget hxs none
      · simp
  | cons y ys =>
      have hnodup' := List.nodup_cons.mp hnodup.2.1
      have hye : y ≠ e := fun heq => hnodup'.1 (heq ▸ List.mem_cons_self)
      have hyxs : y ∉ xs := fun hmem => hnodup.2.2 y hmem y (by simp) rfl
      have hyys : y ∉ ys := (List.nodup_cons.mp hnodup'.2).1
      rw [remove_inner hnext hye]
      refine ⟨Leads.append (d := q.links.back e) ?_ ⟨?_, ?_, ?_⟩, ?_⟩
      · refine (hbefore.setBack hyxs _).setTarget (fun z hz => ?_) _
        have hzy : z ≠ y := fun heq => hyxs (heq ▸ hz)
        rw [Links.setBack_back_of_ne _ hzy]
        exact hxs z hz
      · simp
      · simp
      · refine (hbehind.2.2.setBack hyys _).setTarget (fun z hz => ?_) _
        have hzy : z ≠ y := fun heq => hyys (heq ▸ hz)
        rw [Links.setBack_back_of_ne _ hzy]
        exact hys z (List.mem_cons_of_mem y hz)
      · simp [Links.setTarget_target_of_ne _ (h.last_ne_back hhere), h.ends]

/-! #### The macros on another queue -/

theorem init_other (h : Holds q other ys) (hne : other ≠ head) : Holds (tailqInit q head) other ys :=
  (h.setTarget (h.back_ne_first hne) (h.last_ne_first hne) none).setLast hne _

theorem insertHead_other (h : Holds q head xs) (h' : Holds q other ys) (hne : other ≠ head) (he : e ∉ ys) :
    Holds (tailqInsertHead q head e) other ys := by
  have hnext := fun v => h'.setTarget (h'.back_ne_next he) (h'.last_ne_next he) v
  cases xs with
  | nil =>
      rw [insertHead_empty h.first_eq]
      have hmoved := (hnext none).setLast hne (.next e)
      exact (hmoved.setTarget (hmoved.back_ne_first hne) (hmoved.last_ne_first hne) _).setPrev he _
  | cons x xs =>
      rw [insertHead_first h.first_eq]
      have hx : x ∉ ys := h.disjoint h' hne.symm List.mem_cons_self
      have hmoved := (hnext (some x)).setPrev hx (.next e)
      exact (hmoved.setTarget (hmoved.back_ne_first hne) (hmoved.last_ne_first hne) _).setPrev he _

omit [DecidableEq Head] [DecidableEq Elm] in
theorem last_ne_last (h : Holds q head xs) (h' : Holds q other ys) (hne : other ≠ head) :
    q.tqhLast other ≠ q.tqhLast head := by
  rcases h.path.last_cell with hroot | ⟨z, hz, hlast⟩
  · rw [hroot]
    exact h'.last_ne_first hne
  · rw [hlast]
    exact h'.last_ne_next (h.disjoint h' hne.symm hz)

theorem insertTail_other (h : Holds q head xs) (h' : Holds q other ys) (hne : other ≠ head) (he : e ∉ ys) :
    Holds (tailqInsertTail q head e) other ys := by
  have hmoved := (h'.setTarget (h'.back_ne_next he) (h'.last_ne_next he) none).setPrev he (q.tqhLast head)
  have hback : ∀ y ∈ ys, q.links.back y ≠ q.tqhLast head := by
    apply h'.back_ne_of_target
    simp [h.ends]
  refine Holds.setLast (hmoved.setTarget (fun y hy => ?_) ?_ (some e)) hne _
  · have hye : y ≠ e := fun heq => he (heq ▸ hy)
    rw [Tailqs.setPrev_links, Links.setBack_back_of_ne _ hye]
    exact hback y hy
  · have hlasts : q.tqhLast other ≠ q.tqhLast head := last_ne_last h h' hne
    exact hlasts

theorem remove_other (h : Holds q head (xs ++ e :: zs)) (h' : Holds q other ys) (hne : other ≠ head) :
    Holds (tailqRemove q head e) other ys := by
  have hhere : q.links.target (q.links.back e) = some e := h.path.target_back (by simp)
  have hback : ∀ y ∈ ys, q.links.back y ≠ q.links.back e := by
    refine h'.back_ne_of_target fun y hy heq => ?_
    rw [hhere] at heq
    cases heq
    exact h.disjoint h' hne.symm (by simp) hy
  have hlast : q.tqhLast other ≠ q.links.back e := h'.last_ne_back hhere
  have hnext := h.next_eq
  cases zs with
  | nil =>
      rw [remove_last hnext]
      have hkept := Tailqs.setLast_tqhLast_of_ne q hne (q.links.back e)
      exact (h'.setLast hne _).setTarget hback (hkept ▸ hlast) _
  | cons z zs =>
      have hze : z ≠ e := by
        rintro rfl
        exact (List.nodup_cons.mp (List.nodup_append.mp h.nodup).2.1).1 List.mem_cons_self
      have hzys : z ∉ ys := h.disjoint h' hne.symm (by simp)
      rw [remove_inner hnext hze]
      refine (h'.setPrev hzys _).setTarget (fun y hy => ?_) hlast _
      have hyz : y ≠ z := fun heq => hzys (heq ▸ hy)
      rw [Tailqs.setPrev_links, Links.setBack_back_of_ne _ hyz]
      exact hback y hy

omit [DecidableEq Head] in
theorem erase_eq (h : Holds q head (xs ++ e :: ys)) : (xs ++ e :: ys).erase e = xs ++ ys := by
  have hbefore : e ∉ xs := fun hmem => (List.nodup_append.mp h.nodup).2.2 e hmem e List.mem_cons_self rfl
  rw [List.erase_append_right _ hbefore, List.erase_cons_head]

theorem erase (h : Holds q head xs) (he : e ∈ xs) : Holds (tailqRemove q head e) head (xs.erase e) := by
  obtain ⟨before, behind, rfl⟩ := List.append_of_mem he
  rw [h.erase_eq]
  exact h.remove

theorem erase_other (h : Holds q head xs) (he : e ∈ xs) (h' : Holds q other ys) (hne : other ≠ head) :
    Holds (tailqRemove q head e) other ys := by
  obtain ⟨before, behind, rfl⟩ := List.append_of_mem he
  exact h.remove_other h' hne

end Assignments

theorem unique (h : Holds q head xs) (h' : Holds q head ys) : xs = ys :=
  (Leads.root_unique next_injective (first_ne_next head) (first_ne_next head) h.path h'.path).2

end Holds

/-- A change of one queue that leaves another alone. -/
theorem holds_update [DecidableEq Head] {q : Tailqs Head Elm} {lists : Head → List Elm} {head other : Head}
    {xs : List Elm} (self : Holds q head xs) (elsewhere : other ≠ head → Holds q other (lists other)) :
    Holds q other (Function.update lists head xs other) := by
  by_cases hother : other = head
  · subst hother
    simpa using self
  · simpa [Function.update_of_ne hother] using elsewhere hother

/-! ### Loops -/

section Loops

variable {σ : Type*} {next : σ → Elm → Option Elm} {body : σ → Elm → σ × Bool} {I : σ → List Elm → Prop}
  {B : σ → Elm → Prop}

/-- How a loop ends: at the end of the list with the invariant, or at an element where its body breaks. -/
def Ends (I : σ → List Elm → Prop) (B : σ → Elm → Prop) (s : σ) : Option Elm → Prop
  | none => I s []
  | some x => B s x

/-- The rule for a loop that reads the next element before its body runs.  The invariant is about the state
    and about what is left of the list. -/
theorem foreachSafe_rule (hnext : ∀ s x xs, I s (x :: xs) → next s x = xs.head?)
    (hgo : ∀ s s' x xs, I s (x :: xs) → body s x = (s', false) → I s' xs)
    (hbreak : ∀ s s' x xs, I s (x :: xs) → body s x = (s', true) → B s' x) :
    ∀ {xs : List Elm} {s : σ} {rounds : Nat}, I s xs → xs.length ≤ rounds →
      ∃ s' var, foreachSafe next body rounds s xs.head? = some (s', var) ∧ Ends I B s' var := by
  intro xs
  induction xs with
  | nil =>
      intro s rounds hI _
      exact ⟨s, none, by simp [foreachSafe], hI⟩
  | cons x xs ih =>
      intro s rounds hI hlen
      obtain ⟨rounds, rfl⟩ : ∃ n, rounds = n + 1 :=
        Nat.exists_eq_add_one.mpr (Nat.lt_of_lt_of_le (by simp) hlen)
      simp only [List.length_cons, Nat.add_le_add_iff_right] at hlen
      simp only [List.head?_cons, foreachSafe]
      cases hbody : body s x with
      | mk s' broke =>
          cases broke with
          | true => exact ⟨s', some x, rfl, hbreak s s' x xs hI hbody⟩
          | false =>
              simp only [hnext s x xs hI]
              exact ih (hgo s s' x xs hI hbody) hlen

/-- The rule for a loop that reads the next element afterwards. -/
theorem foreach_rule (hnext : ∀ s s' x xs, I s (x :: xs) → body s x = (s', false) → next s' x = xs.head?)
    (hgo : ∀ s s' x xs, I s (x :: xs) → body s x = (s', false) → I s' xs)
    (hbreak : ∀ s s' x xs, I s (x :: xs) → body s x = (s', true) → B s' x) :
    ∀ {xs : List Elm} {s : σ} {rounds : Nat}, I s xs → xs.length ≤ rounds →
      ∃ s' var, foreach next body rounds s xs.head? = some (s', var) ∧ Ends I B s' var := by
  intro xs
  induction xs with
  | nil =>
      intro s rounds hI _
      exact ⟨s, none, by simp [foreach], hI⟩
  | cons x xs ih =>
      intro s rounds hI hlen
      obtain ⟨rounds, rfl⟩ : ∃ n, rounds = n + 1 :=
        Nat.exists_eq_add_one.mpr (Nat.lt_of_lt_of_le (by simp) hlen)
      simp only [List.length_cons, Nat.add_le_add_iff_right] at hlen
      simp only [List.head?_cons, foreach]
      cases hbody : body s x with
      | mk s' broke =>
          cases broke with
          | true => exact ⟨s', some x, rfl, hbreak s s' x xs hI hbody⟩
          | false =>
              simp only [hnext s s' x xs hI hbody]
              exact ih (hgo s s' x xs hI hbody) hlen

end Loops

/-! ### All queues at once -/

/-- The heads that have been initialised, and what is on their queues. -/
structure QueueLists (Head Elm : Type*) where
  live : Head → Bool
  lists : Head → List Elm

/-- The pointers hold the queues. -/
def QueueLists.HeldIn (s : QueueLists Head Elm) (q : Tailqs Head Elm) : Prop :=
  ∀ head, s.live head = true → Holds q head (s.lists head)

/-- The operations on queues that sched.c and rumpfiber.c use. -/
inductive QueueOp (Head Elm : Type*) where
  | init (head : Head)
  | insertHead (head : Head) (elm : Elm)
  | insertTail (head : Head) (elm : Elm)
  | remove (head : Head) (elm : Elm)
deriving DecidableEq, Repr

section Operations

variable [DecidableEq Head] [DecidableEq Elm]

def tailqStep (q : Tailqs Head Elm) : QueueOp Head Elm → Option (Tailqs Head Elm)
  | .init head => some (tailqInit q head)
  | .insertHead head elm => some (tailqInsertHead q head elm)
  | .insertTail head elm => some (tailqInsertTail q head elm)
  | .remove head elm => some (tailqRemove q head elm)

/-- What the operations are for. -/
def queueStep (s : QueueLists Head Elm) : QueueOp Head Elm → Option (QueueLists Head Elm)
  | .init head => some ⟨Function.update s.live head true, Function.update s.lists head []⟩
  | .insertHead head elm => some { s with lists := Function.update s.lists head (elm :: s.lists head) }
  | .insertTail head elm => some { s with lists := Function.update s.lists head (s.lists head ++ [elm]) }
  | .remove head elm => some { s with lists := Function.update s.lists head ((s.lists head).erase elm) }

/-- What the macros ask of their callers: an element that is put on a queue is on none, and one that is
    taken off is on the queue it is taken off. -/
def Proper (s : QueueLists Head Elm) : QueueOp Head Elm → Prop
  | .init _ => True
  | .insertHead head elm | .insertTail head elm =>
      s.live head = true ∧ ∀ other, s.live other = true → elm ∉ s.lists other
  | .remove head elm => s.live head = true ∧ elm ∈ s.lists head

namespace QueueLists.HeldIn

variable {s : QueueLists Head Elm} {q : Tailqs Head Elm} {head : Head} {e : Elm}

theorem init (h : s.HeldIn q) (head : Head) :
    QueueLists.HeldIn ⟨Function.update s.live head true, Function.update s.lists head []⟩
    (tailqInit q head) := by
  intro other hlive
  refine holds_update (.init q head) fun hne => ?_
  have hstill : s.live other = true := by simpa [Function.update_of_ne hne] using hlive
  exact (h other hstill).init_other hne

theorem insertHead (h : s.HeldIn q) (hlive : s.live head = true)
    (new : ∀ other, s.live other = true → e ∉ s.lists other) :
    QueueLists.HeldIn { s with lists := Function.update s.lists head (e :: s.lists head) }
      (tailqInsertHead q head e) := by
  intro other hother
  refine holds_update ((h head hlive).insertHead (new head hlive)) fun hne => ?_
  exact (h head hlive).insertHead_other (h other hother) hne (new other hother)

theorem insertTail (h : s.HeldIn q) (hlive : s.live head = true)
    (new : ∀ other, s.live other = true → e ∉ s.lists other) :
    QueueLists.HeldIn { s with lists := Function.update s.lists head (s.lists head ++ [e]) }
      (tailqInsertTail q head e) := by
  intro other hother
  refine holds_update ((h head hlive).insertTail (new head hlive)) fun hne => ?_
  exact (h head hlive).insertTail_other (h other hother) hne (new other hother)

theorem remove (h : s.HeldIn q) (hlive : s.live head = true) (he : e ∈ s.lists head) :
    QueueLists.HeldIn { s with lists := Function.update s.lists head ((s.lists head).erase e) }
      (tailqRemove q head e) := by
  intro other hother
  refine holds_update ((h head hlive).erase he) fun hne => ?_
  exact (h head hlive).erase_other he (h other hother) hne

theorem step (h : s.HeldIn q) {op : QueueOp Head Elm} (hproper : Proper s op) :
    Option.Rel QueueLists.HeldIn (queueStep s op) (tailqStep q op) := by
  cases op with
  | init head => exact .some (h.init head)
  | insertHead head e => exact .some (h.insertHead hproper.1 hproper.2)
  | insertTail head e => exact .some (h.insertTail hproper.1 hproper.2)
  | remove head e => exact .some (h.remove hproper.1 hproper.2)

end QueueLists.HeldIn

end Operations

/-- The pointers read as the queues: the first element, the test for an empty queue, and a loop, which meets
    each element once and in order.  No element is on two queues. -/
structure ReadsAs (q : Tailqs Head Elm) (s : QueueLists Head Elm) : Prop where
  first : ∀ head, s.live head = true → tailqFirst q head = (s.lists head).head?
  empty : ∀ head, s.live head = true → (tailqEmpty q head = true ↔ s.lists head = [])
  loop : ∀ head, s.live head = true →
    foreach (fun _ elm => tailqNext q elm) (fun seen elm => (seen ++ [elm], false)) (s.lists head).length []
      (tailqFirst q head) = some (s.lists head, none)
  once : ∀ head, s.live head = true → (s.lists head).Nodup
  apart : ∀ head other, s.live head = true → s.live other = true → head ≠ other →
    (s.lists head).Disjoint (s.lists other)

theorem Holds.loop {q : Tailqs Head Elm} {head : Head} {xs : List Elm} (h : Holds q head xs) :
    foreach (fun _ elm => tailqNext q elm) (fun seen elm => (seen ++ [elm], false)) xs.length []
        (tailqFirst q head) = some (xs, none) := by
  rw [h.first_eq]
  -- what has been seen and what is left make up the queue
  have hloop : ∃ seen var,
      foreach (fun _ elm => tailqNext q elm) (fun seen elm => (seen ++ [elm], false)) xs.length []
          xs.head? = some (seen, var) ∧
        Ends (fun seen rest => seen ++ rest = xs) (fun _ _ => False) seen var := by
    refine foreach_rule ?_ ?_ ?_ rfl le_rfl
    · rintro seen seen' x rest rfl -
      exact h.next_eq
    · rintro seen seen' x rest rfl hbody
      simp only [Prod.mk.injEq, and_true] at hbody
      simp [← hbody]
    · intro seen seen' x rest _ hbody
      simp at hbody
  obtain ⟨seen, var, hloop, hends⟩ := hloop
  cases var with
  | none =>
      have hseen : seen ++ [] = xs := hends
      rw [hloop, ← hseen, List.append_nil]
  | some x => exact hends.elim

theorem QueueLists.HeldIn.readsAs {q : Tailqs Head Elm} {s : QueueLists Head Elm} (h : s.HeldIn q) :
    ReadsAs q s where
  first := fun head hlive => (h head hlive).first_eq
  empty := fun head hlive => (h head hlive).empty_iff
  loop := fun head hlive => (h head hlive).loop
  once := fun head hlive => (h head hlive).nodup
  apart := fun head other hlive hother hne => (h head hlive).disjoint (h other hother) hne

/-- Over every sequence of operations, on any number of queues and elements, the pointers stay those of the
    lists. -/
theorem tailqs_refine_lists [DecidableEq Head] [DecidableEq Elm] {ops : List (QueueOp Head Elm)}
    {s s' : QueueLists Head Elm} {q : Tailqs Head Elm} (start : s.HeldIn q)
    (proper : Meets queueStep Proper s ops) (hrun : run queueStep s ops = some s') :
    ∃ q', run tailqStep q ops = some q' ∧ ReadsAs q' s' := by
  have hsim := run_simulation (fun s q op h hproper => QueueLists.HeldIn.step h hproper) start proper
  rw [hrun] at hsim
  obtain ⟨q', hq, hheld⟩ := rel_of_some hsim
  exact ⟨q', hq, hheld.readsAs⟩

/-- Two queues in memory that holds anything, and an element that moves from one to the other. -/
theorem tailqs_refine_lists_moved :
    ∃ q' : Tailqs Bool Nat, ∃ s' : QueueLists Bool Nat,
      run tailqStep ⟨⟨fun _ => some 7, fun _ => .next 9⟩, fun _ => .next 9⟩
        [.init true, .init false, .insertHead true 1, .insertTail true 2, .insertHead true 0,
          .remove true 1,
          .insertTail false 1] = some q' ∧
      ReadsAs q' s' ∧ s'.lists true = [0, 2] ∧ s'.lists false = [1] := by
  have hrun : run queueStep (⟨fun _ => false, fun _ => []⟩ : QueueLists Bool Nat)
      [.init true, .init false, .insertHead true 1, .insertTail true 2, .insertHead true 0, .remove true 1,
        .insertTail false 1] = some _ := rfl
  obtain ⟨q', hq, hreads⟩ := tailqs_refine_lists
    (q := ⟨⟨fun _ => some 7, fun _ => .next 9⟩, fun _ => .next 9⟩) (by simp [QueueLists.HeldIn])
    (by simp [Meets, queueStep, Proper]) hrun
  exact ⟨q', _, hq, hreads, rfl, rfl⟩

end RumpBaremetal
