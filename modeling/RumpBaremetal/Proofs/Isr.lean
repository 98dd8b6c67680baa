/-
Module: RumpBaremetal.Proofs.Isr
Layer: Proofs
Purpose: No interrupt is lost.  What `isr_todo` holds is compared with a record of the lines raised since
  the last copy; the mask of `splhigh` keeps the two together around the copy and around the check before
  the thread blocks.  A pass is followed line by line and handler by handler, and the idle thread is
  followed through the scheduler.
Trusted boundary: none (fully proved)
Main exports: lineSet, Served, Pending, PassesOk, IsrInv, IdleInv, NoInterruptLost, no_interrupt_lost
-/
import Mathlib.Data.Nat.Bitwise
import RumpBaremetal.Proofs.Alone
import RumpBaremetal.Proofs.Intr
import RumpBaremetal.Proofs.Memalloc

namespace RumpBaremetal

open StepSystem Sched

/-! ### Words as sets of lines -/

/-- The bit of line `i` is set. -/
def lineSet (word : UInt32) (i : Nat) : Prop := word &&& lineBit i ≠ 0

instance (word : UInt32) (i : Nat) : Decidable (lineSet word i) := inferInstanceAs (Decidable (_ ≠ _))

theorem lineSet_iff_testBit {word : UInt32} {i : Nat} (hi : i < 32) :
    lineSet word i ↔ word.toNat.testBit i = true := by
  have hzero : word &&& lineBit i = 0 ↔ (word &&& lineBit i).toNat = 0 := UInt32.toNat_inj.symm
  rw [lineSet, ne_eq, hzero, UInt32.toNat_and, lineBit, one_shiftLeft_toNat hi, Nat.and_two_pow]
  cases word.toNat.testBit i with
  | true => simp
  | false => simp

theorem not_lineSet_zero (i : Nat) : ¬ lineSet 0 i := by
  simp [lineSet]

theorem lineSet_raise {word : UInt32} {i which : Nat} (hi : i < 32) (hwhich : which < 32) :
    lineSet (word ||| lineBit which) i ↔ i = which ∨ lineSet word i := by
  rw [lineSet_iff_testBit hi, lineSet_iff_testBit hi, UInt32.toNat_or, lineBit, one_shiftLeft_toNat hwhich,
    Nat.testBit_or, Nat.testBit_two_pow]
  simp only [Bool.or_eq_true, decide_eq_true_eq]
  rw [or_comm, eq_comm]

/-- The lines of a copy below `n`, in the order of the loop. -/
def linesBelow (isrcopy : UInt32) (n : Nat) : List Nat := (List.range n).filter fun i => lineSet isrcopy i

theorem linesBelow_succ (isrcopy : UInt32) (n : Nat) :
    linesBelow isrcopy (n + 1) = linesBelow isrcopy n ++ if lineSet isrcopy n then [n] else [] := by
  unfold linesBelow
  rw [List.range_succ, List.filter_append]
  by_cases hset : lineSet isrcopy n
  · simp [hset]
  · simp [hset]

variable {Wh Fun Arg : Type*} {w w' : Node Wh Fun Arg}

/-! ### What is pending -/

/-- Interrupts are masked. -/
def IsrPc.masked : IsrPc Fun Arg → Bool
  | .test | .copy | .clear _ | .lower _ | .block | .lowerIdle => true
  | _ => false

/-- Between the copy and the clear. -/
def IsrPc.clearing : IsrPc Fun Arg → Bool
  | .clear _ => true
  | _ => false

/-- Between the check and the end of the mask. -/
def IsrPc.idling : IsrPc Fun Arg → Bool
  | .block | .lowerIdle => true
  | _ => false

theorem IsrPc.not_special {pc : IsrPc Fun Arg} (h : pc.masked = false) :
    pc.clearing = false ∧ pc.idling = false := by
  cases pc <;> first | exact ⟨rfl, rfl⟩ | exact absurd h (by simp [IsrPc.masked])

theorem walkOn_unmasked (isrcopy : UInt32) (rv : Int32) (i : Nat) (rest : List (IntrHand Fun Arg)) :
    (walkOn isrcopy rv i rest).masked = false := by
  cases rest <;> rfl

/-- The word and the record of the lines raised since the last copy. -/
structure Pending (pc : IsrPc Fun Arg) (isrTodo : UInt32) (raised : List Nat) : Prop where
  waits : ∀ i < 32, i ∈ raised → lineSet isrTodo i
  /-- Before it is cleared, the word still holds the lines that were copied. -/
  exact : pc.clearing = false → ∀ i < 32, lineSet isrTodo i → i ∈ raised
  none : pc.clearing = true → raised = []
  idle : pc.idling = true → isrTodo = 0

namespace Pending

variable {pc pc' : IsrPc Fun Arg} {isrTodo : UInt32} {raised : List Nat}

theorem raise (h : Pending pc isrTodo raised) (hopen : pc.masked = false) {which : Nat}
    (hwhich : which < 32) :
    Pending pc (isrTodo ||| lineBit which) (which :: raised) := by
  obtain ⟨hclearing, hidling⟩ := IsrPc.not_special hopen
  refine ⟨fun i hi hmem => ?_, fun _ i hi hset => ?_, ?_, ?_⟩
  · rw [lineSet_raise hi hwhich]
    exact (List.mem_cons.mp hmem).imp id (h.waits i hi)
  · rw [lineSet_raise hi hwhich] at hset
    exact List.mem_cons.mpr (hset.imp id (h.exact hclearing i hi))
  · simp [hclearing]
  · simp [hidling]

/-- Statements that leave the word alone. -/
theorem goto (h : Pending pc isrTodo raised) (hfrom : pc.clearing = false)
    (hclearing : pc'.clearing = false) (hidle : pc'.idling = true → isrTodo = 0) :
    Pending pc' isrTodo raised :=
  ⟨h.waits, fun _ => h.exact hfrom, by simp [hclearing], hidle⟩

theorem unmasked (h : Pending pc isrTodo raised) (hfrom : pc.clearing = false)
    (hopen : pc'.masked = false) :
    Pending pc' isrTodo raised := by
  obtain ⟨hclearing, hidling⟩ := IsrPc.not_special hopen
  exact h.goto hfrom hclearing (by simp [hidling])

/-- `spl0` keeps the record whether it panics or not. -/
theorem lowered (h : Pending w.pc w.isrTodo w.raised) (hfrom : w.pc.clearing = false)
    (hopen : pc.masked = false) :
    Pending (w.lower pc).pc (w.lower pc).isrTodo (w.lower pc).raised := by
  unfold Node.lower
  split
  · exact h.unmasked hfrom hopen
  · exact h

theorem isr (h : Pending w.pc w.isrTodo w.raised) (rv : Int32) :
    Pending (isrStep w rv).pc (isrStep w rv).isrTodo (isrStep w rv).raised := by
  have hkept := h
  cases hpc : w.pc with
  | test =>
      rw [hpc] at h
      simp only [isrStep, hpc]
      split
      · exact h.goto rfl rfl (by simp [IsrPc.idling])
      · rename_i hzero
        exact h.goto rfl rfl fun _ => not_not.mp hzero
  | copy =>
      simp only [isrStep, hpc]
      exact ⟨fun i _ hmem => absurd hmem List.not_mem_nil, by simp [IsrPc.clearing], fun _ => rfl,
        by simp [IsrPc.idling]⟩
  | clear isrcopy =>
      rw [hpc] at h
      simp only [isrStep, hpc, h.none rfl]
      exact ⟨fun i _ hmem => absurd hmem List.not_mem_nil,
        fun _ i _ hset => absurd hset (not_lineSet_zero i),
        fun _ => rfl, fun _ => rfl⟩
  | lower isrcopy =>
      simp only [isrStep, hpc]
      exact hkept.lowered (by simp [hpc, IsrPc.clearing]) rfl
  | line isrcopy last i =>
      rw [hpc] at h
      simp only [isrStep, hpc]
      split
      · split
        · exact h.unmasked rfl rfl
        · exact h.unmasked rfl rfl
      · exact h.unmasked rfl rfl
  | hypSchedule isrcopy last i =>
      rw [hpc] at h
      simp only [isrStep, hpc]
      exact h.unmasked rfl (walkOn_unmasked _ _ _ _)
  | handler isrcopy i ih rest =>
      rw [hpc] at h
      simp only [isrStep, hpc]
      refine h.unmasked rfl ?_
      split
      · rfl
      · exact walkOn_unmasked _ _ _ _
  | ack last =>
      rw [hpc] at h
      simp only [isrStep, hpc]
      refine h.unmasked rfl ?_
      split <;> rfl
  | block =>
      rw [hpc] at h
      simp only [isrStep, hpc]
      exact h.goto rfl rfl fun _ => h.idle rfl
  | lowerIdle =>
      simp only [isrStep, hpc]
      exact hkept.lowered (by simp [hpc, IsrPc.clearing]) rfl
  | splhigh =>
      rw [hpc] at h
      simp only [isrStep, hpc]
      exact h.goto rfl rfl (by simp [IsrPc.idling])
  | _ =>
      rw [hpc] at h
      simp only [isrStep, hpc]
      exact h.unmasked rfl rfl

end Pending

/-! ### Passes -/

/-- The handlers were called in the order of the list, up to the first that did not return zero. -/
def Served : List (IntrHand Fun Arg) → List (IntrHand Fun Arg × Int32) → Prop
  | [], calls => calls = []
  | ih :: rest, calls =>
      ∃ rv later, calls = (ih, rv) :: later ∧ if rv ≠ 0 then later = [] else Served rest later

/-- A walk has come to where `rest` is left of the list, and no handler has claimed the interrupt. -/
structure WalkAt (k : Walk Fun Arg) (rest : List (IntrHand Fun Arg)) : Prop where
  listed : k.listed = k.called.reverse.map Prod.fst ++ rest
  zero : ∀ c ∈ k.called.reverse, c.2 = 0

theorem served_of_zero {calls later : List (IntrHand Fun Arg × Int32)} {rest : List (IntrHand Fun Arg)}
    (hzero : ∀ c ∈ calls, c.2 = 0) (hlater : Served rest later) :
    Served (calls.map Prod.fst ++ rest) (calls ++ later) := by
  induction calls with
  | nil => exact hlater
  | cons c calls ih =>
      obtain ⟨hfirst, hcalls⟩ := List.forall_mem_cons.mp hzero
      refine ⟨c.2, calls ++ later, rfl, ?_⟩
      rw [if_neg (not_not.mpr hfirst)]
      exact ih hcalls

theorem WalkAt.done {k : Walk Fun Arg} (h : WalkAt k []) : Served k.listed k.called.reverse := by
  have hnone : Served ([] : List (IntrHand Fun Arg)) [] := rfl
  have hserved := served_of_zero h.zero hnone
  rw [← h.listed, List.append_nil] at hserved
  exact hserved

theorem WalkAt.claimed {k : Walk Fun Arg} {ih : IntrHand Fun Arg} {rest : List (IntrHand Fun Arg)}
    (h : WalkAt k (ih :: rest)) {rv : Int32} (hrv : rv ≠ 0) :
    Served k.listed ((ih, rv) :: k.called).reverse := by
  have hlast : Served (ih :: rest) [(ih, rv)] := ⟨rv, [], rfl, by rw [if_pos hrv]⟩
  have hserved := served_of_zero h.zero hlast
  rw [← h.listed] at hserved
  rw [List.reverse_cons]
  exact hserved

theorem WalkAt.next {k : Walk Fun Arg} {ih : IntrHand Fun Arg} {rest : List (IntrHand Fun Arg)}
    (h : WalkAt k (ih :: rest)) : WalkAt { k with called := (ih, 0) :: k.called } rest where
  listed := by
    rw [List.reverse_cons, List.map_append, List.append_assoc]
    exact h.listed
  zero := by
    intro c hc
    rw [List.reverse_cons, List.mem_append, List.mem_singleton] at hc
    rcases hc with hc | rfl
    · exact h.zero c hc
    · rfl

/-- The pass has dealt with the lines below `n`, and with no other. -/
structure PassUpTo (n : Nat) (p : Pass Fun Arg) : Prop where
  lines : p.walks.reverse.map (·.line) = linesBelow p.isrcopy n
  served : ∀ k ∈ p.walks, Served k.listed k.called.reverse

theorem PassUpTo.skip {n : Nat} {p : Pass Fun Arg} (h : PassUpTo n p) (hline : ¬ lineSet p.isrcopy n) :
    PassUpTo (n + 1) p where
  lines := by
    rw [h.lines, linesBelow_succ, if_neg hline, List.append_nil]
  served := h.served

theorem PassUpTo.add {n : Nat} {p : Pass Fun Arg} {k : Walk Fun Arg} {ks : List (Walk Fun Arg)}
    (h : PassUpTo n { p with walks := ks }) (hwalks : p.walks = k :: ks) (hline : k.line = n)
    (hset : lineSet p.isrcopy n) (hserved : Served k.listed k.called.reverse) : PassUpTo (n + 1) p where
  lines := by
    have hlines := h.lines
    rw [hwalks, List.reverse_cons, List.map_append, hlines, linesBelow_succ, if_pos hset, ← hline]
    rfl
  served := by
    rw [hwalks]
    exact List.forall_mem_cons.mpr ⟨hserved, h.served⟩

/-- What has been done of the pass that is going on. -/
def Going : IsrPc Fun Arg → Pass Fun Arg → Prop
  | .clear isrcopy, p | .lower isrcopy, p => p.isrcopy = isrcopy ∧ PassUpTo 0 p
  | .line isrcopy _ i, p => p.isrcopy = isrcopy ∧ i ≤ 32 ∧ PassUpTo i p
  | .hypSchedule isrcopy _ i, p => p.isrcopy = isrcopy ∧ i < 32 ∧ lineSet isrcopy i ∧ PassUpTo i p
  | .handler isrcopy i ih rest, p =>
      p.isrcopy = isrcopy ∧ i < 32 ∧ lineSet isrcopy i ∧ ∃ k ks, p.walks = k :: ks ∧ k.line = i ∧
        WalkAt k (ih :: rest) ∧ PassUpTo i { p with walks := ks }
  | .hypUnschedule isrcopy _ i, p => p.isrcopy = isrcopy ∧ i < 32 ∧ PassUpTo (i + 1) p
  | .ack _, p => PassUpTo 32 p
  | _, _ => False

/-- No pass is going on. -/
def IsrPc.resting : IsrPc Fun Arg → Bool
  | .hypSchedule0 | .newlwp | .hypUnschedule0 | .splhigh | .test | .copy | .stray => true
  | .block | .lowerIdle | .callSched | .idle => true
  | _ => false

def PassDone (p : Pass Fun Arg) : Prop := p.finished = true ∧ PassUpTo 32 p

/-- All passes are complete, but for the latest if the thread is in the middle of it. -/
inductive PassesOk (pc : IsrPc Fun Arg) : List (Pass Fun Arg) → Prop where
  | rest {ps : List (Pass Fun Arg)} (resting : pc.resting = true) (done : ∀ p ∈ ps, PassDone p) :
      PassesOk pc ps
  | going {p : Pass Fun Arg} {ps : List (Pass Fun Arg)} (unfinished : p.finished = false)
      (going : Going pc p)
      (done : ∀ q ∈ ps, PassDone q) : PassesOk pc (p :: ps)

theorem Going.not_resting {pc : IsrPc Fun Arg} {p : Pass Fun Arg} (h : Going pc p) :
    pc.resting = false := by
  cases pc <;> first | rfl | exact h.elim

namespace PassesOk

variable {pc pc' : IsrPc Fun Arg} {ps : List (Pass Fun Arg)}

theorem done_of_resting (h : PassesOk pc ps) (hrest : pc.resting = true) : ∀ p ∈ ps, PassDone p := by
  cases h with
  | rest _ done => exact done
  | going _ going _ => exact absurd hrest (by simp [going.not_resting])

theorem latest (h : PassesOk pc ps) (hrest : pc.resting = false) :
    ∃ p older, ps = p :: older ∧ p.finished = false ∧ Going pc p ∧ ∀ q ∈ older, PassDone q := by
  cases h with
  | rest resting _ => exact absurd hrest (by simp [resting])
  | going unfinished going done => exact ⟨_, _, rfl, unfinished, going, done⟩

theorem between (h : PassesOk pc ps) (hrest : pc.resting = true) (hrest' : pc'.resting = true) :
    PassesOk pc' ps :=
  .rest hrest' (h.done_of_resting hrest)

/-- The next handler of a walk, or the end of the walk. -/
theorem walkOn {isrcopy : UInt32} {i : Nat} (rv : Int32) {rest : List (IntrHand Fun Arg)}
    {p : Pass Fun Arg} {older : List (Pass Fun Arg)} {k : Walk Fun Arg} {ks : List (Walk Fun Arg)}
    (unfinished : p.finished = false) (hcopy : p.isrcopy = isrcopy) (hi : i < 32)
    (hset : lineSet isrcopy i) (hwalks : p.walks = k :: ks) (hline : k.line = i) (hwalk : WalkAt k rest)
    (hbelow : PassUpTo i { p with walks := ks }) (hdone : ∀ q ∈ older, PassDone q) :
    PassesOk (walkOn isrcopy rv i rest) (p :: older) := by
  cases rest with
  | nil => exact .going unfinished ⟨hcopy, hi, hbelow.add hwalks hline (hcopy ▸ hset) hwalk.done⟩ hdone
  | cons ih rest => exact .going unfinished ⟨hcopy, hi, hset, k, ks, hwalks, hline, hwalk, hbelow⟩ hdone

theorem isr (h : PassesOk w.pc w.passes) (rv : Int32) :
    PassesOk (isrStep w rv).pc (isrStep w rv).passes := by
  have hkept := h
  cases hpc : w.pc with
  | test =>
      rw [hpc] at h
      simp only [isrStep, hpc]
      split
      · exact h.between rfl rfl
      · exact h.between rfl rfl
  | copy =>
      rw [hpc] at h
      simp only [isrStep, hpc]
      exact .going rfl ⟨rfl, rfl, fun k hk => absurd hk List.not_mem_nil⟩ (h.done_of_resting rfl)
  | clear isrcopy =>
      rw [hpc] at h
      simp only [isrStep, hpc]
      obtain ⟨p, older, heq, hunfinished, hgoing, hdone⟩ := h.latest rfl
      rw [heq]
      exact .going hunfinished hgoing hdone
  | lower isrcopy =>
      simp only [isrStep, hpc]
      unfold Node.lower
      split
      · rw [hpc] at h
        obtain ⟨p, older, heq, hunfinished, ⟨hcopy, hzero⟩, hdone⟩ := h.latest rfl
        simp only [Node.setDepth, heq]
        exact .going hunfinished ⟨hcopy, by decide, hzero⟩ hdone
      · exact hkept
  | line isrcopy last i =>
      rw [hpc] at h
      simp only [isrStep, hpc]
      obtain ⟨p, older, heq, hunfinished, ⟨hcopy, hi, hbelow⟩, hdone⟩ := h.latest rfl
      rw [heq]
      split
      · rename_i hlt
        split
        · rename_i hclear
          have hline : ¬ lineSet p.isrcopy i := by
            rw [hcopy]
            exact not_not.mpr hclear
          exact .going hunfinished ⟨hcopy, hlt, hbelow.skip hline⟩ hdone
        · rename_i hset
          exact .going hunfinished ⟨hcopy, hlt, hset, hbelow⟩ hdone
      · obtain rfl : i = 32 := by omega
        exact .going hunfinished hbelow hdone
  | hypSchedule isrcopy last i =>
      rw [hpc] at h
      simp only [isrStep, hpc]
      obtain ⟨p, older, heq, hunfinished, ⟨hcopy, hi, hset, hbelow⟩, hdone⟩ := h.latest rfl
      simp only [Node.notePass, heq, List.modifyHead_cons]
      exact walkOn last hunfinished hcopy hi hset rfl rfl ⟨rfl, fun c hc => absurd hc List.not_mem_nil⟩
        hbelow hdone
  | handler isrcopy i ih rest =>
      rw [hpc] at h
      simp only [isrStep, hpc]
      obtain ⟨p, older, heq, hunfinished, ⟨hcopy, hi, hset, k, ks, hwalks, hline, hwalk, hbelow⟩, hdone⟩ :=
        h.latest rfl
      simp only [Node.notePass, heq, List.modifyHead_cons, hwalks]
      by_cases hrv : rv = 0
      · subst hrv
        simp only [ne_eq, not_true_eq_false, if_false]
        exact walkOn 0 hunfinished hcopy hi hset rfl hline hwalk.next hbelow hdone
      · simp only [ne_eq, hrv, not_false_eq_true, if_true]
        refine .going hunfinished ⟨hcopy, hi, ?_⟩ hdone
        exact PassUpTo.add hbelow rfl hline (hcopy ▸ hset) (hwalk.claimed hrv)
  | hypUnschedule isrcopy last i =>
      rw [hpc] at h
      simp only [isrStep, hpc]
      obtain ⟨p, older, heq, hunfinished, ⟨hcopy, hi, hbelow⟩, hdone⟩ := h.latest rfl
      rw [heq]
      exact .going hunfinished ⟨hcopy, hi, hbelow⟩ hdone
  | ack last =>
      rw [hpc] at h
      simp only [isrStep, hpc]
      obtain ⟨p, older, heq, -, hall, hdone⟩ := h.latest rfl
      simp only [Node.notePass, heq, List.modifyHead_cons]
      refine .rest ?_ (List.forall_mem_cons.mpr ⟨⟨rfl, hall.lines, hall.served⟩, hdone⟩)
      split <;> rfl
  | lowerIdle =>
      simp only [isrStep, hpc]
      unfold Node.lower
      split
      · rw [hpc] at h
        exact h.between rfl rfl
      · exact hkept
  | _ =>
      rw [hpc] at h
      simp only [isrStep, hpc]
      exact h.between rfl rfl

end PassesOk

/-! ### The record of the passes -/

theorem forall_modifyHead {α : Type*} {P : α → Prop} {f : α → α} {l : List α} (hl : ∀ a ∈ l, P a)
    (hf : ∀ a, P a → P (f a)) : ∀ a ∈ l.modifyHead f, P a := by
  cases l with
  | nil => exact hl
  | cons a l =>
      obtain ⟨hhead, htail⟩ := List.forall_mem_cons.mp hl
      exact List.forall_mem_cons.mpr ⟨hf a hhead, htail⟩

/-- The record of a pass grows by walks over the lists as they stand. -/
structure PassGrows (isrIh : Nat → List (IntrHand Fun Arg)) (p p' : Pass Fun Arg) : Prop where
  raised : p'.raised = p.raised
  isrcopy : p'.isrcopy = p.isrcopy
  walks : ∀ k ∈ p'.walks, k.listed = isrIh k.line ∨ ∃ k' ∈ p.walks, k.line = k'.line ∧ k.listed = k'.listed

theorem PassGrows.of_walks {isrIh : Nat → List (IntrHand Fun Arg)} {p p' : Pass Fun Arg}
    (hraised : p'.raised = p.raised) (hcopy : p'.isrcopy = p.isrcopy) (hwalks : p'.walks = p.walks) :
    PassGrows isrIh p p' :=
  ⟨hraised, hcopy, fun k hk => .inr ⟨k, hwalks ▸ hk, rfl, rfl⟩⟩

theorem PassGrows.of_modifyHead {isrIh : Nat → List (IntrHand Fun Arg)} {p : Pass Fun Arg}
    {f : Walk Fun Arg → Walk Fun Arg} (hf : ∀ k, (f k).line = k.line ∧ (f k).listed = k.listed) :
    PassGrows isrIh p { p with walks := p.walks.modifyHead f } := by
  refine ⟨rfl, rfl, forall_modifyHead (fun k hk => .inr ⟨k, hk, rfl, rfl⟩) fun k hk => ?_⟩
  obtain ⟨hline, hlisted⟩ := hf k
  rw [hline, hlisted]
  exact hk

/-- What a statement of `isr` does to the record. -/
theorem isrStep_record (w : Node Wh Fun Arg) (rv : Int32) :
    (w.pc = .copy ∧ (isrStep w rv).raised = [] ∧
      (isrStep w rv).passes = ⟨w.raised, w.isrTodo, [], false⟩ :: w.passes) ∨
    ((isrStep w rv).raised = w.raised ∧
      ∃ f, (isrStep w rv).passes = w.passes.modifyHead f ∧ ∀ p, PassGrows w.intr.isrIh p (f p)) := by
  have hsame : ∀ {w' : Node Wh Fun Arg}, w'.raised = w.raised → w'.passes = w.passes →
      w'.raised = w.raised ∧ ∃ f, w'.passes = w.passes.modifyHead f ∧
        ∀ p, PassGrows w.intr.isrIh p (f p) := by
    intro w' hraised hpasses
    refine ⟨hraised, id, ?_, fun p => .of_walks rfl rfl rfl⟩
    rw [hpasses, List.modifyHead_id, id]
  have hlower : ∀ pc, (w.lower pc).raised = w.raised ∧ (w.lower pc).passes = w.passes := by
    intro pc
    unfold Node.lower
    split <;> exact ⟨rfl, rfl⟩
  cases hpc : w.pc with
  | copy => exact .inl ⟨rfl, by simp only [isrStep, hpc], by simp only [isrStep, hpc]⟩
  | test =>
      refine .inr (hsame ?_ ?_) <;>
      · simp only [isrStep, hpc]
        split <;> rfl
  | line isrcopy last i =>
      refine .inr (hsame ?_ ?_) <;>
      · simp only [isrStep, hpc]
        repeat' split
        all_goals rfl
  | lower isrcopy =>
      simp only [isrStep, hpc]
      exact .inr (hsame (hlower _).1 (hlower _).2)
  | lowerIdle =>
      simp only [isrStep, hpc]
      exact .inr (hsame (hlower _).1 (hlower _).2)
  | hypSchedule isrcopy last i =>
      simp only [isrStep, hpc]
      refine .inr ⟨rfl, _, rfl, fun p => ⟨rfl, rfl, List.forall_mem_cons.mpr ⟨.inl rfl, ?_⟩⟩⟩
      exact fun k hk => .inr ⟨k, hk, rfl, rfl⟩
  | handler isrcopy i ih rest =>
      simp only [isrStep, hpc]
      exact .inr ⟨rfl, _, rfl, fun p => .of_modifyHead fun k => ⟨rfl, rfl⟩⟩
  | ack last =>
      simp only [isrStep, hpc]
      exact .inr ⟨rfl, _, rfl, fun p => .of_walks rfl rfl rfl⟩
  | _ =>
      exact .inr (hsame (by simp only [isrStep, hpc, Node.setDepth, Node.does])
        (by simp only [isrStep, hpc, Node.setDepth, Node.does]))

/-! ### The invariant -/

structure IsrInv (w : Node Wh Fun Arg) : Prop where
  depth : w.intr.board.splDepth = if w.pc.masked then 1 else 0
  pending : Pending w.pc w.isrTodo w.raised
  copied : ∀ p ∈ w.passes, ∀ i < 32, lineSet p.isrcopy i ↔ i ∈ p.raised
  passes : PassesOk w.pc w.passes
  listed : ∀ p ∈ w.passes, ∀ k ∈ p.walks, k.listed <:+ w.intr.isrIh k.line

theorem outbs_splDepth (writes : List (UInt16 × UInt8)) :
    ∀ b : Board, (b.outbs writes).splDepth = b.splDepth := by
  induction writes with
  | nil => exact fun b => rfl
  | cons write writes ih => exact fun b => ih _

theorem isrStep_depth (h : w.intr.board.splDepth = if w.pc.masked then 1 else 0) (rv : Int32) :
    (isrStep w rv).intr.board.splDepth = if (isrStep w rv).pc.masked then 1 else 0 := by
  cases hpc : w.pc with
  | test =>
      rw [hpc] at h
      simp only [isrStep, hpc]
      split <;> exact h
  | line isrcopy last i =>
      rw [hpc] at h
      simp only [isrStep, hpc]
      split
      · split <;> exact h
      · exact h
  | lower isrcopy =>
      have hone : spl0 w.intr.board.splDepth = some 0 := by
        rw [h, hpc]
        rfl
      simp only [isrStep, hpc, Node.lower, hone]
      rfl
  | lowerIdle =>
      have hone : spl0 w.intr.board.splDepth = some 0 := by
        rw [h, hpc]
        rfl
      simp only [isrStep, hpc, Node.lower, hone]
      rfl
  | hypSchedule isrcopy last i =>
      rw [hpc] at h
      simp only [isrStep, hpc, walkOn_unmasked]
      exact h
  | handler isrcopy i ih rest =>
      rw [hpc] at h
      simp only [isrStep, hpc]
      split
      · exact h
      · rw [walkOn_unmasked]
        exact h
  | ack last =>
      rw [hpc] at h
      simp only [isrStep, hpc, outbs_splDepth]
      split <;> exact h
  | splhigh =>
      rw [hpc] at h
      simp only [isrStep, hpc, Node.setDepth, h]
      rfl
  | _ =>
      rw [hpc] at h
      simp only [isrStep, hpc]
      exact h

theorem isrStep_isrIh (w : Node Wh Fun Arg) (rv : Int32) : (isrStep w rv).intr.isrIh = w.intr.isrIh := by
  have hlower : ∀ pc, (w.lower pc).intr.isrIh = w.intr.isrIh := by
    intro pc
    unfold Node.lower
    split <;> rfl
  cases hpc : w.pc with
  | test =>
      simp only [isrStep, hpc]
      split <;> rfl
  | line isrcopy last i =>
      simp only [isrStep, hpc]
      split
      · split <;> rfl
      · rfl
  | lower isrcopy => simp only [isrStep, hpc, hlower]
  | lowerIdle => simp only [isrStep, hpc, hlower]
  | _ => simp only [isrStep, hpc, Node.setDepth, Node.notePass, Node.does]

theorem IsrInv.isr (h : IsrInv w) (rv : Int32) : IsrInv (isrStep w rv) := by
  have hih := isrStep_isrIh w rv
  refine ⟨isrStep_depth h.depth rv, h.pending.isr rv, ?_, h.passes.isr rv, ?_⟩
  · rcases isrStep_record w rv with ⟨hpc, -, hpasses⟩ | ⟨-, f, hpasses, hf⟩
    · rw [hpasses]
      refine List.forall_mem_cons.mpr ⟨fun i hi => ⟨fun hset => ?_, h.pending.waits i hi⟩, h.copied⟩
      exact h.pending.exact (by rw [hpc]; rfl) i hi hset
    · rw [hpasses]
      refine forall_modifyHead h.copied fun p hp => ?_
      rw [(hf p).isrcopy, (hf p).raised]
      exact hp
  · rw [hih]
    rcases isrStep_record w rv with ⟨-, -, hpasses⟩ | ⟨-, f, hpasses, hf⟩
    · rw [hpasses]
      exact List.forall_mem_cons.mpr ⟨fun k hk => absurd hk List.not_mem_nil, h.listed⟩
    · rw [hpasses]
      refine forall_modifyHead h.listed fun p hp k hk => ?_
      rcases (hf p).walks k hk with heq | ⟨k', hk', hline, hlisted⟩
      · rw [heq]
      · rw [hline, hlisted]
        exact hp k' hk'

theorem IsrInv.raise (h : IsrInv w) (hopen : w.intr.board.splDepth = 0) {which : Nat}
    (hwhich : which < 32) :
    IsrInv (bmkIsr w which) := by
  have hunmasked : w.pc.masked = false := by
    have hdepth := h.depth
    rw [hopen] at hdepth
    by_contra hmasked
    simp [hmasked] at hdepth
  exact ⟨h.depth, h.pending.raise hunmasked hwhich, h.copied, h.passes, h.listed⟩

/-- The events that come neither from a device nor from `isr`. -/
def NodeEvent.elsewhere : NodeEvent Wh Fun Arg → Bool
  | .irq _ | .isr _ => false
  | _ => true

/-- The side of the interrupt thread is as it was, but for handlers registered in between. -/
structure SameIsr (w w' : Node Wh Fun Arg) : Prop where
  pc : w'.pc = w.pc
  isrTodo : w'.isrTodo = w.isrTodo
  raised : w'.raised = w.raised
  passes : w'.passes = w.passes
  depth : w'.intr.board.splDepth = w.intr.board.splDepth
  isrIh : ∀ i, w.intr.isrIh i <:+ w'.intr.isrIh i

theorem SameIsr.of_intr (hpc : w'.pc = w.pc) (htodo : w'.isrTodo = w.isrTodo)
    (hraised : w'.raised = w.raised) (hpasses : w'.passes = w.passes) (hintr : w'.intr = w.intr) :
    SameIsr w w' :=
  ⟨hpc, htodo, hraised, hpasses, by rw [hintr], fun i => by rw [hintr]⟩

theorem netinit_sameIsr (s : Stubs) (w : Node Wh Fun Arg) [DecidableEq Wh] (func : Fun) (arg : Arg)
    (intr : Int32) (found : Bool) : SameIsr w (nodeEffect s w (.netinit func arg intr found)) := by
  simp only [nodeEffect]
  rcases bmkIsrNetinit_cases s w.intr func arg intr found with ⟨heq, -⟩ | ⟨heq, -⟩ |
    ⟨n, routine, -, -, -, heq⟩
  · rw [heq]
    exact .of_intr rfl rfl rfl rfl rfl
  · rw [heq]
    exact ⟨rfl, rfl, rfl, rfl, rfl, fun i => List.suffix_rfl⟩
  · rw [heq]
    refine ⟨rfl, rfl, rfl, rfl, rfl, fun i => ?_⟩
    by_cases hi : i = n
    · subst hi
      simp only [Function.update_self]
      exact List.suffix_cons _ _
    · simp only [Function.update_of_ne hi]
      exact List.suffix_rfl

variable [DecidableEq Wh] {s : Stubs} {e : NodeEvent Wh Fun Arg}

theorem advance_sameIsr (w : Node Wh Fun Arg) : SameIsr w (advance w) := by
  simp only [advance]
  split
  · exact .of_intr rfl rfl rfl rfl rfl
  · split <;> exact .of_intr rfl rfl rfl rfl rfl
  · exact .of_intr rfl rfl rfl rfl rfl
  · exact .of_intr rfl rfl rfl rfl rfl
  · exact .of_intr rfl rfl rfl rfl rfl
  · exact .of_intr rfl rfl rfl rfl rfl

theorem elsewhere_sameIsr (s : Stubs) (w : Node Wh Fun Arg) (he : e.elsewhere = true) :
    SameIsr w (nodeEffect s w e) := by
  cases e with
  | irq which => exact absurd he (by simp [NodeEvent.elsewhere])
  | isr rv => exact absurd he (by simp [NodeEvent.elsewhere])
  | advance => exact advance_sameIsr w
  | netinit func arg intr found => exact netinit_sameIsr s w func arg intr found
  | _ => exact .of_intr rfl rfl rfl rfl rfl

omit [DecidableEq Wh] in
theorem IsrInv.congr (h : IsrInv w) (hsame : SameIsr w w') : IsrInv w' := by
  refine ⟨?_, ?_, ?_, ?_, ?_⟩
  · rw [hsame.depth, hsame.pc]
    exact h.depth
  · rw [hsame.pc, hsame.isrTodo, hsame.raised]
    exact h.pending
  · rw [hsame.passes]
    exact h.copied
  · rw [hsame.pc, hsame.passes]
    exact h.passes
  · rw [hsame.passes]
    exact fun p hp k hk => (h.listed p hp k hk).trans (hsame.isrIh k.line)

theorem IsrInv.step (h : IsrInv w) (hstep : nodeStep s w e = some w') : IsrInv w' := by
  obtain ⟨-, henabled, rfl⟩ := nodeStep_inv hstep
  by_cases he : e.elsewhere = true
  · exact h.congr (elsewhere_sameIsr s w he)
  · cases e with
    | irq which =>
        simp only [nodeEnabled, Bool.and_eq_true, decide_eq_true_eq, beq_iff_eq] at henabled
        exact h.raise henabled.2 henabled.1
    | isr rv => exact h.isr rv
    | _ => exact absurd rfl he

omit [DecidableEq Wh] in
theorem IsrInv.start {intr : IntrWorld Fun Arg} (hdepth : intr.board.splDepth = 0) (clock : Nat) :
    IsrInv (Node.start intr clock : Node Wh Fun Arg) where
  depth := hdepth
  pending :=
    ⟨fun _ _ hmem => absurd hmem List.not_mem_nil, fun _ i _ hset => absurd hset (not_lineSet_zero i),
      fun _ => rfl, fun _ => rfl⟩
  copied := fun _ hp => absurd hp List.not_mem_nil
  passes := .rest rfl fun _ hp => absurd hp List.not_mem_nil
  listed := fun _ hp => absurd hp List.not_mem_nil

/-! ### Every interrupt is in the record -/

/-- The lines of the interrupts that have arrived, the latest first. -/
def allRaised (w : Node Wh Fun Arg) : List Nat := w.raised ++ w.passes.flatMap (·.raised)

/-- The lines of the interrupts in a run. -/
def irqs (events : List (NodeEvent Wh Fun Arg)) : List Nat :=
  events.filterMap fun
    | .irq which => some which
    | _ => none

omit [DecidableEq Wh] in
theorem isrStep_allRaised (w : Node Wh Fun Arg) (rv : Int32) : allRaised (isrStep w rv) = allRaised w := by
  unfold allRaised
  rcases isrStep_record w rv with ⟨-, hraised, hpasses⟩ | ⟨hraised, f, hpasses, hf⟩
  · rw [hraised, hpasses]
    rfl
  · rw [hraised, hpasses]
    cases w.passes with
    | nil => rfl
    | cons p older => simp only [List.modifyHead_cons, List.flatMap_cons, (hf p).raised]

theorem allRaised_run {events : List (NodeEvent Wh Fun Arg)} :
    ∀ {w : Node Wh Fun Arg}, run (nodeStep s) w events = some w' →
      allRaised w' = (irqs events).reverse ++ allRaised w := by
  induction events with
  | nil =>
      intro w hrun
      obtain rfl := Option.some.inj hrun
      rfl
  | cons e events ih =>
      intro w hrun
      obtain ⟨w₁, hstep, hrest⟩ := run_cons_inv hrun
      rw [ih hrest]
      obtain ⟨-, -, rfl⟩ := nodeStep_inv hstep
      by_cases he : e.elsewhere = true
      · have hsame := elsewhere_sameIsr s w he
        have hirqs : irqs (e :: events) = irqs events := by
          cases e <;> first | rfl | exact absurd he (by simp [NodeEvent.elsewhere])
        rw [hirqs, allRaised, hsame.raised, hsame.passes, allRaised]
      · cases e with
        | irq which => simp [irqs, nodeEffect, bmkIsr, allRaised, Node.does]
        | isr rv =>
            rw [show nodeEffect s w (.isr rv) = isrStep w rv from rfl, isrStep_allRaised]
            rfl
        | _ => exact absurd rfl he

/-! ### The idle thread -/

/-- The interrupt thread between the end of the mask and its return from `bmk_sched`. -/
def IsrPc.resigned : IsrPc Fun Arg → Bool
  | .callSched | .idle => true
  | _ => false

theorem IsrPc.inside_of_resigned {pc : IsrPc Fun Arg} (h : pc.resigned = true) : pc.outside = false := by
  cases pc <;> first | rfl | exact absurd h (by simp [IsrPc.resigned])

structure IdleInv (w : Node Wh Fun Arg) : Prop where
  sched : Detached w.sched ∧ isrThread < w.sched.created
  noCall : w.pc.outside = false → w.call isrThread = none
  /-- In its own code the thread runs, or it is inside `bmk_sched` for lack of work. -/
  frame : w.pc.outside = false →
    w.sched.frame isrThread = .user ∨ w.pc = .idle ∧ ∃ prev, w.sched.frame isrThread = .sched prev .other
  awake : w.pc.resigned = true → w.isrTodo ≠ 0 → isRunnable w.sched.tcb isrThread = true

namespace IdleInv

omit [DecidableEq Wh] in
/-- Events elsewhere, which leave the interrupt thread inside `bmk_sched` or bring it back. -/
theorem keep (h : IdleInv w) (hsame : SameIsr w w')
    (hsched : Detached w'.sched ∧ isrThread < w'.sched.created)
    (hmine : w.pc.outside = false → w'.call isrThread = none ∧
      (w'.sched.frame isrThread = w.sched.frame isrThread ∨ w'.sched.frame isrThread = .user) ∧
      (isRunnable w.sched.tcb isrThread = true → isRunnable w'.sched.tcb isrThread = true)) :
    IdleInv w' := by
  refine ⟨hsched, fun hout => ?_, fun hout => ?_, fun hresigned htodo => ?_⟩
  · rw [hsame.pc] at hout
    exact (hmine hout).1
  · rw [hsame.pc] at hout ⊢
    rcases (hmine hout).2.1 with hframe | huser
    · rw [hframe]
      exact h.frame hout
    · exact .inl huser
  · rw [hsame.pc] at hresigned
    rw [hsame.isrTodo] at htodo
    exact (hmine (IsrPc.inside_of_resigned hresigned)).2.2 (h.awake hresigned htodo)

omit [DecidableEq Wh] in
/-- Where the thread comes from when it gives up the processor. -/
theorem resigned_from {rv : Int32} (h : (isrStep w rv).pc.resigned = true) :
    w.pc = .lowerIdle ∨ w.pc = .callSched := by
  have hwalk : ∀ isrcopy last i rest, (walkOn isrcopy last i rest : IsrPc Fun Arg).resigned = false := by
    intro isrcopy last i rest
    cases rest <;> rfl
  cases hpc : w.pc with
  | lowerIdle => exact .inl rfl
  | callSched => exact .inr rfl
  | test =>
      simp only [isrStep, hpc] at h
      split at h <;> exact absurd h (by simp [IsrPc.resigned])
  | line isrcopy last i =>
      simp only [isrStep, hpc] at h
      split at h
      · split at h <;> exact absurd h (by simp [IsrPc.resigned])
      · exact absurd h (by simp [IsrPc.resigned])
  | lower isrcopy =>
      simp only [isrStep, hpc, Node.lower] at h
      split at h
      · exact absurd h (by simp [IsrPc.resigned])
      · exact absurd h (by simp [IsrPc.resigned])
  | hypSchedule isrcopy last i => exact absurd h (by simp [isrStep, hpc, hwalk])
  | handler isrcopy i ih rest =>
      simp only [isrStep, hpc] at h
      split at h
      · exact absurd h (by simp [IsrPc.resigned])
      · exact absurd h (by simp [hwalk])
  | ack last =>
      simp only [isrStep, hpc] at h
      split at h <;> exact absurd h (by simp [IsrPc.resigned])
  | _ => exact absurd h (by simp [isrStep, hpc, IsrPc.resigned])

theorem isr (h : IdleInv w) (hisr : IsrInv w) {rv : Int32} (hstep : nodeStep s w (.isr rv) = some w') :
    IdleInv w' := by
  have hsched := node_detached hstep h.sched
  obtain ⟨-, henabled, rfl⟩ := nodeStep_inv hstep
  simp only [nodeEnabled, Bool.and_eq_true, beq_iff_eq, Option.isNone_iff_eq_none] at henabled
  obtain ⟨⟨hcurrent, hcalls⟩, hcall⟩ := henabled
  have huser : w.sched.frame isrThread = .user := hcurrent ▸ of_decide_eq_true hcalls
  simp only [nodeEffect] at hsched ⊢
  refine ⟨hsched, fun _ => ?_, fun _ => ?_, fun hresigned htodo => ?_⟩
  · rw [(isrStep_sameWaits w rv).call]
    exact hcall
  · rcases isrStep_sched w rv with heq | ⟨-, heq⟩ | ⟨hpc, heq⟩
    · rw [heq]
      exact .inl huser
    · rw [heq]
      exact .inl huser
    · rw [heq]
      refine .inr ⟨by simp only [isrStep, hpc], isrThread, ?_⟩
      rw [← hcurrent]
      exact Function.update_self _ _ _
  · -- the word was zero when the mask ended, and nothing has changed since the call
    rcases resigned_from hresigned with hpc | hpc
    · refine absurd ?_ htodo
      have hzero := hisr.pending.idle (by rw [hpc]; rfl)
      simp only [isrStep, hpc, Node.lower]
      split <;> exact hzero
    · simp only [isrStep, hpc] at htodo ⊢
      exact h.awake (by rw [hpc]; rfl) htodo

omit [DecidableEq Wh] in
theorem outside_of_mayCall (h : w.mayCall = true) (hcurrent : w.sched.currentThread = isrThread) :
    w.pc.outside = true := by
  simp only [Node.mayCall, hcurrent, Bool.and_eq_true, bne_self_eq_false, Bool.false_or] at h
  exact h.2

omit [DecidableEq Wh] in
/-- What the interrupt thread does outside `isr`. -/
theorem outside_of_ofRunning (h : IdleInv w) (henabled : nodeEnabled w e = true) (he : e.ofRunning = true)
    (helsewhere : e.elsewhere = true) (hcurrent : w.sched.currentThread = isrThread) :
    w.pc.outside = true := by
  cases e with
  | wait wh nsec => exact outside_of_mayCall henabled hcurrent
  | advance =>
      -- inside a call, the interrupt thread is not in its own code
      simp only [nodeEnabled, Bool.and_eq_true, hcurrent] at henabled
      by_contra hout
      rw [h.noCall (Bool.not_eq_true _ ▸ hout)] at henabled
      cases henabled.2
  | nanosleep nsec => exact outside_of_mayCall henabled hcurrent
  | thread e =>
      simp only [nodeEnabled, Bool.and_eq_true] at henabled
      exact outside_of_mayCall henabled.1 hcurrent
  | netinit func arg intr found => exact outside_of_mayCall henabled hcurrent
  | isr rv => exact absurd helsewhere (by simp [NodeEvent.elsewhere])
  | _ => exact absurd he (by simp [NodeEvent.ofRunning])

theorem elsewhere (h : IdleInv w) (helsewhere : e.elsewhere = true) (hstep : nodeStep s w e = some w') :
    IdleInv w' := by
  have hsame : SameIsr w w' := by
    obtain ⟨-, -, rfl⟩ := nodeStep_inv hstep
    exact elsewhere_sameIsr s w helsewhere
  refine h.keep hsame (node_detached hstep h.sched) fun hout => ?_
  cases node_move h.sched.1.toJoinless h.sched.2 hstep with
  | aside haside =>
      obtain ⟨⟨htcb, hframe⟩, hcall, -, -⟩ := haside
      refine ⟨hcall.trans (h.noCall hout), .inl hframe, fun hrun => ?_⟩
      rw [isRunnable, htcb]
      exact hrun
  | goesOn hrunning he =>
      rw [h.outside_of_ofRunning (nodeStep_inv hstep).2.1 he helsewhere hrunning.symm] at hout
      cases hout
  | interrupted => exact absurd helsewhere (by simp [NodeEvent.elsewhere])
  | dequeued _ _ _ hafter =>
      subst hafter
      exact ⟨h.noCall hout, .inl rfl,
        fun hrun => (isRunnable_foldl_wake _ w.sched.tcb isrThread).mpr (.inr hrun)⟩
  | dispatched hselected hafter =>
      subst hafter
      have hnext := h.sched.1.resumes hselected
      have hreturns : (w.sched.frame isrThread).returns = true := by
        rcases h.frame hout with huser | ⟨-, prev, hframe⟩
        · rw [huser]
          rfl
        · rw [hframe]
          rfl
      obtain ⟨huser, htcb⟩ := hnext.back hreturns
      refine ⟨h.noCall hout, .inr huser, fun _ => ?_⟩
      rw [isRunnable, show (w.does (.pass (bmkClockNow w.clock))).sched.tcb isrThread = _ from htcb]
      exact (isRunnable_expire_self _ _ _).trans hnext.eligible

theorem step (h : IdleInv w) (hisr : IsrInv w) (hstep : nodeStep s w e = some w') : IdleInv w' := by
  by_cases he : e.elsewhere = true
  · exact h.elsewhere he hstep
  · cases e with
    | irq which =>
        have hsched := node_detached hstep h.sched
        obtain ⟨-, -, rfl⟩ := nodeStep_inv hstep
        exact ⟨hsched, h.noCall, h.frame, fun _ _ => isRunnable_wake_self _ _⟩
    | isr rv => exact h.isr hisr hstep
    | _ => exact absurd rfl he

omit [DecidableEq Wh] in
theorem start (intr : IntrWorld Fun Arg) (clock : Nat) :
    IdleInv (Node.start intr clock : Node Wh Fun Arg) where
  sched := ⟨detached_start, show isrThread < (bmkSchedCreate bmkSchedInit 0 none 0).created by decide⟩
  noCall := fun _ => rfl
  frame := fun hout => absurd hout (by simp [Node.start, IsrPc.outside])
  awake := fun hresigned => absurd hresigned (by simp [Node.start, IsrPc.resigned])

end IdleInv

/-! ### The result -/

theorem linesBelow_initial (isrcopy : UInt32) {n m : Nat} (h : n ≤ m) :
    linesBelow isrcopy n <+: linesBelow isrcopy m := by
  induction h with
  | refl => exact List.prefix_rfl
  | step _ ih =>
      rw [linesBelow_succ]
      exact ih.trans (List.prefix_append _ _)

theorem Served.initial {calls : List (IntrHand Fun Arg × Int32)} {listed : List (IntrHand Fun Arg)}
    (h : Served listed calls) : calls.map Prod.fst <+: listed := by
  induction listed generalizing calls with
  | nil =>
      obtain rfl : calls = [] := h
      exact List.prefix_rfl
  | cons ih rest hrest =>
      obtain ⟨rv, later, rfl, hlater⟩ := h
      refine (List.prefix_cons_inj ih).mpr ?_
      split at hlater
      · rw [hlater]
        exact List.nil_prefix
      · exact hrest hlater

/-- The record of a pass at any time: the lines of the copy in order, the handlers of each in order. -/
structure PassInOrder (p : Pass Fun Arg) : Prop where
  lines : p.walks.reverse.map (·.line) <+: linesBelow p.isrcopy 32
  calls : ∀ k ∈ p.walks, k.called.reverse.map Prod.fst <+: k.listed

theorem PassUpTo.inOrder {n : Nat} {p : Pass Fun Arg} (h : PassUpTo n p) (hn : n ≤ 32) : PassInOrder p where
  lines := h.lines ▸ linesBelow_initial p.isrcopy hn
  calls := fun k hk => (h.served k hk).initial

theorem Going.inOrder {pc : IsrPc Fun Arg} {p : Pass Fun Arg} (h : Going pc p) : PassInOrder p := by
  cases pc with
  | clear isrcopy => exact h.2.inOrder (by decide)
  | lower isrcopy => exact h.2.inOrder (by decide)
  | line isrcopy last i => exact h.2.2.inOrder h.2.1
  | hypSchedule isrcopy last i => exact h.2.2.2.inOrder h.2.1.le
  | handler isrcopy i ih rest =>
      obtain ⟨hcopy, hi, hset, k, ks, hwalks, hline, hwalk, hbelow⟩ := h
      have hlines := hbelow.lines
      refine ⟨?_, ?_⟩
      · have hnext : p.walks.reverse.map (·.line) = linesBelow p.isrcopy (i + 1) := by
          rw [hwalks, List.reverse_cons, List.map_append, hlines, linesBelow_succ, if_pos (hcopy ▸ hset),
            ← hline]
          rfl
        rw [hnext]
        exact linesBelow_initial p.isrcopy hi
      · rw [hwalks]
        refine List.forall_mem_cons.mpr ⟨?_, (hbelow.inOrder hi.le).calls⟩
        rw [hwalk.listed]
        exact List.prefix_append _ _
  | hypUnschedule isrcopy last i => exact h.2.2.inOrder h.2.1
  | ack last => exact PassUpTo.inOrder h le_rfl
  | _ => exact h.elim

theorem PassesOk.inOrder {pc : IsrPc Fun Arg} {ps : List (Pass Fun Arg)} (h : PassesOk pc ps) :
    ∀ p ∈ ps, PassInOrder p := by
  cases h with
  | rest _ done => exact fun p hp => (done p hp).2.inOrder le_rfl
  | going _ going done =>
      exact List.forall_mem_cons.mpr ⟨going.inOrder, fun p hp => (done p hp).2.inOrder le_rfl⟩

theorem PassesOk.finished {pc : IsrPc Fun Arg} {ps : List (Pass Fun Arg)} (h : PassesOk pc ps) :
    ∀ p ∈ ps, p.finished = true → PassUpTo 32 p := by
  cases h with
  | rest _ done => exact fun p hp _ => (done p hp).2
  | going unfinished _ done =>
      refine List.forall_mem_cons.mpr ⟨fun hfinished => ?_, fun p hp _ => (done p hp).2⟩
      rw [unfinished] at hfinished
      cases hfinished

/-- What becomes of the interrupts in a run. -/
structure NoInterruptLost (events : List (NodeEvent Wh Fun Arg)) (w : Node Wh Fun Arg) : Prop where
  /-- Each interrupt has been copied by a pass, or has arrived after the last copy. -/
  recorded : w.raised ++ w.passes.flatMap (·.raised) = (irqs events).reverse
  /-- What has arrived after the last copy is set in `isr_todo`. -/
  waits : ∀ i < 32, i ∈ w.raised → lineSet w.isrTodo i
  /-- A pass copies the lines raised since the copy before, and no others. -/
  copied : ∀ p ∈ w.passes, ∀ i < 32, lineSet p.isrcopy i ↔ i ∈ p.raised
  /-- A pass takes the lines of its copy in order and calls their handlers in the order of the list. -/
  inOrder : ∀ p ∈ w.passes, PassInOrder p
  /-- When it has finished, it has taken all of them, each up to the first handler that did not return
      zero. -/
  finished : ∀ p ∈ w.passes, p.finished = true → p.walks.reverse.map (·.line) = linesBelow p.isrcopy 32 ∧
    ∀ k ∈ p.walks, Served k.listed k.called.reverse
  /-- The list that was walked is what `isr_ih` had, before any later registration. -/
  listed : ∀ p ∈ w.passes, ∀ k ∈ p.walks, k.listed <:+ w.intr.isrIh k.line
  /-- The thread does not sleep for lack of work while there is work. -/
  idle : w.pc = .idle → w.sched.frame isrThread ≠ .user → w.isrTodo ≠ 0 →
    isRunnable w.sched.tcb isrThread = true

/-- However the interrupt thread, the other threads and the interrupts interleave, no interrupt is lost. -/
theorem no_interrupt_lost {intr : IntrWorld Fun Arg} (hdepth : intr.board.splDepth = 0) {clock : Nat}
    {events : List (NodeEvent Wh Fun Arg)}
    (hrun : run (nodeStep s) (Node.start intr clock) events = some w) :
    NoInterruptLost events w := by
  obtain ⟨hisr, hidle⟩ := run_invariant (I := fun w => IsrInv w ∧ IdleInv w)
    (fun _ _ _ h hstep => ⟨h.1.step hstep, h.2.step h.1 hstep⟩)
    ⟨IsrInv.start hdepth clock, IdleInv.start intr clock⟩ hrun
  have hrecorded := allRaised_run hrun
  rw [show allRaised (Node.start intr clock : Node Wh Fun Arg) = [] from rfl, List.append_nil] at hrecorded
  refine ⟨hrecorded, hisr.pending.waits, hisr.copied, hisr.passes.inOrder, ?_, hisr.listed, ?_⟩
  · intro p hp hfinished
    exact ⟨(hisr.passes.finished p hp hfinished).lines, (hisr.passes.finished p hp hfinished).served⟩
  · intro hpc _ htodo
    exact hidle.awake (by rw [hpc]; rfl) htodo

/-- Line 10 has two handlers. -/
def twoHandlers : IntrWorld Nat Nat :=
  ⟨⟨fun _ => .empty, [], 0⟩, fun i => if i = 10 then [⟨0, 0⟩, ⟨1, 0⟩] else [], false⟩

/-- Line 10 is raised before the first pass, and its second handler claims the interrupt; line 3 is raised
    while the first handler runs. -/
def twoInterrupts : List (NodeEvent Unit Nat Nat) :=
  [NodeEvent.thread .sched, .pass, .isr 0, .isr 0, .irq 10] ++ List.replicate 18 (NodeEvent.isr 0) ++
    [NodeEvent.irq 3, .isr 0, .isr 1] ++ List.replicate 24 (NodeEvent.isr 0)

/-- The pass is over, and line 3 waits for the next one. -/
theorem no_interrupt_lost_two :
    ∃ w, run (nodeStep ⟨0, 0, 0, 0⟩) (Node.start twoHandlers 0) twoInterrupts = some w ∧
      w.raised = [3] ∧ w.passes.map (·.finished) = [true] ∧ NoInterruptLost twoInterrupts w := by
  have hfacts : (run (nodeStep ⟨0, 0, 0, 0⟩) (Node.start twoHandlers 0) twoInterrupts).map
      (fun w => (w.raised, w.passes.map (·.finished))) = some ([3], [true]) := by
    decide +kernel
  obtain ⟨w, hrun, hends⟩ := Option.map_eq_some_iff.mp hfacts
  obtain ⟨hraised, hpasses⟩ := Prod.mk.inj hends
  exact ⟨w, hrun, hraised, hpasses, no_interrupt_lost rfl hrun⟩

end RumpBaremetal
