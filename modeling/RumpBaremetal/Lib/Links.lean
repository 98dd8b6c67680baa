/-
Module: RumpBaremetal.Lib.Links
Layer: Lib
Purpose: Chains of cells and nodes as intrusive queues build them.  A cell holds a pointer to a node or
  nothing, each node contains a cell of its own, and each node records the cell that points to it.  A path
  leads from a cell through a list of nodes to the cell behind the last one.  Paths are cut and joined at
  any node, they survive every write that spares their own nodes and the cells that point to these, and
  paths that begin at cells outside the nodes meet each node at most once and never meet each other.
Trusted boundary: none
Main exports: Links, Links.Leads, Leads.append, Leads.split, Leads.setTarget, Leads.setBack,
  Leads.root_unique, Leads.nodup, Leads.disjoint
-/
import Mathlib.Tactic

variable {Cell Node : Type*}

/-- What every cell points to, and the cell that every node takes for the one pointing to it. -/
structure Links (Cell Node : Type*) where
  target : Cell → Option Node
  back : Node → Cell

namespace Links

/-! ### Writes -/

section Writes

variable [DecidableEq Cell] [DecidableEq Node]

def setTarget (m : Links Cell Node) (c : Cell) (x : Option Node) : Links Cell Node :=
  ⟨Function.update m.target c x, m.back⟩

def setBack (m : Links Cell Node) (x : Node) (c : Cell) : Links Cell Node :=
  ⟨m.target, Function.update m.back x c⟩

variable (m : Links Cell Node)

omit [DecidableEq Node] in
@[simp] theorem setTarget_back (c : Cell) (x : Option Node) : (m.setTarget c x).back = m.back := rfl

omit [DecidableEq Cell] in
@[simp] theorem setBack_target (x : Node) (c : Cell) : (m.setBack x c).target = m.target := rfl

omit [DecidableEq Node] in
@[simp] theorem setTarget_target_self (c : Cell) (x : Option Node) : (m.setTarget c x).target c = x := by
  simp [setTarget]

omit [DecidableEq Node] in
theorem setTarget_target_of_ne {c d : Cell} (h : d ≠ c) (x : Option Node) :
    (m.setTarget c x).target d = m.target d := by
  simp [setTarget, h]

omit [DecidableEq Cell] in
@[simp] theorem setBack_back_self (x : Node) (c : Cell) : (m.setBack x c).back x = c := by
  simp [setBack]

omit [DecidableEq Cell] in
theorem setBack_back_of_ne {x y : Node} (h : y ≠ x) (c : Cell) : (m.setBack x c).back y = m.back y := by
  simp [setBack, h]

end Writes

/-! ### Paths -/

/-- From the cell `c` through the nodes, whose own cells are given by `out`, to the cell `d`. -/
def Leads (out : Node → Cell) (m : Links Cell Node) (c : Cell) : List Node → Cell → Prop
  | [], d => c = d
  | x :: xs, d => m.target c = some x ∧ m.back x = c ∧ Leads out m (out x) xs d

namespace Leads

variable {out : Node → Cell} {m m' : Links Cell Node}

theorem append {xs : List Node} :
    ∀ {c d e : Cell} {ys : List Node}, Leads out m c xs d → Leads out m d ys e →
      Leads out m c (xs ++ ys) e := by
  induction xs with
  | nil =>
      intro c d e ys hxs hys
      cases hxs
      exact hys
  | cons x xs ih =>
      intro c d e ys hxs hys
      exact ⟨hxs.1, hxs.2.1, ih hxs.2.2 hys⟩

/-- A path can be cut before any of its nodes, and there it is at the cell that the node points back to. -/
theorem split {x : Node} {ys : List Node} {xs : List Node} :
    ∀ {c d : Cell}, Leads out m c (xs ++ x :: ys) d →
      Leads out m c xs (m.back x) ∧ m.target (m.back x) = some x ∧ Leads out m (out x) ys d := by
  induction xs with
  | nil =>
      intro c d h
      obtain ⟨htarget, hback, hrest⟩ := h
      refine ⟨hback.symm, ?_, hrest⟩
      rw [hback]
      exact htarget
  | cons w xs ih =>
      intro c d h
      obtain ⟨hxs, hx, hys⟩ := ih h.2.2
      exact ⟨⟨h.1, h.2.1, hxs⟩, hx, hys⟩

/-- The last step of a path. -/
theorem concat_inv {x : Node} {xs : List Node} {c d : Cell} (h : Leads out m c (xs ++ [x]) d) :
    Leads out m c xs (m.back x) ∧ d = out x := by
  obtain ⟨hxs, -, hd⟩ := h.split
  exact ⟨hxs, hd.symm⟩

variable {xs ys : List Node} {c d e : Cell} {x : Node}

/-- The cell that a node points back to points to it. -/
theorem target_back (h : Leads out m c xs d) (hx : x ∈ xs) : m.target (m.back x) = some x := by
  obtain ⟨before, behind, rfl⟩ := List.append_of_mem hx
  exact h.split.2.1

/-- A path ends where it begins or in one of its nodes. -/
theorem last_cell (h : Leads out m c xs d) : d = c ∨ ∃ z ∈ xs, d = out z := by
  rcases List.eq_nil_or_concat xs with rfl | ⟨before, z, rfl⟩
  · exact Or.inl h.symm
  · exact Or.inr ⟨z, by simp, (concat_inv (by simpa using h)).2⟩

/-- A node points back to where the path begins or to another of its nodes. -/
theorem back_cell (h : Leads out m c xs d) (hx : x ∈ xs) : m.back x = c ∨ ∃ z ∈ xs, m.back x = out z := by
  obtain ⟨before, behind, rfl⟩ := List.append_of_mem hx
  rcases h.split.1.last_cell with hc | ⟨z, hz, heq⟩
  · exact Or.inl hc
  · exact Or.inr ⟨z, List.mem_append_left _ hz, heq⟩

/-- A path uses the cells that its nodes point back to, and no others. -/
theorem congr {xs : List Node} :
    ∀ {c : Cell}, Leads out m c xs d → (∀ x ∈ xs, m'.back x = m.back x) →
      (∀ x ∈ xs, m'.target (m.back x) = m.target (m.back x)) → Leads out m' c xs d := by
  induction xs with
  | nil => exact fun h _ _ => h
  | cons x xs ih =>
      intro c h hback htarget
      obtain ⟨hx, hxback, hrest⟩ := h
      have hcell := htarget x List.mem_cons_self
      rw [hxback] at hcell
      refine ⟨hcell.trans hx, (hback x List.mem_cons_self).trans hxback, ih hrest ?_ ?_⟩
      · exact fun y hy => hback y (List.mem_cons_of_mem x hy)
      · exact fun y hy => htarget y (List.mem_cons_of_mem x hy)

section Writes

variable [DecidableEq Cell] [DecidableEq Node]

omit [DecidableEq Node] in
/-- A cell that none of the nodes points back to may be written. -/
theorem setTarget (h : Leads out m c xs d) (spared : ∀ y ∈ xs, m.back y ≠ e) (v : Option Node) :
    Leads out (m.setTarget e v) c xs d := by
  refine h.congr (fun _ _ => rfl) fun y hy => ?_
  exact m.setTarget_target_of_ne (spared y hy) v

omit [DecidableEq Cell] in
/-- A node outside the path may be written. -/
theorem setBack (h : Leads out m c xs d) (spared : x ∉ xs) (e : Cell) :
    Leads out (m.setBack x e) c xs d := by
  refine h.congr (fun y hy => ?_) fun _ _ => rfl
  have hne : y ≠ x := by
    rintro rfl
    exact spared hy
  exact m.setBack_back_of_ne hne e

end Writes

section Roots

variable (inj : Function.Injective out)
include inj

/-- Backwards from a cell there is only one way to a cell outside the nodes. -/
theorem root_unique {c c' : Cell} (hc : ∀ z, c ≠ out z) (hc' : ∀ z, c' ≠ out z) :
    ∀ {e : Cell} {xs ys : List Node}, Leads out m c xs e → Leads out m c' ys e → c = c' ∧ xs = ys := by
  intro e xs
  induction xs using List.reverseRecOn generalizing e with
  | nil =>
      intro ys hxs hys
      cases hxs
      rcases List.eq_nil_or_concat ys with rfl | ⟨before, z, rfl⟩
      · exact ⟨hys.symm, rfl⟩
      · exact absurd (concat_inv (by simpa using hys)).2 (hc z)
  | append_singleton before x ih =>
      intro ys hxs hys
      obtain ⟨hbefore, hx⟩ := concat_inv hxs
      rcases List.eq_nil_or_concat ys with rfl | ⟨others, y, rfl⟩
      · cases hys
        exact absurd hx (hc' x)
      · obtain ⟨hothers, hy⟩ := concat_inv (by simpa using hys)
        obtain rfl : x = y := inj (hx.symm.trans hy)
        obtain ⟨heq, rfl⟩ := ih hbefore hothers
        exact ⟨heq, by simp⟩

theorem nodup (hc : ∀ z, c ≠ out z) : ∀ {xs : List Node} {d : Cell}, Leads out m c xs d → xs.Nodup := by
  intro xs
  induction xs using List.reverseRecOn with
  | nil => exact fun _ => List.nodup_nil
  | append_singleton before x ih =>
      intro d h
      have hbefore := (concat_inv h).1
      refine (List.nodup_append_comm.mp ?_)
      refine List.nodup_cons.mpr ⟨fun hx => ?_, ih hbefore⟩
      -- the way to an earlier occurrence would be the whole way
      obtain ⟨front, rest, rfl⟩ := List.append_of_mem hx
      have heq := (root_unique inj hc hc hbefore hbefore.split.1).2
      simpa using congrArg List.length heq

theorem disjoint {c c' d' : Cell} (hc : ∀ z, c ≠ out z) (hc' : ∀ z, c' ≠ out z) (hne : c ≠ c')
    (hxs : Leads out m c xs d) (hys : Leads out m c' ys d') : xs.Disjoint ys := by
  intro x hx hx'
  obtain ⟨front, rest, rfl⟩ := List.append_of_mem hx
  obtain ⟨front', rest', rfl⟩ := List.append_of_mem hx'
  exact hne (root_unique inj hc hc' hxs.split.1 hys.split.1).1

end Roots

end Leads

end Links
