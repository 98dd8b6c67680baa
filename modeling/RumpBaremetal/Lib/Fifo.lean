/-
Module: RumpBaremetal.Lib.Fifo
Layer: Lib
Purpose: A queue that is served from the front and joined at the back, and that elements may also leave on
  their own.  If nobody joins twice, the elements served are those at the front that did not leave, in their
  order.
Trusted boundary: none
Main exports: Op, apply, popped, pushes, removed, pops, staying, Proper, popped_eq
-/
import Mathlib.Tactic

namespace Fifo

variable {α : Type*} [DecidableEq α]

inductive Op (α : Type*) where
  | push (a : α)
  | pop
  | remove (a : α)
deriving DecidableEq

def apply (q : List α) : Op α → List α
  | .push a => q ++ [a]
  | .pop => q.tail
  | .remove a => q.erase a

/-- The elements served, in order. -/
def popped : List α → List (Op α) → List α
  | _, [] => []
  | q, .pop :: ops => q.head?.toList ++ popped (apply q .pop) ops
  | q, op :: ops => popped (apply q op) ops

def pushes : List (Op α) → List α
  | [] => []
  | .push a :: ops => a :: pushes ops
  | _ :: ops => pushes ops

def removed : List (Op α) → List α
  | [] => []
  | .remove a :: ops => a :: removed ops
  | _ :: ops => removed ops

/-- How often the queue is served. -/
def pops : List (Op α) → Nat
  | [] => 0
  | .pop :: ops => pops ops + 1
  | _ :: ops => pops ops

/-- The elements of the queue that are not among those gone. -/
def staying (gone q : List α) : List α := q.filter fun a => a ∉ gone

theorem staying_append (gone q q' : List α) : staying gone (q ++ q') = staying gone q ++ staying gone q' :=
  List.filter_append ..

theorem staying_cons {gone : List α} {a : α} (h : a ∉ gone) (q : List α) :
    staying gone (a :: q) = a :: staying gone q :=
  List.filter_cons_of_pos (by simpa using h)

theorem staying_erase {q : List α} (hnodup : q.Nodup) (a : α) (gone : List α) :
    staying gone (q.erase a) = staying (a :: gone) q := by
  unfold staying
  rw [hnodup.erase_eq_filter, List.filter_filter]
  refine List.filter_congr fun b _ => ?_
  simp only [List.mem_cons, not_or, Bool.decide_and, decide_not, bne]
  rw [Bool.and_comm]
  rfl

/-- Only elements of the queue leave it. -/
def Proper : List α → List (Op α) → Prop
  | _, [] => True
  | q, op :: ops => (∀ a, op = .remove a → a ∈ q) ∧ Proper (apply q op) ops

/-- Who leaves was there or has joined. -/
theorem removed_subset (ops : List (Op α)) :
    ∀ q : List α, Proper q ops → ∀ a ∈ removed ops, a ∈ q ∨ a ∈ pushes ops := by
  induction ops with
  | nil =>
      intro q _ a ha
      cases ha
  | cons op ops ih =>
      intro q hproper a ha
      cases op with
      | push b =>
          rcases ih _ hproper.2 a ha with hin | hlater
          · rcases List.mem_append.mp hin with hq | hb
            · exact .inl hq
            · exact .inr (List.mem_singleton.mp hb ▸ List.mem_cons_self)
          · exact .inr (List.mem_cons_of_mem b hlater)
      | pop =>
          rcases ih _ hproper.2 a ha with hin | hlater
          · exact .inl (List.mem_of_mem_tail hin)
          · exact .inr hlater
      | remove b =>
          rcases List.mem_cons.mp ha with rfl | hrest
          · exact .inl (hproper.1 a rfl)
          · rcases ih _ hproper.2 a hrest with hin | hlater
            · exact .inl (List.mem_of_mem_erase hin)
            · exact .inr hlater

/-- Served are the elements at the front that do not leave by themselves, in their order. -/
theorem popped_eq (ops : List (Op α)) :
    ∀ q : List α, Proper q ops → (q ++ pushes ops).Nodup → pops ops ≤ (staying (removed ops) q).length →
      popped q ops = (staying (removed ops) q).take (pops ops) := by
  induction ops with
  | nil =>
      intro q _ _ _
      rfl
  | cons op ops ih =>
      intro q hproper hfresh hlen
      cases op with
      | push a =>
          have hfresh' : ((q ++ [a]) ++ pushes ops).Nodup := by
            rw [List.append_assoc]
            exact hfresh
          have hrest := ih (q ++ [a]) hproper.2 hfresh'
          rw [staying_append, List.length_append] at hrest
          simp only [removed, pops] at hlen
          rw [List.take_append_of_le_length hlen] at hrest
          exact hrest (by omega)
      | pop =>
          cases q with
          | nil => cases hlen
          | cons b q =>
              -- what has been served neither leaves nor joins any more
              have hb : b ∉ removed ops := by
                intro hmem
                exact (List.nodup_cons.mp hfresh).1
                  (List.mem_append.mpr (removed_subset ops q hproper.2 b hmem))
              simp only [removed, pops, staying_cons hb, List.length_cons, Nat.succ_le_succ_iff] at hlen ⊢
              rw [List.take_succ_cons, ← ih q hproper.2 (List.nodup_cons.mp hfresh).2 hlen]
              rfl
      | remove b =>
          have hnodup : q.Nodup := (List.nodup_append.mp hfresh).1
          have hfresh' : (q.erase b ++ pushes ops).Nodup :=
            hfresh.sublist (List.erase_sublist.append_right _)
          simp only [removed, pops, ← staying_erase hnodup] at hlen ⊢
          exact ih _ hproper.2 hfresh' hlen

end Fifo
