/-
  ExoCore.Lib.Forest — parent pointers that lead to a root.

  `Rooted parent root x` says that following `parent` from `x` arrives at `root`.
  Changing ONE parent pointer keeps every node rooted as long as the changed node
  itself is (`Rooted.update`), and a node whose chain avoids the changed one does
  not notice the change (`Rooted.avoid`).  A walk among finitely many nodes that gets
  somewhere at all gets there before it has to repeat (`reached_early`).
-/
import Mathlib.Data.Finset.Card
import Mathlib.Data.Nat.Find
import Mathlib.Logic.Function.Iterate
import Mathlib.Logic.Function.Basic

namespace ExoCore.Lib

open Function Finset

/-- Following `parent` from `x` arrives at `root`. -/
def Rooted {α : Type*} (parent : α → α) (root x : α) : Prop := ∃ k, parent^[k] x = root

section Forest

variable {α : Type*} {parent : α → α} {root x y p : α}

theorem Rooted.self : Rooted parent root root := ⟨0, rfl⟩

theorem Rooted.of_parent (h : Rooted parent root (parent x)) : Rooted parent root x := by
  obtain ⟨k, hk⟩ := h
  exact ⟨k + 1, hk⟩

/-- **A walk arrives early**: when all nodes before its goal `P` are in `S`, it needs at most as many
steps as `S` has nodes. -/
theorem reached_early {P : α → Prop} {S : Finset α} (hS : ∀ k, ¬ P (parent^[k] x) → parent^[k] x ∈ S)
    (h : ∃ k, P (parent^[k] x)) : ∃ k ≤ S.card, P (parent^[k] x) := by
  classical
  refine ⟨Nat.find h, ?_, Nat.find_spec h⟩
  have hbefore : ∀ i < Nat.find h, ¬ P (parent^[i] x) := fun i hi => Nat.find_min h hi
  -- a node met twice would let the walk take the shorter way
  have hdistinct : Set.InjOn (fun i => parent^[i] x) (Finset.range (Nat.find h)) := by
    have hne : ∀ i j, i < j → j < Nat.find h → parent^[i] x ≠ parent^[j] x := by
      intro i j hij hj heq
      refine hbefore (Nat.find h - j + i) (by omega) ?_
      rw [Function.iterate_add_apply, heq, ← Function.iterate_add_apply, Nat.sub_add_cancel hj.le]
      exact Nat.find_spec h
    intro i hi j hj heq
    have hi := mem_range.mp hi
    have hj := mem_range.mp hj
    rcases Nat.lt_trichotomy i j with hlt | rfl | hlt
    · exact absurd heq (hne i j hlt hj)
    · rfl
    · exact absurd heq.symm (hne j i hlt hi)
  have hcard := card_le_card_of_injOn (t := S) _
    (fun i hi => hS i (hbefore i (mem_range.mp hi))) hdistinct
  rwa [card_range] at hcard

variable [DecidableEq α]

/-- **Changing one parent pointer**: a node that was rooted is, if the changed node is or its chain
avoids that one. -/
theorem Rooted.update
    (hx : ∀ j, parent^[j] y = x → Rooted (Function.update parent x p) root x)
    (hy : Rooted parent root y) : Rooted (Function.update parent x p) root y := by
  obtain ⟨k, hk⟩ := hy
  induction k generalizing y with
  | zero =>
    obtain rfl : y = root := hk
    exact Rooted.self
  | succ k ih =>
    by_cases hyx : y = x
    · rw [hyx]
      exact hx 0 hyx
    · apply Rooted.of_parent
      rw [update_of_ne hyx]
      exact ih (fun j => hx (j + 1)) hk

/-- A chain that avoids the changed node is as before. -/
theorem Rooted.avoid (h : Rooted parent root y) (hav : ∀ j, parent^[j] y ≠ x) :
    Rooted (Function.update parent x p) root y :=
  h.update fun j hj => absurd hj (hav j)

end Forest

end ExoCore.Lib
