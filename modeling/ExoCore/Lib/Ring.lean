/-
  ExoCore.Lib.Ring — a ring that holds the LAST entries of a growing list.

  A ring of `n` slots has a `head` and a `count`; slot `(head + k) % n` stands for the
  `k`-th of the last `count` entries.  What a slot stores and what it stands for are
  related by any `rel`, so that a slot may keep more than its entry (padding, colours).

  Three things happen to a ring: its newest entry is replaced (`setLast`), an entry is
  added while there is room (`push`), or an entry is added over the oldest one
  (`pushFull`).
-/
import Mathlib.Data.Nat.ModEq
import Mathlib.Logic.Function.Basic
import Mathlib.Tactic.Common

namespace ExoCore.Lib

open Function List

variable {α β : Type*} {rel : β → α → Prop} {n head count : ℕ} {slot : ℕ → β} {l : List α}

/-- The ring holds the last `count` entries of `l`. -/
structure RingHolds (rel : β → α → Prop) (n head count : ℕ) (slot : ℕ → β) (l : List α) : Prop where
  room : count ≤ n
  fits : count ≤ l.length
  entry : ∀ k a, k < count → l[l.length - count + k]? = some a → rel (slot ((head + k) % n)) a

/-- Positions less than `n` apart have different slots. -/
theorem ring_slot_ne {j k : ℕ} (hlt : k < j) (hn : j - k < n) : (head + j) % n ≠ (head + k) % n := by
  intro h
  have hmod : j ≡ k [MOD n] := Nat.ModEq.add_left_cancel' head h
  have hdvd : n ∣ j - k := (Nat.modEq_iff_dvd' (le_of_lt hlt)).mp hmod.symm
  have hle := Nat.le_of_dvd (by omega) hdvd
  omega

/-- An entry is added, with room for it. -/
theorem RingHolds.push {a : α} {b : β} (h : RingHolds rel n head count slot l) (hc : count < n)
    (hab : rel b a) :
    RingHolds rel n head (count + 1) (update slot ((head + count) % n) b) (l ++ [a]) := by
  have hfits := h.fits
  refine ⟨hc, by rw [length_append]; exact Nat.succ_le_succ hfits, ?_⟩
  intro k e hk hget
  rw [length_append, length_singleton] at hget
  by_cases hlast : k = count
  · subst hlast
    rw [update_self]
    rw [getElem?_append_right (by omega),
      show l.length + 1 - (k + 1) + k - l.length = 0 by omega] at hget
    cases hget
    exact hab
  · rw [update_of_ne (ring_slot_ne (by omega) (by omega)).symm]
    rw [getElem?_append_left (by omega),
      show l.length + 1 - (count + 1) + k = l.length - count + k by omega] at hget
    exact h.entry k e (by omega) hget

/-- The newest entry is replaced: it is dropped, and another one added. -/
theorem RingHolds.setLast {a a' : α} {b : β} (h : RingHolds rel n head count slot (l ++ [a]))
    (hc : 0 < count) (hab : rel b a') :
    RingHolds rel n head count (update slot ((head + (count - 1)) % n) b) (l ++ [a']) := by
  obtain ⟨hroom, hfits, hentry⟩ := h
  rw [length_append, length_singleton] at hfits hentry
  have hdrop : RingHolds rel n head (count - 1) slot l := by
    refine ⟨by omega, by omega, fun k e hk hget => hentry k e (by omega) ?_⟩
    rw [getElem?_append_left (by omega), ← hget]
    congr 1
    omega
  have hpush := hdrop.push (by omega) hab
  rwa [Nat.sub_add_cancel hc] at hpush

/-- An entry is added in the place of the oldest one. -/
theorem RingHolds.pushFull {a : α} {b : β} (hn : 0 < n) (h : RingHolds rel n head n slot l)
    (hab : rel b a) :
    RingHolds rel n ((head + 1) % n) n (update slot (head % n) b) (l ++ [a]) := by
  obtain ⟨-, hfits, hentry⟩ := h
  have hdrop : RingHolds rel n ((head + 1) % n) (n - 1) slot l := by
    refine ⟨by omega, by omega, fun k e hk hget => ?_⟩
    rw [Nat.mod_add_mod, Nat.add_assoc, Nat.add_comm 1 k]
    refine hentry (k + 1) e (by omega) ?_
    rw [← hget]
    congr 1
    omega
  -- behind the newest entry is, once around the ring, the oldest one
  have hpush := hdrop.push (by omega) hab
  rwa [Nat.mod_add_mod, Nat.add_assoc, Nat.add_sub_cancel' hn, Nat.add_mod_right,
    Nat.sub_add_cancel hn] at hpush

end ExoCore.Lib
