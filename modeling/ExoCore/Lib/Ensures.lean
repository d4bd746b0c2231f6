/-
  ExoCore.Lib.Ensures — postconditions of fallible code.

  `Ensures err x Q`: when `x` returns, `Q` holds of the value; when it fails, the
  error is one that `err` allows.  A function is specified once with `Ensures`,
  and a caller takes the specification through `Ensures.bind`, never through the
  callee's body.
-/
import Mathlib.Tactic.Common

namespace ExoCore.Lib

variable {ε α β : Type} {err : ε → Prop}

/-- The value of `x` satisfies `Q`, or the failure is an allowed one. -/
def Ensures (err : ε → Prop) (x : Except ε α) (Q : α → Prop) : Prop :=
  match x with
  | .ok a => Q a
  | .error e => err e

variable {Q : α → Prop} {x : Except ε α}

theorem Ensures.ok {a : α} (h : Q a) : Ensures err (.ok a) Q := h

theorem Ensures.error {e : ε} (h : err e) : Ensures err (.error e) Q := h

theorem Ensures.mono {P : α → Prop} (h : Ensures err x P)
    (hPQ : ∀ a, P a → Q a) : Ensures err x Q := by
  cases x with
  | error e => exact h
  | ok a => exact hPQ a h

/-- **Sequencing.** -/
theorem Ensures.bind {f : α → Except ε β} {P : α → Prop} {Q : β → Prop}
    (h : Ensures err x P) (hf : ∀ a, P a → Ensures err (f a) Q) : Ensures err (x >>= f) Q := by
  cases x with
  | error e => exact h
  | ok a => exact hf a h

theorem Ensures.map {f : α → β} {Q : β → Prop}
    (h : Ensures err x fun a => Q (f a)) : Ensures err (x.map f) Q := by
  cases x with
  | error e => exact h
  | ok a => exact h

/-- **Branching.** -/
theorem Ensures.ite {p : Prop} [Decidable p] {y : Except ε α}
    (hx : p → Ensures err x Q) (hy : ¬ p → Ensures err y Q) :
    Ensures err (if p then x else y) Q := by
  by_cases hp : p
  · rw [if_pos hp]
    exact hx hp
  · rw [if_neg hp]
    exact hy hp

theorem Ensures.value {a : α} (h : Ensures err x Q)
    (hx : x = .ok a) : Q a := by
  rw [hx] at h
  exact h

/-- Code that may not fail returns. -/
theorem Ensures.total (h : Ensures err x Q)
    (herr : ∀ e, ¬ err e) : ∃ a, x = .ok a := by
  cases x with
  | error e => exact absurd h (herr e)
  | ok a => exact ⟨a, rfl⟩

theorem Ensures.failure {e : ε} (h : Ensures err x Q)
    (hx : x = .error e) : err e := by
  rw [hx] at h
  exact h

end ExoCore.Lib
