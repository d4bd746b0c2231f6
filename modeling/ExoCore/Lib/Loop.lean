/-
  ExoCore.Lib.Loop — counted loops.

  `forUpto n body` is `for (i = 0; i < n; ++i)` over a state that the body passes
  on, and `forUptoM` is the same loop around fallible code.  A proof about a loop
  takes one of the rules below: the last turn, an invariant of every turn, or (for
  fallible code) a postcondition of every turn.
-/
import ExoCore.Lib.Ensures
import Mathlib.Data.List.Range

namespace ExoCore.Lib

open List

/-- `for (i = 0; i < n; ++i) s = body(i, s)`. -/
def forUpto {σ : Type*} (n : ℕ) (body : ℕ → σ → σ) (s : σ) : σ :=
  (List.range n).foldl (fun s i => body i s) s

/-- The same loop around code that may fail. -/
def forUptoM {ε σ : Type} (n : ℕ) (body : ℕ → σ → Except ε σ) (s : σ) : Except ε σ :=
  (List.range n).foldlM (fun s i => body i s) s

@[simp] theorem forUpto_zero {σ : Type*} (body : ℕ → σ → σ) (s : σ) : forUpto 0 body s = s := rfl

/-- The last turn. -/
theorem forUpto_succ {σ : Type*} (n : ℕ) (body : ℕ → σ → σ) (s : σ) :
    forUpto (n + 1) body s = body n (forUpto n body s) := by
  unfold forUpto
  rw [range_succ, foldl_append]
  rfl

/-- **The invariant rule for a counted loop.** -/
theorem forUpto_inv {σ : Type*} {n : ℕ} {body : ℕ → σ → σ} {s : σ} (inv : ℕ → σ → Prop)
    (h0 : inv 0 s) (hstep : ∀ i t, i < n → inv i t → inv (i + 1) (body i t)) :
    inv n (forUpto n body s) := by
  induction n with
  | zero => exact h0
  | succ n ih =>
    rw [forUpto_succ]
    exact hstep n _ (Nat.lt_succ_self n) (ih fun i t hi => hstep i t (Nat.lt_succ_of_lt hi))

variable {ε σ : Type} {n : ℕ} {body : ℕ → σ → Except ε σ}

theorem forUptoM_succ (n : ℕ) (body : ℕ → σ → Except ε σ) (s : σ) :
    forUptoM (n + 1) body s = forUptoM n body s >>= body n := by
  simp [forUptoM, range_succ, foldlM_append]

/-- A loop whose turns succeed is the plain loop over their results. -/
theorem forUptoM_eq_ok (next : ℕ → σ → σ)
    (h : ∀ i t, i < n → body i t = .ok (next i t)) (s : σ) :
    forUptoM n body s = .ok (forUpto n next s) := by
  induction n with
  | zero => rfl
  | succ n ih =>
    rw [forUptoM_succ, forUpto_succ, ih fun i t hi => h i t (Nat.lt_succ_of_lt hi)]
    exact h n _ (Nat.lt_succ_self n)

/-- A loop that comes to its end has made every turn. -/
theorem forUptoM_turn {i : ℕ} {s t : σ} (h : forUptoM n body s = .ok t) (hi : i < n) :
    ∃ u u', body i u = .ok u' := by
  induction n generalizing t with
  | zero => omega
  | succ n ih =>
    rw [forUptoM_succ] at h
    cases hu : forUptoM n body s with
    | error e =>
      rw [hu] at h
      cases h
    | ok u =>
      rw [hu] at h
      rcases Nat.lt_succ_iff_lt_or_eq.mp hi with hlt | rfl
      · exact ih hu hlt
      · exact ⟨u, t, h⟩

/-- A loop of turns that may not fail may not fail. -/
theorem Ensures.forUptoM {err : ε → Prop} (s : σ)
    (h : ∀ i t, i < n → Ensures err (body i t) fun _ => True) :
    Ensures err (forUptoM n body s) fun _ => True := by
  induction n with
  | zero => exact Ensures.ok trivial
  | succ n ih =>
    rw [forUptoM_succ]
    exact (ih fun i t hi => h i t (Nat.lt_succ_of_lt hi)).bind fun u _ => h n u (Nat.lt_succ_self n)

end ExoCore.Lib
