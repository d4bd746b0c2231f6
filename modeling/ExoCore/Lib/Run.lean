/-
  ExoCore.Lib.Run — runs of a transition system, and loops with fuel.

  A run is `Relation.ReflTransGen step`: any finite number of steps.  An
  INVARIANT is proved once per step and carried to every reachable state by
  `inv_of_run`.  A `Trace` also keeps the events; `Trace.simulate` carries a
  FORWARD SIMULATION from one step to a whole run.

  Fallible code is `Except`: `bind_ok` and `map_ok` take a successful result
  apart.

  A loop of the source that need not terminate is written with a fuel argument
  and fails when the fuel is used up.  `Returns f r` says that the source loop
  really comes back with `r`: every large enough amount of fuel gives `r`.  The
  rules of `Approx` show, one per construct, that more fuel changes no answer.
-/
import Mathlib.Logic.Relation
import Mathlib.Order.Lattice
import Mathlib.Tactic.Common

namespace ExoCore.Lib

/-! ## §1. Runs. -/

/-- **The invariant rule**: what holds first and survives every step holds in
every reachable state. -/
theorem inv_of_run {σ : Type*} {step : σ → σ → Prop} {s t : σ} (inv : σ → Prop)
    (hrun : Relation.ReflTransGen step s t) (h0 : inv s)
    (hstep : ∀ {a b}, inv a → step a b → inv b) : inv t := by
  induction hrun with
  | refl => exact h0
  | tail _ hlast ih => exact hstep ih hlast

/-- The events of a run, in order. -/
inductive Trace {σ ε : Type*} (step : σ → ε → σ → Prop) (s : σ) : List ε → σ → Prop
  | nil : Trace step s [] s
  | snoc {l : List ε} {t u : σ} {e : ε} (h : Trace step s l t) (he : step t e u) :
      Trace step s (l ++ [e]) u

section Trace

variable {σ ε : Type*} {step : σ → ε → σ → Prop} {s t u : σ} {l : List ε}

theorem Trace.cons {e : ε} (he : step s e t) (h : Trace step t l u) : Trace step s (e :: l) u := by
  induction h with
  | nil => exact Trace.snoc .nil he
  | snoc _ hlast ih => exact Trace.snoc ih hlast

theorem Trace.inv (inv : σ → Prop) (hrun : Trace step s l t) (h0 : inv s) (hstep : ∀ {a b e}, inv a → step a e b → inv b) :
    inv t := by
  induction hrun with
  | nil => exact h0
  | snoc _ he ih => exact hstep ih he

/-- **Forward simulation**: when every concrete step is matched by an abstract one
with the same event, every concrete run is matched by an abstract run. -/
theorem Trace.simulate {τ : Type*} {astep : τ → ε → τ → Prop} (R : σ → τ → Prop) {a : τ}
    (hrun : Trace step s l t) (h0 : R s a)
    (hstep : ∀ {t u e b}, R t b → step t e u → ∃ b', astep b e b' ∧ R u b') :
    ∃ b, Trace astep a l b ∧ R t b := by
  induction hrun with
  | nil => exact ⟨a, .nil, h0⟩
  | snoc _ he ih =>
    obtain ⟨b, hb, hR⟩ := ih
    obtain ⟨b', hb', hR'⟩ := hstep hR he
    exact ⟨b', .snoc hb hb', hR'⟩

end Trace

/-! ## §2. Fuel. -/

/-- Every large enough amount of fuel makes `f` return `r`. -/
def Returns {ε α : Type*} (f : ℕ → Except ε α) (r : α) : Prop :=
  ∃ n₀, ∀ n, n₀ ≤ n → f n = .ok r

section Fuel

variable {ε α β : Type*} {f g : ℕ → Except ε α} {r r' : α} {x y x' y' : Except ε α}

theorem Returns.unique (h : Returns f r) (h' : Returns f r') : r = r' := by
  obtain ⟨n, hn⟩ := h
  obtain ⟨m, hm⟩ := h'
  have h1 := hn (max n m) (le_max_left _ _)
  have h2 := hm (max n m) (le_max_right _ _)
  rw [h1] at h2
  exact Except.ok.inj h2

/-- One turn of a loop: with one more unit of fuel `g` does what `f` does. -/
theorem Returns.turn (h : Returns f r) (hg : ∀ n, g (n + 1) = f n) : Returns g r := by
  obtain ⟨n₀, hn₀⟩ := h
  refine ⟨n₀ + 1, ?_⟩
  intro n hn
  obtain ⟨k, rfl⟩ : ∃ k, n = k + 1 := ⟨n - 1, by omega⟩
  rw [hg k]
  exact hn₀ k (by omega)

/-- The last turn of a loop. -/
theorem Returns.stop (hg : ∀ n, g (n + 1) = .ok r) : Returns g r :=
  Returns.turn ⟨0, fun _ _ => rfl⟩ hg

/-- Two calls with the same fuel, one after the other. -/
theorem Returns.bind {g : ℕ → Except ε β} {a : α} {r : β} {k : α → ℕ → Except ε β}
    (hf : Returns f a) (hk : Returns (k a) r)
    (hg : ∀ n, f n = .ok a → g n = k a n) : Returns g r := by
  obtain ⟨n₀, hn₀⟩ := hf
  obtain ⟨m₀, hm₀⟩ := hk
  refine ⟨max n₀ m₀, ?_⟩
  intro n hn
  rw [hg n (hn₀ n (le_trans (le_max_left _ _) hn))]
  exact hm₀ n (le_trans (le_max_right _ _) hn)

theorem Returns.pure (r : α) : Returns (fun _ => (.ok r : Except ε α)) r :=
  ⟨0, fun _ _ => rfl⟩

/-- A `do` block: one call, then the rest of the block on its answer. -/
theorem Returns.andThen {ε α β : Type} {f : ℕ → Except ε α} {k : ℕ → α → Except ε β} {a : α}
    {r : β} (hf : Returns f a) (hk : Returns (fun n => k n a) r) :
    Returns (fun n => f n >>= k n) r := by
  refine Returns.bind (k := fun a n => k n a) hf hk fun n hn => ?_
  show (f n >>= k n) = k n a
  rw [hn]
  rfl

theorem Returns.map (g : α → β) (h : Returns f r) :
    Returns (fun n => (f n).map g) (g r) := by
  obtain ⟨n₀, hn₀⟩ := h
  refine ⟨n₀, fun n hn => ?_⟩
  show (f n).map g = .ok (g r)
  rw [hn₀ n hn]
  rfl

/-- `y` succeeds wherever `x` does, with the same result. -/
def Approx {ε α : Type*} (x y : Except ε α) : Prop := ∀ r, x = .ok r → y = .ok r

theorem Approx.refl (x : Except ε α) : Approx x x := fun _ h => h

theorem Approx.error {e : ε} (y : Except ε α) : Approx (.error e) y :=
  fun _ h => by cases h

theorem Approx.bind {ε α β : Type} {x y : Except ε α} {f g : α → Except ε β} (h : Approx x y)
    (hf : ∀ a, Approx (f a) (g a)) : Approx (x >>= f) (y >>= g) := by
  intro r hr
  cases x with
  | error e => cases hr
  | ok a =>
    rw [h a rfl]
    exact hf a r hr

theorem Approx.map (k : α → β) (h : Approx x y) : Approx (x.map k) (y.map k) := by
  intro r hr
  cases x with
  | error e => cases hr
  | ok a =>
    rw [h a rfl]
    exact hr

theorem Approx.ite {p : Prop} [Decidable p] (h : Approx x y) (h' : Approx x' y') :
    Approx (if p then x else x') (if p then y else y') := by
  split
  · exact h
  · exact h'

/-- **Fuel does not matter**: when one more unit never changes an answer, one answer is
the answer for all larger amounts. -/
theorem returns_of_approx {n : ℕ} (h : ∀ n, Approx (f n) (f (n + 1))) (hn : f n = .ok r) :
    Returns f r := by
  refine ⟨n, fun m hm => ?_⟩
  induction m, hm using Nat.le_induction with
  | base => exact hn
  | succ m _ ih => exact h m r ih

end Fuel

/-! ## §3. Fallible code. -/

theorem bind_ok {ε α β : Type} {x : Except ε α} {f : α → Except ε β} {b : β} :
    x >>= f = .ok b ↔ ∃ a, x = .ok a ∧ f a = .ok b := by
  cases x with
  | error e =>
    constructor
    · intro h
      cases h
    · rintro ⟨a, ha, -⟩
      cases ha
  | ok a =>
    constructor
    · intro h
      exact ⟨a, rfl, h⟩
    · rintro ⟨a', ha, h⟩
      cases ha
      exact h

theorem map_ok {ε α β : Type*} {x : Except ε α} {f : α → β} {b : β} :
    x.map f = .ok b ↔ ∃ a, x = .ok a ∧ f a = b := by
  cases x with
  | error e => simp [Except.map]
  | ok a => simp [Except.map]

end ExoCore.Lib
