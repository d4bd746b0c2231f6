/-
  ExoCore.Lib.Paint — drawing over a canvas, and REPAINTING ONLY WHAT CHANGED.

  A canvas is a function from places to colours.  A drawing operation `Paints` a
  STROKE: at each place a colour, or nothing.  A loop of operations paints the topmost
  of its strokes, so what a drawing shows at a place is a question about the list of
  strokes there and never about the order of single writes.

  When is it enough to repaint the entries that changed?  A place that only strokes of
  ONE KEY reach is right (`repaint_of_sameKey`), and so is one where everything has one
  colour; any other place that strokes of two keys reach is wrong for some drawing
  (`repaint_fails`).
-/
import ExoCore.Lib.Loop
import Mathlib.Logic.Function.Basic
import Mathlib.Data.List.ProdSigma

namespace ExoCore.Lib

open Function List

variable {ι κ P C V : Type*}

/-! ## §1. The topmost stroke. -/

/-- The last of the strokes in `l` that colours the place. -/
def topmost (l : List ι) (s : ι → Option C) : Option C := l.reverse.findSome? s

@[simp] theorem topmost_nil (s : ι → Option C) : topmost [] s = none := rfl

theorem topmost_cons (i : ι) (l : List ι) (s : ι → Option C) :
    topmost (i :: l) s = (topmost l s).or (s i) := by
  have hone : [i].findSome? s = s i := by
    rw [findSome?_cons]
    cases s i <;> rfl
  unfold topmost
  rw [reverse_cons, findSome?_append, hone]

theorem topmost_append (l l' : List ι) (s : ι → Option C) :
    topmost (l ++ l') s = (topmost l' s).or (topmost l s) := by
  unfold topmost
  rw [reverse_append, findSome?_append]

variable {l : List ι} {s : ι → Option C}

theorem topmost_congr {s' : ι → Option C} (h : ∀ i ∈ l, s i = s' i) :
    topmost l s = topmost l s' := by
  induction l with
  | nil => rfl
  | cons i l ih =>
    rw [topmost_cons, topmost_cons, h i mem_cons_self,
      ih fun j hj => h j (mem_cons_of_mem i hj)]

theorem topmost_eq_none :
    topmost l s = none ↔ ∀ i ∈ l, s i = none := by
  induction l with
  | nil => simp
  | cons i l ih => rw [topmost_cons, Option.or_eq_none_iff, ih, forall_mem_cons, and_comm]

/-- Strokes of one colour. -/
theorem topmost_const {c : C}
    (h : ∀ i ∈ l, s i = none ∨ s i = some c) (hex : ∃ i ∈ l, s i ≠ none) :
    topmost l s = some c := by
  induction l with
  | nil =>
    obtain ⟨i, hi, -⟩ := hex
    cases hi
  | cons i l ih =>
    rw [topmost_cons]
    by_cases hl : ∃ j ∈ l, s j ≠ none
    · rw [ih (fun j hj => h j (mem_cons_of_mem i hj)) hl]
      rfl
    · have hnone : topmost l s = none :=
        topmost_eq_none.mpr fun j hj => by_contra fun hne => hl ⟨j, hj, hne⟩
      obtain ⟨j, hj, hne⟩ := hex
      rcases mem_cons.mp hj with rfl | hj
      · rw [hnone, (h j mem_cons_self).resolve_left hne]
        rfl
      · exact absurd ⟨j, hj, hne⟩ hl

/-- A place that one stroke reaches. -/
theorem topmost_single {k : ι} (hk : k ∈ l)
    (h : ∀ i ∈ l, i ≠ k → s i = none) : topmost l s = s k := by
  cases hs : s k with
  | none =>
    refine topmost_eq_none.mpr fun i hi => ?_
    by_cases hik : i = k
    · rw [hik, hs]
    · exact h i hi hik
  | some c =>
    refine topmost_const (fun i hi => ?_) ⟨k, hk, by rw [hs]; exact Option.some_ne_none c⟩
    by_cases hik : i = k
    · exact .inr (by rw [hik, hs])
    · exact .inl (h i hi hik)

/-- Which stroke is the topmost one depends only on which strokes are there. -/
theorem exists_last (cov : ι → Prop) (hex : ∃ i ∈ l, cov i) :
    ∃ k ∈ l, cov k ∧ ∀ s : ι → Option C, (∀ i ∈ l, s i ≠ none ↔ cov i) → topmost l s = s k := by
  induction l with
  | nil =>
    obtain ⟨i, hi, -⟩ := hex
    cases hi
  | cons i l ih =>
    by_cases hl : ∃ j ∈ l, cov j
    · obtain ⟨k, hk, hcov, hlast⟩ := ih hl
      refine ⟨k, mem_cons_of_mem i hk, hcov, ?_⟩
      intro s hs
      have hs' : ∀ j ∈ l, s j ≠ none ↔ cov j := fun j hj => hs j (mem_cons_of_mem i hj)
      rw [topmost_cons, hlast s hs']
      obtain ⟨c, hc⟩ := Option.ne_none_iff_exists'.mp ((hs' k hk).mpr hcov)
      rw [hc]
      rfl
    · obtain ⟨j, hj, hcov⟩ := hex
      rcases mem_cons.mp hj with rfl | hj
      · refine ⟨j, mem_cons_self, hcov, ?_⟩
        intro s hs
        have hnone : topmost l s = none := by
          refine topmost_eq_none.mpr fun k hk => by_contra fun hne => hl ⟨k, hk, ?_⟩
          exact (hs k (mem_cons_of_mem j hk)).mp hne
        rw [topmost_cons, hnone]
        rfl
      · exact absurd ⟨j, hj, hcov⟩ hl

/-- Strokes made of strokes. -/
theorem topmost_product {ι' : Type*} (l : List ι) (l' : List ι') (s : ι → ι' → Option C) :
    (topmost l fun i => topmost l' (s i)) = topmost (l ×ˢ l') fun q => s q.1 q.2 := by
  have hmap : ∀ i, topmost (l'.map fun j => (i, j)) (fun q : ι × ι' => s q.1 q.2) = topmost l' (s i) := by
    intro i
    unfold topmost
    rw [← map_reverse, findSome?_map]
    rfl
  induction l with
  | nil => rfl
  | cons i l ih =>
    rw [topmost_cons, product_cons, topmost_append, ih, hmap]

/-! ## §2. Operations that paint. -/

/-- `f` lays the stroke `s` over a canvas. -/
def Paints (f : (P → C) → P → C) (s : P → Option C) : Prop := ∀ m p, f m p = (s p).getD (m p)

/-- An operation that is skipped where `p` holds. -/
theorem Paints.skipIf {f : (P → C) → P → C} {s : P → Option C} (p : Prop) [Decidable p]
    (h : Paints f s) : Paints (fun m => if p then m else f m) fun x => if p then none else s x := by
  intro m x
  by_cases hp : p
  · simp only [if_pos hp]
    rfl
  · simp only [if_neg hp]
    exact h m x

/-- **A loop paints the topmost of its strokes.** -/
theorem Paints.forUpto {n : ℕ} {body : ℕ → (P → C) → P → C} {s : ℕ → P → Option C}
    (h : ∀ i, i < n → Paints (body i) (s i)) :
    Paints (forUpto n body) fun p => topmost (List.range n) fun i => s i p := by
  induction n with
  | zero => exact fun _ _ => rfl
  | succ n ih =>
    intro m p
    rw [forUpto_succ, h n (Nat.lt_succ_self n), ih fun i hi => h i (Nat.lt_succ_of_lt hi)]
    dsimp only
    rw [range_succ, topmost_append, topmost_cons, topmost_nil]
    cases s n p <;> rfl

/-- Two loops paint the topmost of the strokes of all pairs. -/
theorem Paints.nested {a b : ℕ} {body : ℕ → ℕ → (P → C) → P → C} {s : ℕ × ℕ → P → Option C}
    (h : ∀ i j, i < a → j < b → Paints (body i j) (s (i, j))) :
    Paints (Lib.forUpto a fun i => Lib.forUpto b (body i)) fun p =>
      topmost (List.range a ×ˢ List.range b) fun q => s q p := by
  intro m p
  have houter := Paints.forUpto (fun i hi => Paints.forUpto fun j hj => h i j hi hj) m p
  rw [houter]
  exact congrArg (Option.getD · (m p)) (topmost_product _ _ fun i j => s (i, j) p)

/-! ## §3. Repainting. -/

section Repaint

variable [DecidableEq V] (key : ι → κ) (s : ι → V → Option C)

/-- The strokes of a repaint: only those whose value changed. -/
def changedStroke (curr prev : κ → V) (i : ι) : Option C :=
  if curr (key i) = prev (key i) then none else s i (curr (key i))

/-- What all strokes together show at a place. -/
def drawn (l : List ι) (val : κ → V) : Option C := topmost l fun i => s i (val (key i))

/-- Over the drawing of `prev`, the changed strokes show what all strokes of `curr` show. -/
def Repaints (l : List ι) (curr prev : κ → V) (c : C) : Prop :=
  (topmost l (changedStroke key s curr prev)).getD ((drawn key s l prev).getD c) =
    (drawn key s l curr).getD ((drawn key s l prev).getD c)

variable {l : List ι} {key s} (hcov : ∀ i ∈ l, ∀ v w, s i v = none → s i w = none)

/-- At a place that only changed strokes reach, all strokes are repainted. -/
theorem changedStroke_all {curr prev : κ → V}
    (h : ∀ j ∈ l, s j (curr (key j)) ≠ none → curr (key j) ≠ prev (key j)) :
    topmost l (changedStroke key s curr prev) = drawn key s l curr := by
  refine topmost_congr fun j hj => ?_
  unfold changedStroke
  by_cases hnone : s j (curr (key j)) = none
  · rw [hnone, ite_self]
  · rw [if_neg (h j hj hnone)]

include hcov

/-- **Repainting is enough** at a place that strokes of one key reach. -/
theorem repaint_of_sameKey
    (hsame : ∀ i ∈ l, ∀ j ∈ l, ∀ v, s i v ≠ none → s j v ≠ none → key i = key j)
    (curr prev : κ → V) (c : C) : Repaints key s l curr prev c := by
  unfold Repaints
  by_cases hex : ∃ i ∈ l, ∃ v, s i v ≠ none
  · obtain ⟨i, hi, v, hv⟩ := hex
    -- every other stroke at this place has the key of `i`
    have hkey : ∀ j ∈ l, ∀ w, s j w ≠ none → key j = key i := fun j hj w hw =>
      hsame j hj i hi v (fun h => hw (hcov j hj v w h)) hv
    by_cases hchanged : curr (key i) = prev (key i)
    · have hnone : topmost l (changedStroke key s curr prev) = none := by
        refine topmost_eq_none.mpr fun j hj => ?_
        unfold changedStroke
        by_cases hj' : s j (curr (key j)) = none
        · rw [hj', ite_self]
        · rw [hkey j hj _ hj', if_pos hchanged]
      have heq : drawn key s l curr = drawn key s l prev := by
        refine topmost_congr fun j hj => ?_
        by_cases hj' : s j (curr (key j)) = none
        · rw [hj', hcov j hj _ _ hj']
        · rw [hkey j hj _ hj', hchanged]
      rw [hnone, heq]
      cases drawn key s l prev <;> rfl
    · rw [changedStroke_all fun j hj hne => ?_]
      rw [hkey j hj _ hne]
      exact hchanged
  · rw [changedStroke_all fun j hj hne => absurd ⟨j, hj, _, hne⟩ hex]

/-- At a place where everything has one colour, repainting is enough too. -/
theorem repaint_of_oneColor {d : C} (hone : ∀ i ∈ l, ∀ v, s i v = none ∨ s i v = some d)
    (curr prev : κ → V) (c : C) : Repaints key s l curr prev c := by
  unfold Repaints
  by_cases hex : ∃ i ∈ l, ∃ v, s i v ≠ none
  · obtain ⟨i, hi, v, hv⟩ := hex
    have hfull : ∀ val : κ → V, drawn key s l val = some d := fun val =>
      topmost_const (fun j hj => hone j hj _) ⟨i, hi, fun h => hv (hcov i hi _ _ h)⟩
    rw [hfull, hfull]
    by_cases hany : ∃ j ∈ l, changedStroke key s curr prev j ≠ none
    · have hdirty : topmost l (changedStroke key s curr prev) = some d := by
        refine topmost_const (fun j hj => ?_) hany
        unfold changedStroke
        split
        · exact .inl rfl
        · exact hone j hj _
      rw [hdirty]
    · rw [topmost_eq_none.mpr fun j hj => by_contra fun hne => hany ⟨j, hj, hne⟩]
      rfl
  · rw [changedStroke_all fun j hj hne => absurd ⟨j, hj, _, hne⟩ hex]

/-- **Repainting is not enough** at a place that strokes of two keys reach: when two
values show as two colours there, some change of one value is not repainted. -/
theorem repaint_fails [DecidableEq κ] {v w : V} {cv cw c : C} (hne : cv ≠ cw)
    (hv : ∀ i ∈ l, s i v = none ∨ s i v = some cv) (hw : ∀ i ∈ l, s i w = none ∨ s i w = some cw)
    {i j : ι} (hi : i ∈ l) (hj : j ∈ l)
    (hiv : s i v ≠ none) (hjv : s j v ≠ none) (hkey : key i ≠ key j) :
    ∃ curr prev : κ → V, ¬ Repaints key s l curr prev c := by
  obtain ⟨k, hk, hkv, hlast⟩ := exists_last (C := C) (fun i => s i v ≠ none) ⟨i, hi, hiv⟩
  -- one of the two keys is not that of the topmost stroke
  obtain ⟨a, ha, hav, hak⟩ : ∃ a ∈ l, s a v ≠ none ∧ key k ≠ key a := by
    by_cases hki : key k = key i
    · exact ⟨j, hj, hjv, fun h => hkey (hki.symm.trans h)⟩
    · exact ⟨i, hi, hiv, hki⟩
  have hvw : v ≠ w := by
    rintro rfl
    have h1 := (hv k hk).resolve_left hkv
    have h2 := (hw k hk).resolve_left hkv
    exact hne (Option.some.inj (h1.symm.trans h2))
  refine ⟨update (fun _ => v) (key a) w, fun _ => v, ?_⟩
  have hfull : drawn key s l (update (fun _ => v) (key a) w) = some cv := by
    unfold drawn
    rw [hlast]
    · rw [update_of_ne hak]
      exact (hv k hk).resolve_left hkv
    · intro i hi
      exact not_congr ⟨hcov i hi _ _, hcov i hi _ _⟩
  have hdirty : topmost l (changedStroke key s (update (fun _ => v) (key a) w) fun _ => v) =
      some cw := by
    refine topmost_const ?_ ⟨a, ha, ?_⟩
    · intro i hi
      unfold changedStroke
      by_cases hia : key i = key a
      · rw [hia, update_self, if_neg hvw.symm]
        exact hw i hi
      · rw [update_of_ne hia, if_pos rfl]
        exact .inl rfl
    · unfold changedStroke
      rw [update_self, if_neg hvw.symm]
      exact fun h => hav (hcov a ha _ _ h)
  unfold Repaints
  rw [hfull, hdirty]
  exact fun h => hne h.symm

end Repaint

end ExoCore.Lib
