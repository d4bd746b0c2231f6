/-
  ExoCore.Lib.Tables — fixed tables.

  A table of `n` entries is a function on `Fin n`, and a call changes one entry of
  it.  Two things are said of such tables everywhere: how a SUM over the entries
  moves with the one that changed, and which entry a linear SEARCH finds first.
-/
import Mathlib.Algebra.BigOperators.Fin
import Mathlib.Algebra.Order.BigOperators.Group.Finset
import Mathlib.Data.List.FinRange
import Mathlib.Tactic.Ring

namespace ExoCore.Lib

open Function List Finset

/-! ## §1. Sums over a table. -/

section Sums

variable {ι α : Type*} [Fintype ι] (f : ι → α) (w : α → ℕ)

/-- **One entry changed**: the sum loses the weight of the old entry and gains that of the
new one. -/
theorem sum_update_add [DecidableEq ι] (i : ι) (x : α) :
    ∑ j, w (update f i x j) + w (f i) = ∑ j, w (f j) + w x := by
  have hnew := add_sum_erase Finset.univ (fun j => w (update f i x j))
    (mem_univ i)
  have hold := add_sum_erase Finset.univ (fun j => w (f j)) (mem_univ i)
  have hrest : ∑ j ∈ Finset.univ.erase i, w (update f i x j) =
      ∑ j ∈ Finset.univ.erase i, w (f j) := by
    refine sum_congr rfl fun j hj => ?_
    rw [update_of_ne (ne_of_mem_erase hj)]
  rw [update_self] at hnew
  rw [← hnew, ← hold, hrest]
  ring

end Sums

/-! ## §2. Linear search. -/

/-- `find?` keeps its answer when other candidates only fall away. -/
theorem find?_of_imp {α : Type*} {p q : α → Bool} {l : List α} {a : α} (h : l.find? p = some a)
    (hq : ∀ b, q b = true → p b = true) (ha : q a = true) : l.find? q = some a := by
  obtain ⟨-, l₁, l₂, rfl, hl₁⟩ := find?_eq_some_iff_append.mp h
  refine find?_eq_some_iff_append.mpr ⟨ha, l₁, l₂, rfl, ?_⟩
  intro b hb
  have hpb := hl₁ b hb
  cases hqb : q b with
  | false => rfl
  | true => simp [hq b hqb] at hpb

section Search

variable {n : ℕ} {p : Fin n → Bool} {i : Fin n}

/-- What the search finds passes, and nothing before it does. -/
theorem first_of_find? (h : (List.finRange n).find? p = some i) :
    p i = true ∧ ∀ j < i, p j = false := by
  obtain ⟨hi, before, after, hsplit, hbefore⟩ := find?_eq_some_iff_append.mp h
  refine ⟨hi, fun j hj => ?_⟩
  -- the list is sorted, so what stands before `i` is all that is below it
  have hsorted : (before ++ i :: after).Pairwise (· < ·) := by
    rw [← hsplit]
    exact pairwise_lt_finRange n
  have hafter := (pairwise_cons.mp (pairwise_append.mp hsorted).2.1).1
  have hmem : j ∈ before ++ i :: after := by
    rw [← hsplit]
    exact mem_finRange j
  rcases mem_append.mp hmem with hb | hb
  · simpa using hbefore j hb
  · rcases mem_cons.mp hb with rfl | ha
    · exact absurd hj (lt_irrefl j)
    · exact absurd (hafter j ha) (lt_asymm hj)

/-- The search finds the FIRST entry that passes. -/
theorem find?_finRange_eq_some :
    (List.finRange n).find? p = some i ↔ p i = true ∧ ∀ j < i, p j = false := by
  refine ⟨first_of_find?, ?_⟩
  rintro ⟨hi, hfirst⟩
  cases hf : (List.finRange n).find? p with
  | none => exact absurd hi (find?_eq_none.mp hf i (mem_finRange i))
  | some k =>
    obtain ⟨hk, hfirst'⟩ := first_of_find? hf
    rcases lt_trichotomy k i with hlt | rfl | hlt
    · rw [hfirst k hlt] at hk
      cases hk
    · rfl
    · rw [hfirst' i hlt] at hi
      cases hi

/-- It finds nothing when nothing passes. -/
theorem find?_finRange_eq_none : (List.finRange n).find? p = none ↔ ∀ i, p i = false := by
  rw [find?_eq_none]
  constructor
  · intro h i
    simpa using h i (mem_finRange i)
  · intro h i _
    rw [h i]
    exact Bool.false_ne_true

/-- When only one entry passes, the search finds it. -/
theorem find?_finRange_unique (hi : p i = true) (honly : ∀ j, p j = true → j = i) :
    (List.finRange n).find? p = some i := by
  refine find?_finRange_eq_some.mpr ⟨hi, fun j hj => ?_⟩
  cases hp : p j with
  | false => rfl
  | true => exact absurd (honly j hp) hj.ne

end Search

/-! ## §3. Keys. -/

/-- **Distinct keys stay distinct** when one entry is written with a key no other one has. -/
theorem distinct_write {ι α κ : Type*} {f g : ι → α} (p : α → Prop) (key : α → κ) (i : ι)
    (h : ∀ j k, p (f j) → p (f k) → key (f j) = key (f k) → j = k)
    (hold : ∀ j, j ≠ i → g j = f j) (hnew : p (g i) → ∀ j, j ≠ i → p (f j) → key (f j) ≠ key (g i))
    (j k : ι) (hj : p (g j)) (hk : p (g k)) (hjk : key (g j) = key (g k)) : j = k := by
  by_cases hji : j = i <;> by_cases hki : k = i
  · rw [hji, hki]
  · subst hji
    rw [hold k hki] at hk hjk
    exact absurd hjk.symm (hnew hj k hki hk)
  · subst hki
    rw [hold j hji] at hj hjk
    exact absurd hjk (hnew hk j hji hj)
  · rw [hold j hji] at hj hjk
    rw [hold k hki] at hk hjk
    exact h j k hj hk hjk

/-! ## §4. Tables with the same entries in use. -/

section Agree

variable {ι α : Type*} {p : α → Prop} {f g : ι → α}

/-- The entries that `p` holds of are the same in both tables; the others may differ. -/
def AgreeOn (p : α → Prop) (f g : ι → α) : Prop :=
  ∀ i, (p (g i) ↔ p (f i)) ∧ (p (f i) → g i = f i)

theorem AgreeOn.refl (p : α → Prop) (f : ι → α) : AgreeOn p f f :=
  fun _ => ⟨Iff.rfl, fun _ => rfl⟩

/-- Writing an entry that is not in use, and is not afterwards. -/
theorem AgreeOn.update [DecidableEq ι] (h : AgreeOn p f g) {i : ι} {x : α} (hf : ¬ p (f i))
    (hx : ¬ p x) : AgreeOn p f (update g i x) := by
  refine (forall_update_iff g fun j y => (p y ↔ p (f j)) ∧ (p (f j) → y = f j)).mpr ⟨?_, fun j _ => h j⟩
  exact ⟨iff_of_false hx hf, fun hp => absurd hp hf⟩

/-- One entry changed, and it is in use in neither table. -/
theorem agreeOn_of_ne {i : ι} (h : ∀ j, j ≠ i → g j = f j) (hf : ¬ p (f i)) (hg : ¬ p (g i)) :
    AgreeOn p f g := by
  intro j
  by_cases hj : j = i
  · subst hj
    exact ⟨iff_of_false hg hf, fun hp => absurd hp hf⟩
  · rw [h j hj]
    exact ⟨Iff.rfl, fun _ => rfl⟩

end Agree

end ExoCore.Lib
