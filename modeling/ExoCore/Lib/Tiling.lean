/-
  ExoCore.Lib.Tiling — a set of addresses cut into blocks.

  A set `B` of block addresses with a size function TILES the set of bytes `R`
  when the blocks are non-empty, lie in `R`, do not overlap and leave no byte of
  `R` out.  The three ways an allocator changes a tiling:

    * `Tiling.extend` — a new block is carved from bytes outside `R`,
    * `Tiling.split`  — a block is cut in two,
    * `Tiling.merge`  — two adjacent blocks become one.

  All three take blocks out (`erase`) and put others in (`union`).

  `Tiling.sum_size` is the conservation law behind all three: the block sizes add
  up to the number of bytes.  `Tiling.whole`: an interval that is tiled without
  adjacent blocks is one block.
-/
import ExoCore.Lib.Bytes
import Mathlib.Algebra.BigOperators.Group.Finset.Basic
import Mathlib.Data.Set.Basic
import Mathlib.Order.Interval.Finset.Nat

namespace ExoCore.Lib

open Finset

/-- `B` cuts `R` into non-empty, non-overlapping blocks. -/
structure Tiling (B : Set ℕ) (size : ℕ → ℕ) (R : Set ℕ) : Prop where
  pos : ∀ a ∈ B, 0 < size a
  inside : ∀ a ∈ B, ∀ x, a ≤ x → x < a + size a → x ∈ R
  apart : ∀ a ∈ B, ∀ b ∈ B, a ≠ b → Apart a (size a) b (size b)
  cover : ∀ x ∈ R, ∃ a ∈ B, a ≤ x ∧ x < a + size a

namespace Tiling

variable {B B' R R' : Set ℕ} {size size' : ℕ → ℕ} {a b n : ℕ}

section

variable (h : Tiling B size R)
include h

/-- A tiling only reads the sizes of its own blocks. -/
theorem congr (hB : ∀ x, x ∈ B' ↔ x ∈ B) (hsize : ∀ x ∈ B, size' x = size x) :
    Tiling B' size' R := by
  obtain rfl : B' = B := Set.ext hB
  refine ⟨?_, ?_, ?_, ?_⟩
  · intro a ha
    rw [hsize a ha]
    exact h.pos a ha
  · intro a ha
    rw [hsize a ha]
    exact h.inside a ha
  · intro a ha b hb hab
    rw [hsize a ha, hsize b hb]
    exact h.apart a ha b hb hab
  · intro x hx
    obtain ⟨a, ha, hax⟩ := h.cover x hx
    refine ⟨a, ha, ?_⟩
    rw [hsize a ha]
    exact hax

/-- A block is taken out, with its bytes. -/
theorem erase (hb : b ∈ B) : Tiling (B \ {b}) size (R \ Set.Ico b (b + size b)) := by
  refine ⟨fun a ha => h.pos a ha.1, ?_, fun a ha c hc => h.apart a ha.1 c hc.1, ?_⟩
  · intro a ha x h1 h2
    have hap := h.apart a ha.1 b hb ha.2
    unfold Apart at hap
    refine ⟨h.inside a ha.1 x h1 h2, fun hx => ?_⟩
    rw [Set.mem_Ico] at hx
    omega
  · rintro x ⟨hx, hout⟩
    obtain ⟨a, ha, hax⟩ := h.cover x hx
    refine ⟨a, ⟨ha, fun hab => ?_⟩, hax⟩
    cases hab
    exact hout hax

/-- Two tilings of disjoint sets. -/
theorem union (h' : Tiling B' size R') (hout : ∀ x ∈ R, x ∉ R') :
    Tiling (B ∪ B') size (R ∪ R') := by
  -- of two blocks that meet, the later one starts inside the other
  have key : ∀ a ∈ B, ∀ b ∈ B', Apart a (size a) b (size b) := by
    intro a ha b hb
    have h1 := h.pos a ha
    have h2 := h'.pos b hb
    by_contra hmeet
    unfold Apart at hmeet
    by_cases hab : a ≤ b
    · exact hout b (h.inside a ha b hab (by omega)) (h'.inside b hb b le_rfl (by omega))
    · exact hout a (h.inside a ha a le_rfl (by omega)) (h'.inside b hb a (by omega) (by omega))
  refine ⟨?_, ?_, ?_, ?_⟩
  · rintro a (ha | ha)
    exacts [h.pos a ha, h'.pos a ha]
  · rintro a (ha | ha) x h1 h2
    exacts [.inl (h.inside a ha x h1 h2), .inr (h'.inside a ha x h1 h2)]
  · rintro a (ha | ha) b (hb | hb) hab
    exacts [h.apart a ha b hb hab, key a ha b hb, (key b hb a ha).symm, h'.apart a ha b hb hab]
  · rintro x (hx | hx)
    · obtain ⟨a, ha, hax⟩ := h.cover x hx
      exact ⟨a, .inl ha, hax⟩
    · obtain ⟨a, ha, hax⟩ := h'.cover x hx
      exact ⟨a, .inr ha, hax⟩

omit h in
/-- One block. -/
theorem single (hb : 0 < size b) : Tiling {b} size (Set.Ico b (b + size b)) := by
  refine ⟨?_, ?_, ?_, fun x hx => ⟨b, rfl, hx⟩⟩
  · rintro _ rfl
    exact hb
  · rintro _ rfl x h1 h2
    exact ⟨h1, h2⟩
  · rintro _ rfl _ rfl hne
    exact absurd rfl hne

/-- **Carving** a block of `n` bytes at `b`, all of them outside `R`. -/
theorem extend (hn : 0 < n) (hout : ∀ x, b ≤ x → x < b + n → x ∉ R)
    (hB : ∀ x, x ∈ B' ↔ x = b ∨ x ∈ B) (hR : ∀ x, x ∈ R' ↔ (b ≤ x ∧ x < b + n) ∨ x ∈ R)
    (hnew : size' b = n) (hold : ∀ x ∈ B, size' x = size x) : Tiling B' size' R' := by
  subst hnew
  obtain rfl : B' = {b} ∪ B := Set.ext hB
  obtain rfl : R' = Set.Ico b (b + size' b) ∪ R := Set.ext hR
  exact (single hn).union (h.congr (fun _ => .rfl) hold) fun x hx => hout x hx.1 hx.2

/-- **Cutting** block `b` after its first `n` bytes. -/
theorem split (hb : b ∈ B) (hn : 0 < n) (hlt : n < size b) (hB : ∀ x, x ∈ B' ↔ x = b + n ∨ x ∈ B)
    (hleft : size' b = n) (hright : size' (b + n) = size b - n)
    (hold : ∀ x ∈ B, x ≠ b → size' x = size x) : Tiling B' size' R := by
  have hin := h.inside b hb
  have h₁ : Tiling (B \ {b}) size' _ :=
    (h.erase hb).congr (fun _ => .rfl) fun x hx => hold x hx.1 hx.2
  have h₂ : Tiling {b} size' _ := single (by omega)
  have h₃ : Tiling {b + n} size' _ := single (by omega)
  have h₄ := (h₂.union h₃ (by grind)).union h₁ (by grind)
  convert h₄ using 1
  · grind
  · grind

/-- **Joining** block `a` with the block `b` that starts where `a` ends. -/
theorem merge (ha : a ∈ B) (hb : b ∈ B) (hab : a + size a = b) (hB : ∀ x, x ∈ B' ↔ x ∈ B ∧ x ≠ b)
    (hsum : size' a = size a + size b) (hold : ∀ x ∈ B, x ≠ a → x ≠ b → size' x = size x) :
    Tiling B' size' R := by
  have hapos := h.pos a ha
  have hina := h.inside a ha
  have hinb := h.inside b hb
  have hba : b ≠ a := by omega
  have h₁ : Tiling ((B \ {a}) \ {b}) size' _ := ((h.erase ha).erase ⟨hb, hba⟩).congr
    (fun _ => .rfl) fun x hx => hold x hx.1.1 hx.1.2 hx.2
  have h₂ : Tiling {a} size' _ := single (by omega)
  have h₃ := h₂.union h₁ (by grind)
  convert h₃ using 1
  · grind
  · grind

/-- **An interval without adjacent blocks is one block.**  The blocks that meet `[lo, hi)`
lie in it, and none of them starts where another one ends. -/
theorem whole {lo hi : ℕ} (hlt : lo < hi) (hR : ∀ x, lo ≤ x → x < hi → x ∈ R)
    (hin : ∀ a ∈ B, ∀ x, lo ≤ x → x < hi → a ≤ x → x < a + size a → lo ≤ a ∧ a + size a ≤ hi)
    (hsep : ∀ a ∈ B, ∀ b ∈ B, lo ≤ a → a + size a ≤ hi → lo ≤ b → b + size b ≤ hi →
      a + size a ≠ b) : lo ∈ B ∧ lo + size lo = hi ∧ ∀ a ∈ B, lo ≤ a → a < hi → a = lo := by
  obtain ⟨a, ha, hle, hlo⟩ := h.cover lo (hR lo (le_refl lo) hlt)
  obtain ⟨h1, h2⟩ := hin a ha lo (le_refl lo) hlt hle hlo
  obtain rfl : a = lo := by omega
  have hend : a + size a = hi := by
    by_contra hne
    -- the byte behind the block belongs to a block that starts there
    obtain ⟨b, hb, hbx, hxb⟩ := h.cover (a + size a) (hR _ (by omega) (by omega))
    obtain ⟨h3, h4⟩ := hin b hb (a + size a) (by omega) (by omega) hbx hxb
    have hab : a ≠ b := by
      rintro rfl
      omega
    have hap := h.apart a ha b hb hab
    unfold Apart at hap
    exact hsep a ha b hb h1 h2 h3 h4 (by omega)
  refine ⟨ha, hend, fun b hb hab hbhi => ?_⟩
  by_contra hne
  have hap := h.apart b hb a ha hne
  unfold Apart at hap
  have := h.pos b hb
  omega

end

/-- **Conservation**: the sizes of the blocks add up to the number of bytes. -/
theorem sum_size {B R : Finset ℕ} (h : Tiling {b | b ∈ B} size {x | x ∈ R}) :
    ∑ b ∈ B, size b = R.card := by
  -- the blocks are intervals, pairwise disjoint, and their union is `R`
  have hunion : R = B.biUnion fun b => Finset.Ico b (b + size b) := by
    ext x
    rw [mem_biUnion]
    constructor
    · intro hx
      obtain ⟨a, ha, hax⟩ := h.cover x hx
      exact ⟨a, ha, mem_Ico.mpr hax⟩
    · rintro ⟨a, ha, hax⟩
      obtain ⟨h1, h2⟩ := mem_Ico.mp hax
      exact h.inside a ha x h1 h2
  have hdisj : (B : Set ℕ).PairwiseDisjoint fun b => Finset.Ico b (b + size b) := by
    intro a ha b hb hab
    have hap := h.apart a ha b hb hab
    refine disjoint_left.mpr fun x hxa hxb => ?_
    rw [mem_Ico] at hxa hxb
    unfold Apart at hap
    omega
  rw [hunion, card_biUnion hdisj]
  refine sum_congr rfl fun b _ => ?_
  rw [Nat.card_Ico, Nat.add_sub_cancel_left]

end Tiling

end ExoCore.Lib
