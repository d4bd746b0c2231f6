/-
  ExoCore.Mem.BestFit — what `acquire_from_free_list` does with the list and the memory.

    * `acquire_takes_best_fit` — for a total that counts its header, the first block of least
      sufficient size is marked active and replaced in the list by what is left of it; no byte
      outside that block changes but the link to it;
    * `acquire_short_total`    — a smaller total puts the two headers of a cut into each other.
-/
import ExoCore.Mem.Take

namespace ExoCore.Mem

open ExoCore.Lib

/-- The block `b` between `l₁` and `l₂` is the best fit, and `s'` is the heap without it. -/
structure Taken (s s' : Heap) (l₁ l₂ : List ℕ) (b total : ℕ) : Prop
    extends Spliced s s' l₁ l₂ b total where
  fits : total ≤ s.size b
  before : ∀ x ∈ l₁, total ≤ s.size x → s.size b < s.size x
  after : ∀ x ∈ l₂, total ≤ s.size x → s.size b ≤ s.size x

/-- **Best fit and splice**: nothing is large enough and nothing changes, or the best fit
is taken from the list. -/
def TakesBestFit (s : Heap) (l : List ℕ) (total : ℕ) : Prop :=
  ∃ r s', (∀ fuel, l.length < fuel → acquireFromFreeList fuel s total = .ok (r, s')) ∧
    ((r = 0 ∧ s' = s ∧ ∀ x ∈ l, s.size x < total) ∨
      (r ≠ 0 ∧ ∃ l₁ l₂, l = l₁ ++ r :: l₂ ∧ Taken s s' l₁ l₂ r total))

/-- **`acquire_from_free_list` takes the best fit**, of any list of blocks that lie apart and
for any total that counts its header. -/
theorem acquire_takes_best_fit {s : Heap} {l : List ℕ} {total : ℕ} (h : Laid s (· ∈ l) l)
    (hT : sizeofMemBlock ≤ total) : TakesBestFit s l total := by
  obtain ⟨r, hr, hloop⟩ := acquireLoop_spec s total l [] s.freeList none h.list (by simp [BestFit])
  have hacq : ∀ fuel, l.length < fuel → acquireLoop s total fuel .head s.freeList none = .ok r :=
    hloop
  match r, hr with
  | none, hr =>
    refine ⟨0, s, fun fuel hfuel => ?_, .inl ⟨rfl, rfl, hr⟩⟩
    rw [acquireFromFreeList, hacq fuel hfuel]
  | some (link, b), ⟨l₁, l₂, hl, hlink, hfit, h1, h2⟩ =>
    rw [List.nil_append] at hl
    subst hl hlink
    have hb0 : b ≠ 0 := by
      obtain ⟨m, -, rfl, hb, -⟩ := seg_append.mp h.list
      exact hb
    refine ⟨b, _, fun fuel hfuel => ?_, .inr ⟨hb0, l₁, l₂, rfl, h.spliced hT hfit, hfit, h1, h2⟩⟩
    rw [acquireFromFreeList, hacq fuel hfuel]

/-- One free block of 4 KiB. -/
def oneFree : Heap :=
  let s := memInit (fun _ => 0) 0x8000 false 0x1000 0x1000
  (s.setLink .head 0x1000).set 0x1000 .totalSize 0x1000

theorem oneFree_laid : Laid oneFree (· ∈ [0x1000]) [0x1000] := by
  have hsize : oneFree.size 0x1000 = 0x1000 := by decide
  constructor
  · exact ⟨rfl, by decide, show oneFree.next 0x1000 = 0 by decide⟩
  all_goals simp [hsize, sizeofMemBlock]

/-- Three free blocks, of 1024, 256 and 512 bytes. -/
def threeFree : Heap :=
  let s := (memInit (fun _ => 0) 0x8000 false 0x1000 0x1000).setLink .head 0x1000
  let s := (s.set 0x1000 .totalSize 0x400).set 0x1000 .next 0x1800
  let s := (s.set 0x1800 .totalSize 0x100).set 0x1800 .next 0x1C00
  s.set 0x1C00 .totalSize 0x200

theorem threeFree_sizes : threeFree.size 0x1000 = 0x400 ∧ threeFree.size 0x1800 = 0x100 ∧
    threeFree.size 0x1C00 = 0x200 := by
  decide +kernel

theorem threeFree_laid :
    Laid threeFree (· ∈ [0x1000, 0x1800, 0x1C00]) [0x1000, 0x1800, 0x1C00] := by
  obtain ⟨h1, h2, h3⟩ := threeFree_sizes
  constructor
  · exact ⟨rfl, by decide, by decide +kernel, by decide, by decide +kernel, by decide,
      show threeFree.next 0x1C00 = 0 by decide +kernel⟩
  · exact fun b hb => hb
  · simp [h1, h2, h3, sizeofMemBlock]
  · simp [h1, h2, h3, sizeofMemBlock]
  · intro b c hb hc hne
    simp only [List.mem_cons, List.not_mem_nil, or_false] at hb hc
    unfold Apart
    rcases hb with rfl | rfl | rfl <;> rcases hc with rfl | rfl | rfl <;> omega

/-- The 256 bytes in the middle are the best fit for 64. -/
theorem acquire_takes_best_fit_middle :
    ∃ s', (∀ fuel, 3 < fuel → acquireFromFreeList fuel threeFree 64 = .ok (0x1800, s')) ∧
      Taken threeFree s' [0x1000] [0x1C00] 0x1800 64 := by
  obtain ⟨h1, h2, h3⟩ := threeFree_sizes
  obtain ⟨r, s', hret, ⟨-, -, hnone⟩ | ⟨-, l₁, l₂, hl, htaken⟩⟩ :=
    acquire_takes_best_fit threeFree_laid (show sizeofMemBlock ≤ 64 by decide)
  · have := hnone 0x1800 (by simp)
    omega
  have hcode : acquireFromFreeList 4 threeFree 64 =
      .ok (0x1800, splitBlock threeFree 0x1800 64 (.next 0x1000)) := rfl
  obtain rfl : r = 0x1800 := congrArg Prod.fst (Except.ok.inj ((hret 4 (by decide)).symm.trans hcode))
  refine ⟨s', hret, ?_⟩
  match l₁, hl with
  | [x], hl =>
    obtain ⟨rfl, -, rfl⟩ : 0x1000 = x ∧ True ∧ [0x1C00] = l₂ := by simpa using hl
    exact htaken
  | [], hl => simp at hl
  | x :: y :: l, hl => cases l <;> simp at hl

/-- A total of 32 bytes, as `mem_alloc((size_t)-8)` passes it: the remainder's size is written
over the `from_swap` of the block it is cut from. -/
theorem acquire_short_total :
    Seg oneFree.next oneFree.freeList [0x1000] 0 ∧ ¬ TakesBestFit oneFree [0x1000] 32 := by
  refine ⟨oneFree_laid.list, ?_⟩
  intro ⟨r, s', hrun, hres⟩
  have hcode : acquireFromFreeList 2 oneFree 32 =
      .ok (0x1000, splitBlock oneFree 0x1000 32 .head) := rfl
  have hsame := (hrun 2 (by decide)).symm.trans hcode
  simp only [Except.ok.injEq, Prod.mk.injEq] at hsame
  obtain ⟨rfl, rfl⟩ := hsame
  rcases hres with ⟨h0, -⟩ | ⟨-, l₁, l₂, -, htaken⟩
  · exact absurd h0 (by decide)
  · have hcut := (htaken.cut (by decide)).2.1
    exact absurd (congrArg MemBlock.fromSwap hcut) (by decide)

end ExoCore.Mem
