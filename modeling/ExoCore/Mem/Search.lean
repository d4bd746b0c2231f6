/-
  ExoCore.Mem.Search — BEST FIT and the unlinking of the block it finds.

    * `acquireLoop_spec` — the search loop of `acquire_from_free_list` returns
      the first block of least sufficient size, with the link that points to it;
    * `splitBlock_*` — what `split_block` leaves in every header, in its two
      branches (the remainder stays listed, or the block is taken whole).
-/
import ExoCore.Mem.Invariant

namespace ExoCore.Mem

open ExoCore.Lib List

/-! ## §1. The search. -/

/-- `r` is the best fit for `total` in the list `l`: `none` when no node is large
enough, else the FIRST node of least sufficient size with the link before it. -/
def BestFit (size : ℕ → ℕ) (total : ℕ) (l : List ℕ) : Option (Link × ℕ) → Prop
  | none => ∀ x ∈ l, size x < total
  | some (link, b) => ∃ l₁ l₂, l = l₁ ++ b :: l₂ ∧ link = lastLink l₁ ∧ total ≤ size b ∧
      (∀ x ∈ l₁, total ≤ size x → size b < size x) ∧
      (∀ x ∈ l₂, total ≤ size x → size b ≤ size x)

section Search

variable {size : ℕ → ℕ} {total b : ℕ} {l : List ℕ} {best : Option (Link × ℕ)}

/-- A node that is too small, or no better than the best so far, changes nothing. -/
theorem BestFit.skip (h : BestFit size total l best)
    (hb : ¬ (total ≤ size b ∧ ∀ lk x, best = some (lk, x) → size b < size x)) :
    BestFit size total (l ++ [b]) best := by
  match best, h with
  | none, h =>
    have hlt : size b < total := by
      by_contra hge
      exact hb ⟨by omega, by simp⟩
    intro x hx
    rcases mem_append.mp hx with hx | hx
    · exact h x hx
    · rw [mem_singleton.mp hx]
      exact hlt
  | some (lk, x), ⟨l₁, l₂, hl, hlk, hfit, h1, h2⟩ =>
    refine ⟨l₁, l₂ ++ [b], by simp [hl], hlk, hfit, h1, ?_⟩
    intro y hy hty
    rcases mem_append.mp hy with hy | hy
    · exact h2 y hy hty
    · rw [mem_singleton.mp hy] at hty ⊢
      by_contra hlt
      refine hb ⟨hty, fun lk' x' hx' => ?_⟩
      simp only [Option.some.injEq, Prod.mk.injEq] at hx'
      rw [← hx'.2]
      omega

/-- A strictly better node becomes the best. -/
theorem BestFit.improve (h : BestFit size total l best) (hb : total ≤ size b)
    (hbest : ∀ lk x, best = some (lk, x) → size b < size x) :
    BestFit size total (l ++ [b]) (some (lastLink l, b)) := by
  refine ⟨l, [], rfl, rfl, hb, ?_, by simp⟩
  intro y hy hty
  match best, h with
  | none, h => exact absurd (h y hy) (by omega)
  | some (lk, x), ⟨l₁, l₂, hl, _, _, h1, h2⟩ =>
    have hlt := hbest lk x rfl
    rw [hl] at hy
    rcases mem_append.mp hy with hy | hy
    · have := h1 y hy hty
      omega
    · rcases mem_cons.mp hy with rfl | hy
      · exact hlt
      · have := h2 y hy hty
        omega

/-- After an exact fit the rest of the list does not matter. -/
theorem BestFit.exact {link : Link} (h : BestFit size total l (some (link, b)))
    (hb : size b = total) (l' : List ℕ) : BestFit size total (l ++ l') (some (link, b)) := by
  obtain ⟨l₁, l₂, hl, hlk, hfit, h1, h2⟩ := h
  refine ⟨l₁, l₂ ++ l', by simp [hl], hlk, hfit, h1, ?_⟩
  intro y hy hty
  rcases mem_append.mp hy with hy | hy
  · exact h2 y hy hty
  · omega

end Search

variable {s : Heap}

theorem beatsBest_iff {blk : ℕ} {best : Option (Link × ℕ)} :
    beatsBest s blk best = true ↔ ∀ lk x, best = some (lk, x) → s.size blk < s.size x := by
  match best with
  | none => simp [beatsBest]
  | some (lk, x) => simp [beatsBest, Heap.size]

/-- **The search loop finds the best fit** of the whole list: `p` is the part
already walked, `q` the part ahead. -/
theorem acquireLoop_spec (s : Heap) (total : ℕ) :
    ∀ (q p : List ℕ) (blk : ℕ) (best : Option (Link × ℕ)),
      Seg s.next blk q 0 → BestFit s.size total p best →
      ∃ r, BestFit s.size total (p ++ q) r ∧
        ∀ fuel, q.length < fuel → acquireLoop s total fuel (lastLink p) blk best = .ok r := by
  intro q
  induction q with
  | nil =>
    intro p blk best hseg hbest
    have h0 : blk = 0 := hseg
    refine ⟨best, by simpa using hbest, ?_⟩
    intro fuel hfuel
    obtain ⟨fuel, rfl⟩ : ∃ k, fuel = k + 1 := ⟨fuel - 1, by simp at hfuel; omega⟩
    rw [acquireLoop, if_pos h0]
  | cons b q ih =>
    intro p blk best hseg hbest
    obtain ⟨rfl, hb0, hseg⟩ := hseg
    have happ : p ++ blk :: q = (p ++ [blk]) ++ q := by simp
    rw [happ]
    -- one turn of the loop, whatever the fuel
    have hturn : ∀ {r}, (∀ fuel, q.length < fuel →
        (if total ≤ s.get blk .totalSize ∧ beatsBest s blk best then
          if s.get blk .totalSize = total then .ok (some (lastLink p, blk))
          else acquireLoop s total fuel (lastLink (p ++ [blk])) (s.next blk)
            (some (lastLink p, blk))
        else acquireLoop s total fuel (lastLink (p ++ [blk])) (s.next blk) best) = .ok r) →
        ∀ fuel, (blk :: q).length < fuel →
          acquireLoop s total fuel (lastLink p) blk best = .ok r := by
      intro r hr fuel hfuel
      obtain ⟨fuel, rfl⟩ : ∃ k, fuel = k + 1 := ⟨fuel - 1, by simp at hfuel; omega⟩
      have hlen : q.length < fuel := by simp at hfuel; omega
      rw [acquireLoop, if_neg hb0, ← hr fuel hlen, lastLink_concat]
      rfl
    by_cases hc : total ≤ s.get blk .totalSize ∧ beatsBest s blk best
    · have himp := hbest.improve hc.1 (beatsBest_iff.mp hc.2)
      by_cases hx : s.get blk .totalSize = total
      · refine ⟨_, himp.exact hx q, hturn ?_⟩
        intro fuel _
        rw [if_pos hc, if_pos hx]
      · obtain ⟨r, hr, hloop⟩ := ih (p ++ [blk]) _ _ hseg himp
        refine ⟨r, hr, hturn ?_⟩
        intro fuel hlen
        rw [if_pos hc, if_neg hx]
        exact hloop fuel hlen
    · have hskip := hbest.skip (b := blk) (by rwa [← beatsBest_iff])
      obtain ⟨r, hr, hloop⟩ := ih (p ++ [blk]) _ _ hseg hskip
      refine ⟨r, hr, hturn ?_⟩
      intro fuel hlen
      rw [if_neg hc]
      exact hloop fuel hlen

/-! ## §2. The headers after `split_block`. -/

theorem Heap.get_setLink_apart {link : Link} {v c : ℕ} {f : Field}
    (h : ∀ a, link = .next a → HdrApart a c) : (s.setLink link v).get c f = s.get c f := by
  cases link with
  | head => rfl
  | next a => exact s.get_set_apart v _ _ (h a rfl)

theorem Heap.get_setLink_field {link : Link} {v c : ℕ} {f : Field}
    (h : ∀ a, link = .next a → a = c ∨ HdrApart a c) (hf : f ≠ .next) :
    (s.setLink link v).get c f = s.get c f := by
  cases link with
  | head => rfl
  | next a =>
    rcases h a rfl with rfl | hap
    · exact s.get_set_field _ _ _ _ (Ne.symm hf)
    · exact s.get_set_apart v _ _ hap

theorem Heap.freeList_setLink (s : Heap) (link : Link) (v : ℕ) :
    (s.setLink link v).freeList = if link = .head then v else s.freeList := by
  cases link <;> rfl

theorem Heap.used_setLink (s : Heap) (link : Link) (v : ℕ) :
    (s.setLink link v).heapUsedBytes = s.heapUsedBytes := by
  cases link <;> rfl

/-- `total_needed + sizeof(mem_block_t) + 8 <= available`, no sum wrapping. -/
def splits (s : Heap) (blk total : ℕ) : Prop := total + sizeofMemBlock + 8 ≤ s.size blk

instance (s : Heap) (blk total : ℕ) : Decidable (splits s blk total) :=
  inferInstanceAs (Decidable (_ ≤ _))

/-- What the link to `blk` holds after `split_block`: the remainder, or the node
after `blk`. -/
def splitTarget (s : Heap) (blk total : ℕ) : ℕ :=
  if splits s blk total then blk + total else s.next blk

theorem splits_iff (s : Heap) (blk : ℕ) {total : ℕ} (h : total + sizeofMemBlock + 8 < 2 ^ 64) :
    add64 (add64 total sizeofMemBlock) 8 ≤ s.get blk .totalSize ↔ splits s blk total := by
  rw [add64_of_lt (a := total) (by omega), add64_of_lt h]
  rfl

/-- What `split_block` needs to know about its surroundings: no sum wraps, and
the link it rewrites is not inside the block it cuts. -/
structure SplitCtx (s : Heap) (blk total : ℕ) (link : Link) : Prop where
  header : sizeofMemBlock ≤ total
  fits : total ≤ s.size blk
  noWrap : total + sizeofMemBlock + 8 < 2 ^ 64
  inWord : blk + s.size blk < 2 ^ 64
  linkApart : ∀ a, link = .next a → Apart a sizeofMemBlock blk (s.size blk)

section Split

variable {s : Heap} {blk total : ℕ} {link : Link}

section

variable (h : SplitCtx s blk total link)
include h

theorem SplitCtx.link_blk : ∀ a, link = .next a → HdrApart a blk := by
  intro a ha
  have h1 := h.linkApart a ha
  have h2 := h.header
  have h3 := h.fits
  unfold HdrApart Apart at *
  omega

theorem SplitCtx.link_rest (hs : splits s blk total) :
    ∀ a, link = .next a → HdrApart a (blk + total) := by
  intro a ha
  have h1 := h.linkApart a ha
  unfold splits at hs
  unfold HdrApart Apart at *
  omega

theorem SplitCtx.blk_rest : HdrApart blk (blk + total) := by
  have := h.header
  unfold HdrApart Apart
  omega

/-- `split_block` keeping the remainder: the statements of that branch, with the
sums and differences it computes. -/
theorem splitBlock_cut (hs : splits s blk total) :
    (splitBlock s blk total link).hdr (blk + total) =
        { totalSize := s.size blk - total
          userSize := s.size blk - total - sizeofMemBlock
          guard := memGuardFreed
          next := s.next blk
          fromSwap := s.get blk .fromSwap } ∧
      (splitBlock s blk total link).hdr blk =
        { totalSize := total
          userSize := total - sizeofMemBlock
          guard := memGuardActive
          next := 0
          fromSwap := s.get blk .fromSwap } := by
  have hword := h.inWord
  have hfits := h.fits
  have hhdr := h.header
  have hsize : s.size blk < 2 ^ 64 := by omega
  have hs' : total + sizeofMemBlock + 8 ≤ s.size blk := hs
  have hB : ∀ (t : Heap) v f g, (t.set blk f v).get (blk + total) g = t.get (blk + total) g :=
    fun t v f g => t.get_set_apart v f g h.blk_rest
  have hR : ∀ (t : Heap) v f g, (t.set (blk + total) f v).get blk g = t.get blk g :=
    fun t v f g => t.get_set_apart v f g h.blk_rest.symm
  have hLB : ∀ (t : Heap) v f, (t.setLink link v).get blk f = t.get blk f :=
    fun t v f => Heap.get_setLink_apart h.link_blk
  have hLR : ∀ (t : Heap) v f, (t.setLink link v).get (blk + total) f = t.get (blk + total) f :=
    fun t v f => Heap.get_setLink_apart (h.link_rest hs)
  have hcond := (splits_iff s blk h.noWrap).mpr hs
  have hrest : sub64 (s.get blk .totalSize) total = s.size blk - total := sub64_of_le hfits hsize
  have hmod : (s.size blk - total) % 256 ^ Field.totalSize.width = s.size blk - total :=
    Nat.mod_eq_of_lt (lt_of_le_of_lt (Nat.sub_le _ _) hsize)
  have huser : sub64 (s.size blk - total) sizeofMemBlock = s.size blk - total - sizeofMemBlock :=
    sub64_of_le (by omega) (by omega)
  have huser' : sub64 total sizeofMemBlock = total - sizeofMemBlock :=
    sub64_of_le hhdr (by omega)
  simp only [splitBlock, if_pos hcond, add64_of_lt (show blk + total < 2 ^ 64 by omega), hrest,
    Heap.hdr, hB, hR, hLB, hLR, Heap.get_set_self, Heap.get_set_field, ne_eq, reduceCtorEq,
    not_false_eq_true, hmod, huser, huser', MemBlock.mk.injEq]
  have hw : ∀ v, v < 2 ^ 64 → v % 256 ^ 8 = v := fun v hv => Nat.mod_eq_of_lt hv
  exact ⟨⟨trivial, hw _ (by omega), rfl, hw _ (s.get_lt blk .next),
    Nat.mod_eq_of_lt (s.get_lt blk .fromSwap)⟩, hw _ (by omega), hw _ (by omega), rfl, rfl, trivial⟩

/-- `split_block` taking the block whole. -/
theorem splitBlock_whole (hs : ¬ splits s blk total) :
    (splitBlock s blk total link).hdr blk =
      { s.hdr blk with guard := memGuardActive, next := 0 } := by
  have hLB : ∀ (t : Heap) v f, (t.setLink link v).get blk f = t.get blk f :=
    fun t v f => Heap.get_setLink_apart h.link_blk
  have hcond := (splits_iff s blk h.noWrap).not.mpr hs
  simp only [splitBlock, if_neg hcond, Heap.hdr, hLB, Heap.get_set_self, Heap.get_set_field, ne_eq,
    reduceCtorEq, not_false_eq_true, MemBlock.mk.injEq]
  exact ⟨trivial, trivial, rfl, rfl, trivial⟩

theorem splitTarget_lt : splitTarget s blk total < 2 ^ 64 := by
  unfold splitTarget
  split
  · have h1 := h.fits
    have h2 := h.inWord
    omega
  · exact s.get_lt blk .next

/-- **The two branches end alike**: after statements that stay inside `blk`, the link is
rewritten and `blk` is marked active. -/
theorem splitBlock_eq : ∃ t : Heap, t.freeList = s.freeList ∧
    (∀ i, i < blk ∨ blk + s.size blk ≤ i → t.mem i = s.mem i) ∧
    splitBlock s blk total link =
      ((t.setLink link (splitTarget s blk total)).set blk .guard memGuardActive).set blk .next 0 := by
  have hfits := h.fits
  have hhdr := h.header
  have hword := h.inWord
  by_cases hs : splits s blk total
  · have hcond := (splits_iff s blk h.noWrap).mpr hs
    have hadd : add64 blk total = blk + total := add64_of_lt (by omega)
    simp only [splitBlock, if_pos hcond, hadd, splitTarget, if_pos hs]
    refine ⟨_, ?_, fun i hi => ?_, rfl⟩
    · rfl
    · have hB : ∀ (t : Heap) f v, (t.set blk f v).mem i = t.mem i :=
        fun t f v => Heap.mem_set_apart (by omega)
      have hR : ∀ (t : Heap) f v, (t.set (blk + total) f v).mem i = t.mem i := by
        unfold splits at hs
        exact fun t f v => Heap.mem_set_apart (by omega)
      simp only [hB, hR]
  · have hcond := (splits_iff s blk h.noWrap).not.mpr hs
    refine ⟨s, rfl, fun _ _ => rfl, ?_⟩
    simp only [splitBlock, if_neg hcond, splitTarget, if_neg hs]
    rfl

theorem splitBlock_freeList : (splitBlock s blk total link).freeList =
    if link = .head then splitTarget s blk total else s.freeList := by
  obtain ⟨t, hfree, -, heq⟩ := splitBlock_eq h
  rw [heq, ← hfree]
  exact Heap.freeList_setLink t link _

/-- Outside `blk`, `split_block` only rewrites the link it was given. -/
theorem splitBlock_frame {c : ℕ} (hc : Apart c sizeofMemBlock blk (s.size blk))
    (hlink : ∀ a, link = .next a → a = c ∨ HdrApart a c) :
    (splitBlock s blk total link).hdr c =
      if link = .next c then { s.hdr c with next := splitTarget s blk total } else s.hdr c := by
  obtain ⟨t, -, hmem, heq⟩ := splitBlock_eq h
  have hfits := h.fits
  have hhdr := h.header
  unfold Apart at hc
  have ht : ∀ f, t.get c f = s.get c f := Heap.get_congr fun i h1 h2 => hmem i (by omega)
  have hB : ∀ (t : Heap) v f g, (t.set blk f v).get c g = t.get c g := by
    intro t v f g
    apply t.get_set_apart
    unfold HdrApart Apart
    omega
  simp only [heq, Heap.hdr, hB, ← ht]
  by_cases hl : link = .next c
  · subst hl
    have hmod : splitTarget s blk total % 256 ^ Field.next.width = splitTarget s blk total :=
      Nat.mod_eq_of_lt (splitTarget_lt h)
    simp only [Heap.setLink, Heap.get_set_self, Heap.get_set_field, ne_eq, reduceCtorEq,
      not_false_eq_true, hmod, if_true]
  · have hL : ∀ f, (t.setLink link (splitTarget s blk total)).get c f = t.get c f := fun f =>
      Heap.get_setLink_apart fun a ha => (hlink a ha).resolve_left fun hac => hl (hac ▸ ha)
    simp only [hL, if_neg hl]

/-- `split_block` writes inside the block and to the link. -/
theorem splitBlock_bytes {i : ℕ} (hi : i < blk ∨ blk + s.size blk ≤ i)
    (hlink : ∀ a, link = .next a → i < a + Field.next.off ∨ a + Field.next.off + 8 ≤ i) :
    (splitBlock s blk total link).mem i = s.mem i := by
  obtain ⟨t, -, hmem, heq⟩ := splitBlock_eq h
  have hfits := h.fits
  have hhdr := h.header
  have hB : ∀ (t : Heap) f v, (t.set blk f v).mem i = t.mem i :=
    fun t f v => Heap.mem_set_apart (by omega)
  rw [heq, hB, hB, ← hmem i hi]
  cases link with
  | head => rfl
  | next a => exact wrLE_apart (hlink a rfl)

end

theorem splitBlock_regions (s : Heap) (blk total : ℕ) (link : Link) :
    SameRegions s (splitBlock s blk total link) := by
  have h0 := SameRegions.refl s
  unfold splitBlock
  dsimp only
  split
  · exact ((((((((((h0.set _ _ _).set _ _ _).set _ _ _).set _ _ _).set _ _ _).set _ _ _).set
      _ _ _).set _ _ _).setLink _ _).set _ _ _).set _ _ _
  · exact ((h0.setLink _ _).set _ _ _).set _ _ _

theorem splitBlock_used (s : Heap) (blk total : ℕ) (link : Link) :
    (splitBlock s blk total link).heapUsedBytes = s.heapUsedBytes := by
  unfold splitBlock
  dsimp only
  split <;> exact Heap.used_setLink _ link _

end Split

end ExoCore.Mem
