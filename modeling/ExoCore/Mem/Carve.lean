/-
  ExoCore.Mem.Carve — fresh blocks, heap growth, and `mem_alloc` as a whole.

  `AllocFits s total` is the condition under which no ADDRESS SUM of a call
  wraps: the request is served from the free list (then no address is computed),
  or `heap_ptr + total`, the grown `heap_committed_end` and, when the heap has no
  room, `swap_ptr + total` stay below `2^64`.  `memAlloc_spec`: under it a call
  answers `NULL` and keeps every block, or hands out one more block of at least
  the requested size, and no bump pointer moves back.
-/
import ExoCore.Mem.Take

namespace ExoCore.Mem

open ExoCore.Lib List

/-! ## §1. `fresh_block`. -/

variable {s s' : Heap} {b blk c size total : ℕ} {free live l₁ l₂ : List ℕ}

/-- The header `fresh_block` writes, and the rest of the state. -/
theorem freshBlock_spec (cursor : Cursor) {limit : ℕ}
    (hT : sizeofMemBlock ≤ total) (hroom : s.cursor cursor + total ≤ limit)
    (hlim : limit < 2 ^ 64) :
    let blk := s.cursor cursor
    (freshBlock s cursor limit total).1 = blk ∧
      (freshBlock s cursor limit total).2.hdr blk =
        { totalSize := total
          userSize := total - sizeofMemBlock
          guard := memGuardActive
          next := 0
          fromSwap := if limit = s.swapEnd then 1 else 0 } ∧
      (∀ c f, HdrApart blk c → (freshBlock s cursor limit total).2.get c f = s.get c f) ∧
      (freshBlock s cursor limit total).2.freeList = s.freeList ∧
      SameRegions (s.setCursor cursor (blk + total)) (freshBlock s cursor limit total).2 := by
  intro blk
  have hsum : add64 (s.cursor cursor) total = blk + total := add64_of_lt (by omega)
  have huser : sub64 total sizeofMemBlock = total - sizeofMemBlock :=
    sub64_of_le hT (by omega)
  have hw : ∀ v, v < 2 ^ 64 → v % 256 ^ 8 = v := fun v hv => Nat.mod_eq_of_lt hv
  have hflag : (if limit = s.swapEnd then 1 else 0) % 256 ^ 4 =
      if limit = s.swapEnd then 1 else 0 := by
    split <;> rfl
  have hcur : ∀ c f, (s.setCursor cursor (blk + total)).get c f = s.get c f := by
    intro c f
    cases cursor <;> rfl
  have hend : (s.setCursor cursor (blk + total)).swapEnd = s.swapEnd := by
    cases cursor <;> rfl
  have hfl : (s.setCursor cursor (blk + total)).freeList = s.freeList := by
    cases cursor <;> rfl
  have heq : freshBlock s cursor limit total = (blk,
      (((((s.setCursor cursor (blk + total)).set blk .totalSize total).set
        blk .userSize (total - sizeofMemBlock)).set blk .guard memGuardActive).set
        blk .next 0).set blk .fromSwap (if limit = s.swapEnd then 1 else 0)) := by
    unfold freshBlock
    rw [if_neg (by omega)]
    simp only [hsum, huser, Heap.swapEnd_set, hend]
    rfl
  rw [heq]
  generalize s.setCursor cursor (blk + total) = t at hcur hend hfl ⊢
  refine ⟨rfl, ?_, ?_, ?_, ?_⟩
  · simp only [Heap.hdr, Heap.get_set_self, Heap.get_set_field, ne_eq, reduceCtorEq,
      not_false_eq_true, MemBlock.mk.injEq]
    exact ⟨hw _ (by omega), hw _ (by omega), rfl, rfl, hflag⟩
  · intro c f hc
    simp only [Heap.get_set_apart _ _ _ _ hc]
    exact hcur c f
  · simp only [Heap.freeList_set]
    exact hfl
  · exact (((((SameRegions.refl t).set _ _ _).set _ _ _).set _ _ _).set _ _ _).set _ _ _

theorem freshBlock_null {cursor : Cursor} {limit : ℕ}
    (hword : s.cursor cursor + total < 2 ^ 64) (hroom : limit < s.cursor cursor + total) :
    freshBlock s cursor limit total = (0, s) := by
  unfold freshBlock
  rw [if_pos (by rw [add64_of_lt hword]; exact hroom)]

/-! ## §2. Carving keeps the invariant. -/

/-- The geometry after a bump, and the bytes that became carved. -/
structure Bumped (s s' : Heap) (blk total : ℕ) (swap : ℕ) : Prop where
  geom : Geometry s'
  carved : ∀ x, x ∈ s'.carved ↔ (blk ≤ x ∧ x < blk + total) ∨ x ∈ s.carved
  out : ∀ x, blk ≤ x → x < blk + total → x ∉ s.carved
  covers : Covers s s'
  within : (swap = 0 ∧ s'.heapStart ≤ blk ∧ blk + total ≤ s'.heapPtr) ∨
    (swap = 1 ∧ s'.swapSpace ≤ blk ∧ blk + total ≤ s'.swapPtr)

/-- Both bump pointers, each up to the end of its region. -/
theorem bumped {cursor : Cursor} {swap : ℕ} (hg : Geometry s)
    (hroom : (cursor = .heap ∧ swap = 0 ∧ s.heapPtr + total ≤ s.heapCommittedEnd) ∨
      (cursor = .swap ∧ swap = 1 ∧ s.swapPtr + total ≤ s.swapSpace + sizeofSwapSpace))
    (hr : SameRegions (s.setCursor cursor (s.cursor cursor + total)) s') :
    Bumped s s' (s.cursor cursor) total swap := by
  obtain ⟨h1, h2, h3, h4, h5, h6, h7, h8, h9, h10, h11⟩ := hg
  rcases hroom with ⟨rfl, rfl, hroom⟩ | ⟨rfl, rfl, hroom⟩
  all_goals
    obtain ⟨r1, r2, r3, r4, r5, r6⟩ := hr
    simp only [Heap.setCursor, Heap.cursor] at r1 r2 r3 r4 r5 r6 ⊢
    refine ⟨?_, fun x => ?_, fun x hx1 hx2 => ?_, ⟨r1, by omega, r5, by omega⟩, ?_⟩
    · constructor <;> simp only [r1, r2, r3, r4, r5, r6] <;> omega
    · simp only [Heap.carved, Set.mem_ofPred_eq, r1, r2, r5, r6]
      omega
    · simp only [Heap.carved, Set.mem_ofPred_eq]
      omega
    · rw [r1, r2, r5, r6]
      omega

/-- A block at a bump pointer meets no header: an old block that met it would put
a byte of it into the carved part. -/
theorem Inv₀.carve_hdrApart {swap : ℕ}
    (h : Inv₀ s live free) (hT : sizeofMemBlock ≤ total) (hbump : Bumped s s' blk total swap)
    (hc : IsBlock s live free c) : HdrApart blk c := by
  have hT0 : 0 < sizeofMemBlock := by decide
  have hin := h.tiles.inside c hc
  have hok := (h.block c hc).header
  unfold HdrApart Apart
  by_contra hmeet
  by_cases hbc : blk ≤ c
  · exact hbump.out c hbc (by omega) (hin c (le_refl _) (by omega))
  · exact hbump.out blk (le_refl _) (by omega) (hin blk (by omega) (by omega))

/-- **Carving**: a block at a bump pointer joins the live blocks. -/
theorem Inv.carve {swap : ℕ} (h : Inv s live free)
    (hT : sizeofMemBlock ≤ total) (hbump : Bumped s s' blk total swap)
    (hhdr : s'.hdr blk =
      { totalSize := total, userSize := total - sizeofMemBlock, guard := memGuardActive,
        next := 0, fromSwap := swap })
    (hget : ∀ c f, HdrApart blk c → s'.get c f = s.get c f)
    (hfl : s'.freeList = s.freeList) : Inv s' (blk :: live) free := by
  simp only [Heap.hdr, MemBlock.mk.injEq] at hhdr
  obtain ⟨hb1, hb2, hb3, -, hb5⟩ := hhdr
  have hT0 : 0 < sizeofMemBlock := by decide
  have hout : blk ∉ s.carved := hbump.out blk (le_refl _) (by omega)
  have hap : ∀ c, IsBlock s live free c → HdrApart blk c := fun c hc =>
    h.carve_hdrApart hT hbump hc
  have hnew : ∀ c, IsBlock s live free c → c ≠ blk := by
    rintro c hc rfl
    have hok := (h.block c hc).header
    exact hout (h.tiles.inside c hc c (le_refl _) (by omega))
  have hold : ∀ c, IsBlock s live free c → BlockOk s' c := fun c hc =>
    (h.block c hc).congr hbump.covers fun f _ _ => hget c f (hap c hc)
  have hbsz : s'.size blk = total := hb1
  refine .of_blocks hbump.geom ?_ (nodup_cons.mpr ⟨fun hb => hnew blk (.inl hb) rfl, h.liveNodup⟩)
    ?_ ?_ ?_ (h.tiles.extend (by omega) hbump.out (fun x => ?_) hbump.carved hb1 fun x hx =>
      hget x .totalSize (hap x hx))
  · rw [hfl]
    exact h.list.congr fun c hc => hget c .next (hap c (h.isBlock_free hc))
  · intro c hc hcf
    rcases mem_cons.mp hc with rfl | hc
    · exact hnew c (h.isBlock_free hcf) rfl
    · exact h.liveNotFree c hc hcf
  · intro c hc
    rcases mem_cons.mp hc with rfl | hc
    · refine ⟨⟨by rw [hbsz]; exact hT, by rw [hbsz, hb2], ?_⟩, hb3⟩
      unfold Within
      rw [hbsz, hb5]
      exact hbump.within
    · rw [hget c .guard (hap c (.inl hc))]
      exact ⟨hold c (.inl hc), h.active c hc⟩
  · intro c hc
    rw [hget c .guard (hap c (h.isBlock_free hc))]
    exact ⟨hold c (h.isBlock_free hc), h.freed c hc⟩
  · show (x ∈ blk :: live ∨ x ∈ free) ↔ x = blk ∨ IsBlock s live free x
    rw [h.isBlock_iff, mem_cons, or_assoc]

/-! ## §3. Growing the heap. -/

/-- The bytes `mem_alloc` would commit for a request of `total`: whole pages. -/
def growBytes (s : Heap) (total : ℕ) : ℕ :=
  roundUp64 12 (s.heapPtr + total - s.heapCommittedEnd)

/-- The heap can serve `total`, perhaps after growing. -/
def HeapHasRoom (s : Heap) (total : ℕ) : Prop :=
  s.heapPtr + total ≤ s.heapCommittedEnd ∨
    (s.heapPtr + total ≤ s.heapCommittedEnd + growBytes s total ∧
      s.heapCommittedEnd + growBytes s total ≤ s.heapMaxEnd)

/-- `b` is a node of the free list. -/
def OnFreeList (s : Heap) (b : ℕ) : Prop := ∃ l, Seg s.next s.freeList l 0 ∧ b ∈ l

/-- **No address sum of `mem_alloc` wraps** for a request of `total`. -/
def AllocFits (s : Heap) (total : ℕ) : Prop :=
  (∃ b, OnFreeList s b ∧ total ≤ s.size b) ∨
    (s.heapPtr + total < 2 ^ 64 ∧
      (s.heapCommittedEnd < s.heapPtr + total →
        s.heapCommittedEnd + growBytes s total < 2 ^ 64) ∧
      (¬ HeapHasRoom s total → s.swapPtr + total < 2 ^ 64))

/-- What `mem_alloc` does to the other statics before it counts the block: the heap may
have more committed memory, nothing else. -/
structure Grown (s t : Heap) : Prop where
  heapStart : t.heapStart = s.heapStart
  heapMaxEnd : t.heapMaxEnd = s.heapMaxEnd
  swapSpace : t.swapSpace = s.swapSpace
  heapUsedBytes : t.heapUsedBytes = s.heapUsedBytes
  committed : s.heapCommittedEnd ≤ t.heapCommittedEnd

theorem Grown.trans {t u : Heap} (h : Grown s t) (h' : Grown t u) : Grown s u :=
  ⟨h'.1.trans h.1, h'.2.trans h.2, h'.3.trans h.3, h'.4.trans h.4, le_trans h.5 h'.5⟩

/-- Committing more of the heap keeps the invariant. -/
theorem Inv.commit {n : ℕ} (h : Inv s live free)
    (hlo : s.heapCommittedEnd ≤ c) (hhi : c ≤ s.heapMaxEnd) :
    Inv { s with heapCommittedEnd := c, heapGrowCount := n } live free := by
  have hg : Geometry { s with heapCommittedEnd := c, heapGrowCount := n } := by
    obtain ⟨h1, h2, h3, h4, h5, h6, h7, h8, h9, h10, h11⟩ := h.geom
    exact ⟨h1, lt_of_lt_of_le h2 hlo, h3, le_trans h4 hlo, hhi, h6, h7, h8, h9, h10, h11⟩
  exact ⟨⟨hg, h.list, h.liveNodup, h.liveNotFree, fun b hb => ⟨(h.block b hb).header,
    (h.block b hb).user, (h.block b hb).within⟩, h.active, h.freed, h.tiles, h.husk⟩, h.noHusk⟩

/-- The growth step: it keeps the invariant, moves no bump pointer, and leaves
room for the request exactly when the heap has room. -/
theorem growHeap_spec (h : Inv s live free)
    (hptr : s.heapPtr + total < 2 ^ 64)
    (hgrow : s.heapCommittedEnd < s.heapPtr + total →
      s.heapCommittedEnd + growBytes s total < 2 ^ 64) :
    Inv (growHeap s total) live free ∧ Grown s (growHeap s total) ∧
      (growHeap s total).heapPtr = s.heapPtr ∧
      (growHeap s total).swapPtr = s.swapPtr ∧ (growHeap s total).mem = s.mem ∧
      (s.heapPtr + total ≤ (growHeap s total).heapCommittedEnd ↔ HeapHasRoom s total) := by
  unfold growHeap HeapHasRoom
  rw [add64_of_lt hptr]
  by_cases hlt : s.heapCommittedEnd < s.heapPtr + total
  · rw [if_pos hlt]
    have hsum := hgrow hlt
    have hneed : sub64 (s.heapPtr + total) s.heapCommittedEnd =
        s.heapPtr + total - s.heapCommittedEnd := sub64_of_le (by omega) hptr
    simp only [hneed]
    rw [show roundUp64 12 (s.heapPtr + total - s.heapCommittedEnd) = growBytes s total from rfl,
      add64_of_lt hsum]
    by_cases hmax : s.heapCommittedEnd + growBytes s total ≤ s.heapMaxEnd
    · rw [if_pos hmax]
      refine ⟨h.commit (by omega) hmax, ⟨rfl, rfl, rfl, rfl, Nat.le_add_right _ _⟩,
        rfl, rfl, rfl, ?_⟩
      show s.heapPtr + total ≤ s.heapCommittedEnd + growBytes s total ↔ _
      omega
    · rw [if_neg hmax]
      exact ⟨h, ⟨rfl, rfl, rfl, rfl, le_refl _⟩, rfl, rfl, rfl, by omega⟩
  · rw [if_neg hlt]
    exact ⟨h, ⟨rfl, rfl, rfl, rfl, le_refl _⟩, rfl, rfl, rfl, by omega⟩

/-- `fresh_block` commits no memory and counts nothing. -/
theorem freshBlock_grown (s : Heap) (cursor : Cursor) (limit total : ℕ) :
    Grown s (freshBlock s cursor limit total).2 := by
  unfold freshBlock
  split
  · exact ⟨rfl, rfl, rfl, rfl, le_refl _⟩
  · cases cursor <;> exact ⟨rfl, rfl, rfl, rfl, le_refl _⟩

/-! ## §4. `mem_alloc`. -/

/-- The block total of a request that does not wrap. -/
theorem blockTotal_eq (h : size + sizeofMemBlock + 8 ≤ 2 ^ 64) :
    blockTotal size = sizeofMemBlock + (size + 7) / 8 * 8 := by
  unfold blockTotal sizeofMemBlock at *
  have h1 : roundUp64 3 size = (size + 7) / 8 * 8 := by
    rw [roundUp64_eq (by omega), add64_of_lt (by omega)]
    rfl
  have h2 : add64 40 ((size + 7) / 8 * 8) = 40 + (size + 7) / 8 * 8 := add64_of_lt (by omega)
  rw [h1, h2, roundUp64_eq (by omega), add64_of_lt (by omega)]
  omega

/-- No header of a live block changes. -/
def KeepsHdrs (s s' : Heap) (live : List ℕ) : Prop :=
  ∀ c ∈ live, ∀ f, s'.get c f = s.get c f

/-- What a call of `mem_alloc` may answer from a good state. -/
def AllocResult (s : Heap) (live free : List ℕ) (size p : ℕ) (s' : Heap) : Prop :=
  s.heapPtr ≤ s'.heapPtr ∧ s.swapPtr ≤ s'.swapPtr ∧ KeepsHdrs s s' live ∧
    ((p = 0 ∧ Inv s' live free) ∨
      ∃ b free', p = b + sizeofMemBlock ∧ Inv s' (b :: live) free' ∧
        size ≤ s'.get b .userSize)

/-- What `mem_alloc` has found before it counts the block: `blk`, in the state `t`. -/
structure Found (s : Heap) (live free : List ℕ) (total blk : ℕ) (t : Heap) : Prop where
  grown : Grown s t
  heapPtr : s.heapPtr ≤ t.heapPtr
  swapPtr : s.swapPtr ≤ t.swapPtr
  keeps : KeepsHdrs s t live
  result : (blk = 0 ∧ Inv t live free) ∨
    (blk ≠ 0 ∧ ∃ free', Inv t (blk :: live) free' ∧ total ≤ t.size blk)

/-- **A block carved at a bump pointer** of the grown heap `t`. -/
theorem Found.fresh {t : Heap} (cursor : Cursor) {limit swap : ℕ} (hinv : Inv t live free)
    (hgrown : Grown s t) (hp : t.heapPtr = s.heapPtr) (hq : t.swapPtr = s.swapPtr) (hm : t.mem = s.mem)
    (hT : sizeofMemBlock ≤ total) (hle : t.cursor cursor + total ≤ limit) (hword : limit < 2 ^ 64)
    (hb0 : t.cursor cursor ≠ 0) (hswap : (if limit = t.swapEnd then 1 else 0) = swap)
    (hbump : ∀ t', SameRegions (t.setCursor cursor (t.cursor cursor + total)) t' →
      Bumped t t' (t.cursor cursor) total swap) :
    (freshBlock t cursor limit total).1 ≠ 0 ∧
      Found s live free total (freshBlock t cursor limit total).1 (freshBlock t cursor limit total).2 ∧
      ∃ free', Seg (freshBlock t cursor limit total).2.next (freshBlock t cursor limit total).2.freeList
          free' 0 ∧ Trimmed s (freshBlock t cursor limit total).2 free free' := by
  obtain ⟨h1, h2, h3, h4, h5⟩ := freshBlock_spec cursor hT hle hword
  have hgrown' := hgrown.trans (freshBlock_grown t cursor limit total)
  generalize freshBlock t cursor limit total = res at h1 h2 h3 h4 h5 hgrown' ⊢
  obtain ⟨blk, t'⟩ := res
  dsimp only at h1 h2 h3 h4 h5 hgrown' ⊢
  subst h1
  rw [hswap] at h2
  have hbump := hbump t' h5
  have hnew := hinv.carve hT hbump h2 h3 h4
  have hkeep : ∀ c, IsBlock t live free c → ∀ f, t'.get c f = s.get c f := by
    intro c hc f
    rw [h3 c f (hinv.carve_hdrApart hT hbump hc), Heap.get_of_mem_eq hm]
  refine ⟨hb0, ⟨hgrown', hp ▸ hbump.covers.heapPtr, hq ▸ hbump.covers.swapPtr, fun c hc => hkeep c (.inl hc),
    .inr ⟨hb0, free, hnew, le_of_eq (size_of_hdr h2).symm⟩⟩, free, hnew.list, ?_⟩
  exact Trimmed.of_same (fun _ hc => hc) fun c hc f _ => hkeep c (hinv.isBlock_free hc) f

/-- The tail of `mem_alloc`, when no free block is large enough. -/
theorem carveBlock_spec (h : Inv s live free)
    (hT : sizeofMemBlock ≤ total) (hptr : s.heapPtr + total < 2 ^ 64)
    (hgrow : s.heapCommittedEnd < s.heapPtr + total →
      s.heapCommittedEnd + growBytes s total < 2 ^ 64)
    (hswap : ¬ HeapHasRoom s total → s.swapPtr + total < 2 ^ 64) :
    Found s live free total (carveBlock s 0 total).1 (carveBlock s 0 total).2 ∧
      ∃ free', Seg (carveBlock s 0 total).2.next (carveBlock s 0 total).2.freeList free' 0 ∧
        Trimmed s (carveBlock s 0 total).2 free free' := by
  obtain ⟨hinv, hgrown, hp, hq, hm, hroom⟩ := growHeap_spec h hptr hgrow
  simp only [carveBlock, if_true]
  generalize growHeap s total = t at hinv hgrown hp hq hm hroom ⊢
  have hg := hinv.geom
  have hts : ∀ c f, t.get c f = s.get c f := fun c f => Heap.get_of_mem_eq hm c f
  by_cases hfit : HeapHasRoom s total
  · -- carved from the heap
    have hle : t.heapPtr + total ≤ t.heapCommittedEnd := by
      rw [hp]
      exact hroom.mpr hfit
    have hb0 : t.heapPtr ≠ 0 := by
      have := hg.heapNonNull
      have := hg.heapLo
      omega
    have hnotswap : t.heapCommittedEnd ≠ t.swapEnd := by
      rw [hg.swapEnd]
      have := hg.heapCommitted
      have := hg.heapHi
      have := hg.disjoint
      unfold sizeofSwapSpace at *
      omega
    obtain ⟨hne, hfound⟩ := Found.fresh .heap hinv hgrown hp hq hm hT hle
      (lt_of_le_of_lt hg.heapHi hg.heapWord) hb0 (if_neg hnotswap)
      fun t' hr => bumped hg (.inl ⟨rfl, rfl, hle⟩) hr
    rw [if_neg hne]
    exact hfound
  · have hnull : freshBlock t .heap t.heapCommittedEnd total = (0, t) := by
      apply freshBlock_null
      · show t.heapPtr + total < 2 ^ 64
        omega
      · show t.heapCommittedEnd < t.heapPtr + total
        have := hroom.not.mpr hfit
        omega
    rw [hnull]
    simp only [if_true]
    have hsw := hswap hfit
    by_cases hsr : t.swapPtr + total ≤ t.swapSpace + sizeofSwapSpace
    · -- carved from swap
      have hend := hg.swapEnd
      have hb0 : t.swapPtr ≠ 0 := by
        have := hg.swapNonNull
        have := hg.swapLo
        omega
      exact (Found.fresh .swap hinv hgrown hp hq hm hT
        (show t.swapPtr + total ≤ t.swapEnd by omega) (hend ▸ hg.swapWord) hb0 (if_pos rfl)
        fun t' hr => bumped hg (.inr ⟨rfl, rfl, hsr⟩) hr).2
    · -- no room anywhere
      have hnull' : freshBlock t .swap t.swapEnd total = (0, t) := by
        apply freshBlock_null
        · show t.swapPtr + total < 2 ^ 64
          omega
        · show t.swapEnd < t.swapPtr + total
          rw [hg.swapEnd]
          omega
      rw [hnull']
      exact ⟨⟨hgrown, le_of_eq hp.symm, le_of_eq hq.symm, fun c _ f => hts c f, .inl ⟨rfl, hinv⟩⟩,
        free, hinv.list, Trimmed.of_same (fun _ hc => hc) fun c _ f _ => hts c f⟩

section

variable (h : Inv s live (l₁ ++ b :: l₂)) (hT : sizeofMemBlock ≤ total)
include h hT

/-- Taking a free block touches no live header. -/
theorem Inv.take_keeps (hfit : total ≤ s.size b) :
    KeepsHdrs s (splitBlock s b total (lastLink l₁)) live := by
  intro c hc f
  have hcf := h.liveNotFree c hc
  simp only [mem_append, mem_cons, not_or] at hcf
  refine h.laid.split_get hT hfit (.inl hc) hcf.2.1 (.inr fun hl => ?_)
  exact hcf.1 (mem_of_lastLink hl)

/-- The other free blocks keep their headers, their links apart. -/
theorem Inv.take_sameHdr (hfit : total ≤ s.size b) (hc : c ∈ l₁ ++ l₂) :
    SameHdr s (splitBlock s b total (lastLink l₁)) c := by
  have hcb : c ≠ b := by
    rintro rfl
    rcases mem_append.mp hc with hc | hc
    · exact h.laid.middle_not_mem.1 hc
    · exact h.laid.middle_not_mem.2 hc
  have hmem : c ∈ l₁ ++ b :: l₂ := by
    rw [mem_append] at hc ⊢
    exact hc.imp_right (mem_cons_of_mem b)
  exact fun f hf => h.laid.split_get hT hfit (h.isBlock_free hmem) hcb (.inl hf)

/-- Taking the best-fit block, in either branch of `split_block`. -/
theorem Inv.take (hfit : total ≤ s.size b) :
    ∃ free', Inv (splitBlock s b total (lastLink l₁)) (b :: live) free' ∧
      total ≤ (splitBlock s b total (lastLink l₁)).size b ∧
      Trimmed s (splitBlock s b total (lastLink l₁)) (l₁ ++ b :: l₂) free' := by
  have hsub : ∀ c ∈ l₁ ++ l₂, c ∈ l₁ ++ b :: l₂ := by
    intro c hc
    rw [mem_append] at hc ⊢
    exact hc.imp_right (mem_cons_of_mem b)
  have hrest : Trimmed s (splitBlock s b total (lastLink l₁)) (l₁ ++ b :: l₂) (l₁ ++ l₂) :=
    Trimmed.of_same hsub fun c hc => h.take_sameHdr hT hfit hc
  by_cases hs : splits s b total
  · obtain ⟨hcut, hsz⟩ := splitBlock_cut (h.laid.splitCtx hT hfit) hs
    refine ⟨_, h.take_cut hT hfit hs, le_of_eq (size_of_hdr hsz).symm, fun x hx => ?_⟩
    by_cases hxb : x = b + total
    · -- the remainder
      subst hxb
      have hfrom := congrArg MemBlock.fromSwap hcut
      refine ⟨b, by simp, by omega, ?_, hfrom⟩
      rw [size_of_hdr hcut]
      show b + total + (s.size b - total) = b + s.size b
      omega
    · refine hrest x ?_
      rw [mem_append, mem_cons] at hx
      rw [mem_append]
      exact hx.imp_right fun hx => hx.resolve_left hxb
  · have hsz := splitBlock_whole (h.laid.splitCtx hT hfit) hs
    exact ⟨_, h.take_whole hT hfit hs, le_trans hfit (le_of_eq (size_of_hdr hsz).symm), hrest⟩

end

theorem tallyAlloc_null (s : Heap) :
    tallyAlloc 0 s = (0, { s with heapAllocFailCount := add64 s.heapAllocFailCount 1 }) :=
  if_pos rfl

theorem tallyAlloc_block (s : Heap) (hb : blk ≠ 0) :
    tallyAlloc blk s = (add64 blk sizeofMemBlock,
      { s with heapUsedBytes := add64 s.heapUsedBytes (s.get blk .userSize) }) :=
  if_neg hb

theorem tallyAlloc_frame (blk : ℕ) (s : Heap) :
    SameRegions s (tallyAlloc blk s).2 ∧ (tallyAlloc blk s).2.freeList = s.freeList ∧
      (tallyAlloc blk s).2.mem = s.mem := by
  by_cases hb : blk = 0
  · rw [hb, tallyAlloc_null]
    exact ⟨⟨rfl, rfl, rfl, rfl, rfl, rfl⟩, rfl, rfl⟩
  · rw [tallyAlloc_block s hb]
    exact ⟨⟨rfl, rfl, rfl, rfl, rfl, rfl⟩, rfl, rfl⟩

theorem Inv.tally (h : Inv s live free) (blk : ℕ) :
    Inv (tallyAlloc blk s).2 live free := by
  obtain ⟨hr, hl, hm⟩ := tallyAlloc_frame blk s
  exact h.congr_mem hr hl hm

/-- A handed-out block of at least the total serves the request. -/
theorem Inv.tally_result
    (h : Inv s (b :: live) free) (hT : blockTotal size = sizeofMemBlock + (size + 7) / 8 * 8)
    (hle : blockTotal size ≤ s.size b) :
    (tallyAlloc b s).1 = b + sizeofMemBlock ∧ size ≤ (tallyAlloc b s).2.get b .userSize := by
  have hbI : IsBlock s (b :: live) free b := .inl (by simp)
  have hok := h.block b hbI
  have hbd := h.bounds hbI
  have hhdr := hok.header
  refine ⟨?_, ?_⟩
  · rw [tallyAlloc_block s (by omega)]
    exact add64_of_lt (by omega)
  · rw [Heap.get_of_mem_eq (tallyAlloc_frame b s).2.2, hok.user]
    omega

/-- **What `mem_alloc` finds on a good heap**: it returns, having counted a block of at
least the total, or nothing. -/
theorem memAlloc_found (h : Inv s live free)
    (hT : sizeofMemBlock ≤ blockTotal size) (hfits : AllocFits s (blockTotal size)) :
    ∃ blk t, (∀ fuel, free.length < fuel → memAlloc fuel s size = .ok (tallyAlloc blk t)) ∧
      Found s live free (blockTotal size) blk t ∧
      ∃ free', Seg t.next t.freeList free' 0 ∧ Trimmed s t free free' := by
  obtain ⟨r, hbest, hloop⟩ := acquireLoop_spec s (blockTotal size) free [] s.freeList none
    h.list (by intro x hx; cases hx)
  rw [nil_append] at hbest
  rw [lastLink_nil] at hloop
  match r, hbest with
  | some (link, b), ⟨l₁, l₂, hfree, hlink, hfit, _, _⟩ =>
    -- served from the free list
    subst hlink
    subst hfree
    have hb0 : b ≠ 0 := by
      have := (h.bounds (h.isBlock_free (b := b) (by simp))).1
      omega
    have hreg := splitBlock_regions s b (blockTotal size) (lastLink l₁)
    have hused := splitBlock_used s b (blockTotal size) (lastLink l₁)
    obtain ⟨free', hinv, hle, htrim⟩ := h.take hT hfit
    refine ⟨b, splitBlock s b (blockTotal size) (lastLink l₁), ?_, ?_⟩
    · intro fuel hfuel
      rw [memAlloc, acquireFromFreeList, hloop fuel hfuel]
      simp only [carveBlock, if_neg hb0]
    · exact ⟨⟨⟨hreg.heapStart, hreg.heapMaxEnd, hreg.swapSpace, hused,
          le_of_eq hreg.heapCommittedEnd.symm⟩,
        le_of_eq hreg.heapPtr.symm, le_of_eq hreg.swapPtr.symm, h.take_keeps hT hfit,
        .inr ⟨hb0, free', hinv, hle⟩⟩, free', hinv.list, htrim⟩
  | none, hbest =>
    -- no node is large enough, so the sums of the carving path do not wrap
    have hno : ¬ ∃ b, OnFreeList s b ∧ blockTotal size ≤ s.size b := by
      rintro ⟨b, ⟨l, hl, hb⟩, hle⟩
      rw [hl.unique h.list] at hb
      have := hbest b hb
      omega
    obtain ⟨hptr, hgrow, hswap⟩ := hfits.resolve_left hno
    refine ⟨(carveBlock s 0 (blockTotal size)).1, (carveBlock s 0 (blockTotal size)).2, ?_,
      carveBlock_spec h hT hptr hgrow hswap⟩
    intro fuel hfuel
    rw [memAlloc, acquireFromFreeList, hloop fuel hfuel]

/-- **`mem_alloc` on a good heap** returns, and keeps the heap good. -/
theorem memAlloc_spec (h : Inv s live free)
    (hsize : size + sizeofMemBlock + 8 ≤ 2 ^ 64) (hfits : AllocFits s (blockTotal size)) :
    ∃ p s', (∀ fuel, free.length < fuel → memAlloc fuel s size = .ok (p, s')) ∧
      AllocResult s live free size p s' ∧
      ∃ free', Seg s'.next s'.freeList free' 0 ∧ Trimmed s s' free free' := by
  have hTeq := blockTotal_eq hsize
  obtain ⟨blk, t, hrun, hfound, free', hlist, htrim⟩ := memAlloc_found h (by omega) hfits
  obtain ⟨hreg, hfl, hmem⟩ := tallyAlloc_frame blk t
  have hget : ∀ c f, (tallyAlloc blk t).2.get c f = t.get c f :=
    fun c f => Heap.get_of_mem_eq hmem c f
  refine ⟨(tallyAlloc blk t).1, (tallyAlloc blk t).2, hrun,
    ⟨le_trans hfound.heapPtr (le_of_eq hreg.heapPtr.symm),
      le_trans hfound.swapPtr (le_of_eq hreg.swapPtr.symm), ?_, ?_⟩, free', ?_, fun x hx => ?_⟩
  · intro c hc f
    rw [hget]
    exact hfound.keeps c hc f
  · rcases hfound.result with ⟨hb0, hinv⟩ | ⟨hb0, free', hinv, hle⟩
    · refine .inl ⟨?_, hinv.tally blk⟩
      rw [hb0, tallyAlloc_null]
    · obtain ⟨hp, husr⟩ := hinv.tally_result hTeq hle
      exact .inr ⟨blk, free', hp, hinv.tally blk, husr⟩
  · rw [hfl]
    exact hlist.congr fun c _ => hget c .next
  · rw [Heap.size, hget, hget]
    exact htrim x hx

end ExoCore.Mem
