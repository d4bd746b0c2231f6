/-
  ExoCore.Mem.Invariant — THE HEAP INVARIANT of `kernel/mem.c`.

  `live` lists the headers of the blocks handed out, `free` the nodes of the
  free list in list order.  `Inv₀ s live free` says that the live blocks together
  with the non-empty free ones TILE both regions, heap and swap, and that the
  free list is a null-terminated list through the headers.

  While `coalesce_block` runs, the list also holds HUSKS: nodes whose block was
  swallowed by a neighbour and whose `total_size` is `0`.  A husk's header lies
  inside the block that swallowed it, so no write to a header reaches it.
  `Inv` is `Inv₀` without husks; it is what holds between calls.
-/
import ExoCore.Mem.Alloc
import ExoCore.Lib.Tiling

namespace ExoCore.Mem

open ExoCore.Lib

/-! ## §1. Geometry of the two regions. -/

/-- `b`'s block size. -/
def Heap.size (s : Heap) (b : ℕ) : ℕ := s.get b .totalSize

variable {s s' : Heap} {free live : List ℕ}

theorem size_of_hdr {b : ℕ} {m : MemBlock} (h : s.hdr b = m) :
    s.size b = m.totalSize := by
  rw [← h]
  rfl

/-- The links of the free list. -/
def Heap.next (s : Heap) (b : ℕ) : ℕ := s.get b .next

/-- The bytes carved so far: `[heap_start, heap_ptr)` and `[swap_space, swap_ptr)`. -/
def Heap.carved (s : Heap) : Set ℕ :=
  {x | (s.heapStart ≤ x ∧ x < s.heapPtr) ∨ (s.swapSpace ≤ x ∧ x < s.swapPtr)}

/-- `heap_ptr <= heap_committed_end <= heap_max_end`, `swap_ptr` inside
`swap_space`, the regions non-null, unwrapped and disjoint. -/
structure Geometry (s : Heap) : Prop where
  heapNonNull : 0 < s.heapStart
  heapCommitted : s.heapStart < s.heapCommittedEnd
  heapLo : s.heapStart ≤ s.heapPtr
  heapMid : s.heapPtr ≤ s.heapCommittedEnd
  heapHi : s.heapCommittedEnd ≤ s.heapMaxEnd
  heapWord : s.heapMaxEnd < 2 ^ 64
  swapNonNull : 0 < s.swapSpace
  swapLo : s.swapSpace ≤ s.swapPtr
  swapHi : s.swapPtr ≤ s.swapSpace + sizeofSwapSpace
  swapWord : s.swapSpace + sizeofSwapSpace < 2 ^ 64
  disjoint : s.heapMaxEnd ≤ s.swapSpace ∨ s.swapSpace + sizeofSwapSpace ≤ s.heapStart

theorem Geometry.swapEnd (h : Geometry s) :
    s.swapEnd = s.swapSpace + sizeofSwapSpace :=
  add64_of_lt h.swapWord

/-! ## §2. Blocks. -/

/-- `b` lies wholly inside the region that `from_swap` names. -/
def Within (s : Heap) (b : ℕ) : Prop :=
  (s.get b .fromSwap = 0 ∧ s.heapStart ≤ b ∧ b + s.size b ≤ s.heapPtr) ∨
    (s.get b .fromSwap = 1 ∧ s.swapSpace ≤ b ∧ b + s.size b ≤ s.swapPtr)

instance (s : Heap) (b : ℕ) : Decidable (Within s b) :=
  inferInstanceAs (Decidable (_ ∨ _))

/-- A header that describes its block. -/
structure BlockOk (s : Heap) (b : ℕ) : Prop where
  header : sizeofMemBlock ≤ s.size b
  user : s.get b .userSize = s.size b - sizeofMemBlock
  within : Within s b

/-- `b` is one of the blocks that make up the two regions: handed out, or on the
free list and not a husk. -/
def IsBlock (s : Heap) (live free : List ℕ) (b : ℕ) : Prop :=
  b ∈ live ∨ (b ∈ free ∧ s.size b ≠ 0)

/-- The heap invariant, husks allowed. -/
structure Inv₀ (s : Heap) (live free : List ℕ) : Prop where
  geom : Geometry s
  list : Seg s.next s.freeList free 0
  liveNodup : live.Nodup
  liveNotFree : ∀ b ∈ live, b ∉ free
  block : ∀ b, IsBlock s live free b → BlockOk s b
  active : ∀ b ∈ live, s.get b .guard = memGuardActive
  freed : ∀ b ∈ free, s.get b .guard = memGuardFreed
  tiles : Tiling {b | IsBlock s live free b} s.size s.carved
  husk : ∀ z ∈ free, s.size z = 0 →
    ∃ b ∈ free, s.size b ≠ 0 ∧ b + sizeofMemBlock ≤ z ∧ z + sizeofMemBlock ≤ b + s.size b

/-- The header of `c` is the same, its link apart. -/
def SameHdr (s s' : Heap) (c : ℕ) : Prop := ∀ f, f ≠ .next → s'.get c f = s.get c f

/-- **The heap invariant** between calls. -/
structure Inv (s : Heap) (live free : List ℕ) : Prop extends Inv₀ s live free where
  noHusk : ∀ b ∈ free, s.size b ≠ 0

section Facts

variable {s : Heap} {live free : List ℕ} {b c z : ℕ}

theorem IsBlock.mem (h : IsBlock s live free b) : b ∈ live ∨ b ∈ free :=
  h.imp_right And.left

section

variable (h : Inv₀ s live free)
include h

/-- What the regions allow: block addresses are non-null and no block end, even
with a header and 8 bytes more, leaves the word range. -/
theorem Inv₀.bounds (hb : IsBlock s live free b) :
    0 < b ∧ b + s.size b < 2 ^ 64 ∧ s.size b + sizeofMemBlock + 8 < 2 ^ 64 := by
  have hw := (h.block b hb).within
  have hg := h.geom
  obtain ⟨h1, h2, h3, h4, h5, h6, h7, h8, h9, h10, h11⟩ := hg
  unfold Within at hw
  unfold sizeofSwapSpace at *
  unfold sizeofMemBlock
  rcases hw with hw | hw <;> omega

/-- **Different blocks do not overlap.** -/
theorem Inv₀.apart (hb : IsBlock s live free b) (hc : IsBlock s live free c) (hne : b ≠ c) :
    Apart b (s.size b) c (s.size c) :=
  h.tiles.apart b hb c hc hne

theorem Inv₀.hdrApart (hb : IsBlock s live free b) (hc : IsBlock s live free c) (hne : b ≠ c) :
    HdrApart b c := by
  have h1 := h.apart hb hc hne
  have h2 := (h.block b hb).header
  have h3 := (h.block c hc).header
  unfold HdrApart Apart at *
  omega

/-- A husk's header meets no block header. -/
theorem Inv₀.husk_hdrApart (hz : z ∈ free) (hz0 : s.size z = 0) (hb : IsBlock s live free b) :
    HdrApart b z := by
  obtain ⟨c, hc, hc0, hlo, hhi⟩ := h.husk z hz hz0
  have hcb : IsBlock s live free c := .inr ⟨hc, hc0⟩
  unfold HdrApart Apart
  by_cases hbc : b = c
  · subst hbc
    omega
  · have h1 := h.apart hb hcb hbc
    have h2 := (h.block b hb).header
    unfold Apart at h1
    omega

/-- The header of a free node meets no other block header. -/
theorem Inv₀.free_hdrApart (hz : z ∈ free) (hb : IsBlock s live free b) (hne : b ≠ z) :
    HdrApart b z := by
  by_cases hz0 : s.size z = 0
  · exact h.husk_hdrApart hz hz0 hb
  · exact h.hdrApart hb (.inr ⟨hz, hz0⟩) hne

end

theorem Inv.isBlock_free (h : Inv s live free) (hb : b ∈ free) : IsBlock s live free b :=
  .inr ⟨hb, h.noHusk b hb⟩

theorem Inv.isBlock_iff (h : Inv s live free) : IsBlock s live free b ↔ b ∈ live ∨ b ∈ free := by
  constructor
  · rintro (hb | ⟨hb, -⟩)
    · exact .inl hb
    · exact .inr hb
  · rintro (hb | hb)
    · exact .inl hb
    · exact h.isBlock_free hb

/-! ### Separate free blocks. -/

/-- **No two free blocks of a region touch.** -/
def Separate (s : Heap) (free : List ℕ) : Prop :=
  ∀ a ∈ free, ∀ c ∈ free, s.size a ≠ 0 → s.size c ≠ 0 →
    s.get a .fromSwap = s.get c .fromSwap → a + s.size a ≠ c

variable {s' : Heap} {free' : List ℕ}

theorem Separate.congr (h : Separate s free)
    (hsub : ∀ c ∈ free', c ∈ free) (hsame : ∀ c ∈ free', SameHdr s s' c) : Separate s' free' := by
  have hsize : ∀ c ∈ free', s'.size c = s.size c := fun c hc => hsame c hc .totalSize (by decide)
  intro a ha c hc ha0 hc0 hreg
  rw [hsize a ha] at ha0 ⊢
  rw [hsize c hc] at hc0
  rw [hsame a ha .fromSwap (by decide), hsame c hc .fromSwap (by decide)] at hreg
  exact h a (hsub a ha) c (hsub c hc) ha0 hc0 hreg

/-- Every free block of `s'` is the end of a free block of `s`. -/
def Trimmed (s s' : Heap) (free free' : List ℕ) : Prop :=
  ∀ x ∈ free', ∃ a ∈ free, a ≤ x ∧ x + s'.size x = a + s.size a ∧
    s'.get x .fromSwap = s.get a .fromSwap

theorem Trimmed.of_same (hsub : ∀ c ∈ free', c ∈ free)
    (hsame : ∀ c ∈ free', SameHdr s s' c) : Trimmed s s' free free' := by
  intro x hx
  refine ⟨x, hsub x hx, le_refl x, ?_, hsame x hx .fromSwap (by decide)⟩
  rw [show s'.size x = s.size x from hsame x hx .totalSize (by decide)]

/-- Blocks that only lose bytes in front do not come to touch. -/
theorem Trimmed.separate (ht : Trimmed s s' free free')
    (h : Inv s live free) (hsep : Separate s free) : Separate s' free' := by
  intro x hx y hy hx0 hy0 hreg hadj
  obtain ⟨a, ha, hax, haend, hareg⟩ := ht x hx
  obtain ⟨c, hc, hcy, hcend, hcreg⟩ := ht y hy
  -- the block of `x` ends at `y`, and so inside or in front of the block of `y`
  have hne : a ≠ c := by
    rintro rfl
    omega
  have hap := h.apart (h.isBlock_free ha) (h.isBlock_free hc) hne
  unfold Apart at hap
  exact hsep a ha c hc (h.noHusk a ha) (h.noHusk c hc) (hareg.symm.trans (hreg.trans hcreg)) (by omega)

end Facts

/-! ## §3. The invariant reads the statics and the headers only. -/

/-- The statics the invariant reads are the same, the list head apart. -/
structure SameRegions (s s' : Heap) : Prop where
  heapStart : s'.heapStart = s.heapStart
  heapPtr : s'.heapPtr = s.heapPtr
  heapCommittedEnd : s'.heapCommittedEnd = s.heapCommittedEnd
  heapMaxEnd : s'.heapMaxEnd = s.heapMaxEnd
  swapSpace : s'.swapSpace = s.swapSpace
  swapPtr : s'.swapPtr = s.swapPtr

namespace SameRegions

variable {s s' s'' : Heap}

theorem refl (s : Heap) : SameRegions s s := ⟨rfl, rfl, rfl, rfl, rfl, rfl⟩

section

variable (h : SameRegions s s')
include h

theorem trans (h' : SameRegions s' s'') : SameRegions s s'' :=
  ⟨h'.1.trans h.1, h'.2.trans h.2, h'.3.trans h.3, h'.4.trans h.4, h'.5.trans h.5,
    h'.6.trans h.6⟩

theorem set (b : ℕ) (f : Field) (v : ℕ) : SameRegions s (s'.set b f v) :=
  ⟨h.1, h.2, h.3, h.4, h.5, h.6⟩

theorem setLink (link : Link) (v : ℕ) : SameRegions s (s'.setLink link v) := by
  cases link <;> exact ⟨h.1, h.2, h.3, h.4, h.5, h.6⟩

theorem carved : s'.carved = s.carved := by
  unfold Heap.carved
  rw [h.heapStart, h.heapPtr, h.swapSpace, h.swapPtr]

theorem geometry (hg : Geometry s) : Geometry s' := by
  obtain ⟨h1, h2, h3, h4, h5, h6⟩ := h
  constructor <;> simp only [h1, h2, h3, h4, h5, h6]
  exacts [hg.1, hg.2, hg.3, hg.4, hg.5, hg.6, hg.7, hg.8, hg.9, hg.10, hg.11]

end

end SameRegions

theorem SameHdr.size {c : ℕ} (h : SameHdr s s' c) : s'.size c = s.size c :=
  h .totalSize (by decide)

/-- The regions of `s'` are those of `s`, or reach further. -/
structure Covers (s s' : Heap) : Prop where
  heapStart : s'.heapStart = s.heapStart
  heapPtr : s.heapPtr ≤ s'.heapPtr
  swapSpace : s'.swapSpace = s.swapSpace
  swapPtr : s.swapPtr ≤ s'.swapPtr

theorem SameRegions.covers (h : SameRegions s s') : Covers s s' :=
  ⟨h.heapStart, h.heapPtr.ge, h.swapSpace, h.swapPtr.ge⟩

/-- A block does not depend on its guard and its link. -/
theorem BlockOk.congr {c : ℕ} (h : BlockOk s c) (hr : Covers s s')
    (hh : ∀ f, f ≠ .guard → f ≠ .next → s'.get c f = s.get c f) : BlockOk s' c := by
  have hsize : s'.size c = s.size c := hh .totalSize (by decide) (by decide)
  obtain ⟨r1, r2, r3, r4⟩ := hr
  refine ⟨?_, ?_, ?_⟩
  · rw [hsize]
    exact h.header
  · rw [hsize, hh .userSize (by decide) (by decide)]
    exact h.user
  · have hw := h.within
    unfold Within at hw ⊢
    rw [hsize, hh .fromSwap (by decide) (by decide)]
    omega

/-- **A heap without husks**, from its blocks. -/
theorem Inv.of_blocks (hgeom : Geometry s) (hlist : Seg s.next s.freeList free 0)
    (hnodup : live.Nodup) (hnot : ∀ b ∈ live, b ∉ free)
    (hlive : ∀ b ∈ live, BlockOk s b ∧ s.get b .guard = memGuardActive)
    (hfree : ∀ b ∈ free, BlockOk s b ∧ s.get b .guard = memGuardFreed)
    (htiles : Tiling {b | b ∈ live ∨ b ∈ free} s.size s.carved) : Inv s live free := by
  have hnz : ∀ b ∈ free, s.size b ≠ 0 := fun b hb =>
    Nat.ne_of_gt (Nat.lt_of_lt_of_le (by decide) (hfree b hb).1.header)
  have hblk : ∀ b, IsBlock s live free b ↔ b ∈ live ∨ b ∈ free := fun b =>
    or_congr_right (and_iff_left_of_imp (hnz b))
  refine ⟨⟨hgeom, hlist, hnodup, hnot, fun b hb => ?_, fun b hb => (hlive b hb).2,
    fun b hb => (hfree b hb).2, htiles.congr hblk fun _ _ => rfl,
    fun z hz hz0 => absurd hz0 (hnz z hz)⟩, hnz⟩
  rcases (hblk b).mp hb with hb | hb
  · exact (hlive b hb).1
  · exact (hfree b hb).1

/-- Rewriting links: the invariant for another list of nodes, when every header
keeps its other fields and every full node stays listed. -/
theorem Inv₀.relink {free' : List ℕ} (h : Inv₀ s live free)
    (hr : SameRegions s s') (hsame : ∀ c, c ∈ live ∨ c ∈ free → SameHdr s s' c)
    (hlist : Seg s'.next s'.freeList free' 0) (hsub : ∀ c ∈ free', c ∈ free)
    (hfull : ∀ c ∈ free, s.size c ≠ 0 → c ∈ free') : Inv₀ s' live free' := by
  have hblk : ∀ c, IsBlock s' live free' c ↔ IsBlock s live free c := by
    intro c
    constructor
    · rintro (hc | ⟨hc, hc0⟩)
      · exact .inl hc
      · rw [(hsame c (.inr (hsub c hc))).size] at hc0
        exact .inr ⟨hsub c hc, hc0⟩
    · rintro (hc | ⟨hc, hc0⟩)
      · exact .inl hc
      · refine .inr ⟨hfull c hc hc0, ?_⟩
        rw [(hsame c (.inr hc)).size]
        exact hc0
  refine ⟨hr.geometry h.geom, hlist, h.liveNodup, ?_, ?_, ?_, ?_, ?_, ?_⟩
  · intro b hb hb'
    exact h.liveNotFree b hb (hsub b hb')
  · intro b hb
    have hb' := (hblk b).mp hb
    exact (h.block b hb').congr hr.covers fun f _ hf => hsame b hb'.mem f hf
  · intro b hb
    rw [hsame b (.inl hb) .guard (by decide)]
    exact h.active b hb
  · intro b hb
    rw [hsame b (.inr (hsub b hb)) .guard (by decide)]
    exact h.freed b (hsub b hb)
  · rw [hr.carved]
    exact h.tiles.congr hblk fun b hb => (hsame b hb.mem).size
  · intro z hz hz0
    rw [(hsame z (.inr (hsub z hz))).size] at hz0
    obtain ⟨b, hb, hb0, hlo, hhi⟩ := h.husk z (hsub z hz) hz0
    refine ⟨b, hfull b hb hb0, ?_⟩
    rw [(hsame b (.inr hb)).size]
    exact ⟨hb0, hlo, hhi⟩

/-- **Frame of the invariant**: a change that keeps the statics and every block
header, links included, keeps the invariant. -/
theorem Inv.congr (h : Inv s live free)
    (hr : SameRegions s s') (hl : s'.freeList = s.freeList)
    (hget : ∀ b, IsBlock s live free b → ∀ f, s'.get b f = s.get b f) :
    Inv s' live free := by
  have hsame : ∀ b, b ∈ live ∨ b ∈ free → SameHdr s s' b := fun b hb f _ =>
    hget b (h.isBlock_iff.mpr hb) f
  have hlist : Seg s'.next s'.freeList free 0 := by
    rw [hl]
    exact h.list.congr fun b hb => hget b (h.isBlock_free hb) .next
  refine ⟨h.toInv₀.relink hr hsame hlist (fun _ hc => hc) (fun _ hc _ => hc), ?_⟩
  intro b hb
  rw [(hsame b (.inr hb)).size]
  exact h.noHusk b hb

/-- The invariant does not read the counters. -/
theorem Inv.congr_mem (h : Inv s live free)
    (hr : SameRegions s s') (hl : s'.freeList = s.freeList) (hm : s'.mem = s.mem) :
    Inv s' live free :=
  h.congr hr hl fun b _ f => Heap.get_of_mem_eq hm b f

end ExoCore.Mem
