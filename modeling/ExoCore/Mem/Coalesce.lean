/-
  ExoCore.Mem.Coalesce — the free list is FULLY COALESCED between calls.

  `mem_free` pushes the block and lets it swallow its free neighbours until none
  is left; `mem_alloc` only takes bytes away from the FRONT of a free block.  So no
  two free blocks of a region ever touch between two calls, in whatever order the
  blocks are freed, and once nothing is live each region is one free block.

  Main results:
    • `Step.separate`    — one call keeps the free blocks apart;
    • `Inv.collapsed`    — apart, and nothing live: one block per region;
    • `full_coalescing`  — in every state of a run whose requests fit.
-/
import ExoCore.Mem.Runs

namespace ExoCore.Mem

open ExoCore.Lib

/-! ## §1. One step. -/

/-- The heap of a run, with separate free blocks. -/
def Tidy (t : Sys) : Prop := ∃ free, Inv t.heap t.live free ∧ Separate t.heap free

/-- **One step keeps the free blocks apart.** -/
theorem Step.separate {t t' : Sys} (hstep : Step NoWrap t t') (h : Tidy t) : Tidy t' := by
  obtain ⟨free, h, hsep⟩ := h
  obtain ⟨free', hinv, -, -, hkeep⟩ := hstep.keeps h
  exact ⟨free', hinv, hkeep hsep⟩

/-! ## §2. Nothing live. -/

/-- **The free list, with nothing live**: one block for each region that has been carved
from, and it is the whole of it. -/
structure Collapsed (s : Heap) (free : List ℕ) : Prop where
  nodes : ∀ b, b ∈ free ↔
    (b = s.heapStart ∧ s.heapStart < s.heapPtr) ∨ (b = s.swapSpace ∧ s.swapSpace < s.swapPtr)
  heap : s.heapStart < s.heapPtr →
    s.heapStart + s.size s.heapStart = s.heapPtr ∧ s.get s.heapStart .fromSwap = 0
  swap : s.swapSpace < s.swapPtr →
    s.swapSpace + s.size s.swapSpace = s.swapPtr ∧ s.get s.swapSpace .fromSwap = 1
  nodup : free.Nodup

section Collapsed

variable {s : Heap} {free : List ℕ} {b x : ℕ}

/-- A block that holds a byte of the heap lies in the heap. -/
theorem Inv.in_heap {live : List ℕ} (h : Inv s live free) (hb : IsBlock s live free b)
    (h1 : s.heapStart ≤ x) (h2 : x < s.heapPtr) (h3 : b ≤ x) (h4 : x < b + s.size b) :
    s.get b .fromSwap = 0 ∧ s.heapStart ≤ b ∧ b + s.size b ≤ s.heapPtr := by
  have hg := h.geom
  rcases (h.block b hb).within with hw | ⟨-, hlo, hhi⟩
  · exact hw
  · have := hg.heapMid
    have := hg.heapHi
    have := hg.swapHi
    have := hg.disjoint
    omega

/-- A block that holds a byte of the swap space lies in it. -/
theorem Inv.in_swap {live : List ℕ} (h : Inv s live free) (hb : IsBlock s live free b)
    (h1 : s.swapSpace ≤ x) (h2 : x < s.swapPtr) (h3 : b ≤ x) (h4 : x < b + s.size b) :
    s.get b .fromSwap = 1 ∧ s.swapSpace ≤ b ∧ b + s.size b ≤ s.swapPtr := by
  have hg := h.geom
  rcases (h.block b hb).within with ⟨-, hlo, hhi⟩ | hw
  · have := hg.heapMid
    have := hg.heapHi
    have := hg.swapHi
    have := hg.disjoint
    omega
  · exact hw

/-- A region without live blocks is one free block. -/
theorem Inv.region_whole {lo hi r : ℕ} (h : Inv s [] free) (hsep : Separate s free) (hlt : lo < hi)
    (hcarved : ∀ x, lo ≤ x → x < hi → x ∈ s.carved)
    (hin : ∀ b, IsBlock s [] free b → ∀ x, lo ≤ x → x < hi → b ≤ x → x < b + s.size b →
      s.get b .fromSwap = r ∧ lo ≤ b ∧ b + s.size b ≤ hi) :
    lo ∈ free ∧ lo + s.size lo = hi ∧ s.get lo .fromSwap = r ∧
      ∀ b ∈ free, lo ≤ b → b < hi → b = lo := by
  have hblock : ∀ b, IsBlock s [] free b → b ∈ free := by
    intro b hb
    rcases hb.mem with hb | hb
    · cases hb
    · exact hb
  -- a block of the region is there with its first byte
  have hreg : ∀ b, IsBlock s [] free b → lo ≤ b → b + s.size b ≤ hi → s.get b .fromSwap = r := by
    intro b hb h1 h2
    have hpos := h.tiles.pos b hb
    exact (hin b hb b h1 (by omega) (le_refl b) (by omega)).1
  obtain ⟨hmem, hend, hall⟩ := h.tiles.whole hlt hcarved
    (fun b hb x h1 h2 h3 h4 => (hin b hb x h1 h2 h3 h4).2) fun a ha c hc h1 h2 h3 h4 =>
      hsep a (hblock a ha) c (hblock c hc) (h.noHusk a (hblock a ha)) (h.noHusk c (hblock c hc))
        ((hreg a ha h1 h2).trans (hreg c hc h3 h4).symm)
  exact ⟨hblock lo hmem, hend, hreg lo hmem (le_refl lo) (le_of_eq hend),
    fun b hb => hall b (h.isBlock_free hb)⟩

/-- **Freed in any order, the blocks are one block again.** -/
theorem Inv.collapsed (h : Inv s [] free) (hsep : Separate s free) : Collapsed s free := by
  have hheap := fun hlt : s.heapStart < s.heapPtr => h.region_whole hsep hlt
    (fun x h1 h2 => .inl ⟨h1, h2⟩) fun b hb x h1 h2 h3 h4 => h.in_heap hb h1 h2 h3 h4
  have hswap := fun hlt : s.swapSpace < s.swapPtr => h.region_whole hsep hlt
    (fun x h1 h2 => .inr ⟨h1, h2⟩) fun b hb x h1 h2 h3 h4 => h.in_swap hb h1 h2 h3 h4
  refine ⟨fun b => ⟨fun hb => ?_, ?_⟩, fun hlt => ⟨(hheap hlt).2.1, (hheap hlt).2.2.1⟩,
    fun hlt => ⟨(hswap hlt).2.1, (hswap hlt).2.2.1⟩, h.list.nodup⟩
  · -- every node lies in one of the regions
    have hpos := h.tiles.pos b (h.isBlock_free hb)
    rcases (h.block b (h.isBlock_free hb)).within with ⟨-, h1, h2⟩ | ⟨-, h1, h2⟩
    · have hlt : s.heapStart < s.heapPtr := by omega
      exact .inl ⟨(hheap hlt).2.2.2 b hb h1 (by omega), hlt⟩
    · have hlt : s.swapSpace < s.swapPtr := by omega
      exact .inr ⟨(hswap hlt).2.2.2 b hb h1 (by omega), hlt⟩
  · rintro (⟨rfl, hlt⟩ | ⟨rfl, hlt⟩)
    · exact (hheap hlt).1
    · exact (hswap hlt).1

end Collapsed

/-! ## §3. Runs. -/

section Runs

variable {mem : Bytes} {swapSpace heapStartAddr heapSize : ℕ} {debugMode : Bool}

/-- **Full coalescing.**  In every state of a run whose requests fit: no block of
`free_list` ends where another one of its region starts; with nothing live, the list is
one block per region, `[heap_start, heap_ptr)` and `[swap_space, swap_ptr)`; and the loop
of `coalesce_block` ends, whichever live block is freed next. -/
theorem full_coalescing {t : Sys}
    (h : InitOk (memInit mem swapSpace debugMode heapStartAddr heapSize) heapStartAddr heapSize)
    (hrun : Run NoWrap ⟨memInit mem swapSpace debugMode heapStartAddr heapSize, []⟩ t) :
    ∃ free, Seg t.heap.next t.heap.freeList free 0 ∧
      (∀ a ∈ free, ∀ c ∈ free, sameBackingRegion t.heap a c = true →
        blocksAdjacent t.heap a c = false) ∧
      (t.live = [] → Collapsed t.heap free) ∧
      ∀ b ∈ t.live, ∃ s', Returns (fun fuel => coalesceBlock fuel (pushed t.heap b) b) s' := by
  have htidy : Tidy t := by
    refine inv_of_run Tidy hrun ⟨[], memInit_inv h, nofun⟩ ?_
    exact fun htidy hstep => hstep.separate htidy
  obtain ⟨free, hinv, hsep⟩ := htidy
  refine ⟨free, hinv.list, fun a ha c hc hreg => ?_, fun hlive => ?_, fun b hb => ?_⟩
  · rw [Bool.eq_false_iff]
    intro hadj
    exact hsep a ha c hc (hinv.noHusk a ha) (hinv.noHusk c hc) (beq_iff_eq.mp hreg)
      ((hinv.blocksAdjacent_iff ha).mp hadj)
  · rw [hlive] at hinv
    exact hinv.collapsed hsep
  · obtain ⟨s', hret, -⟩ := hinv.coalesce hb
    exact ⟨s', hret⟩

end Runs

/-- Three blocks are freed, the middle one first: they merge into one of 192 bytes. -/
theorem full_coalescing_freed :
    ∃ s free, Run NoWrap ⟨threeBlocks, [0x100080, 0x100040, 0x100000]⟩ ⟨s, []⟩ ∧
      Seg s.next s.freeList free 0 ∧ Collapsed s free ∧ (∀ b, b ∈ free ↔ b = 0x100000) ∧
      s.size 0x100000 = 192 := by
  obtain ⟨s₁, h₁, hreg₁⟩ := free_step threeBlocks_run (b := 0x100040) (by simp)
  have hrun₁ := threeBlocks_run.tail h₁
  obtain ⟨s₂, h₂, hreg₂⟩ := free_step hrun₁ (b := 0x100080) (by simp)
  have hrun₂ := hrun₁.tail h₂
  obtain ⟨s₃, h₃, hreg₃⟩ := free_step hrun₂ (b := 0x100000) (by simp)
  obtain ⟨free, hlist, -, hcol, -⟩ := full_coalescing bootHeap_ok (hrun₂.tail h₃)
  have hcol : Collapsed s₃ free := hcol rfl
  have hreg := (hreg₁.trans hreg₂).trans hreg₃
  have hstart : s₃.heapStart = 0x100000 := hreg.heapStart.trans (by decide +kernel)
  have hptr : s₃.heapPtr = 0x1000C0 := hreg.heapPtr.trans (by decide +kernel)
  have hswap : s₃.swapSpace = s₃.swapPtr :=
    hreg.swapSpace.trans (.trans (by decide +kernel) hreg.swapPtr.symm)
  have hlt : s₃.heapStart < s₃.heapPtr := by omega
  refine ⟨s₃, free, .tail (.tail (.single h₁) h₂) h₃, hlist, hcol, fun b => ?_, ?_⟩
  · rw [hcol.nodes, hstart]
    omega
  · have := (hcol.heap hlt).1
    rw [hstart] at this
    omega

end ExoCore.Mem
