/-
  ExoCore.Mem.Runs — runs of the allocator from `mem_init`.

  A state of a run is the heap with the list of live blocks.  A step is a call of
  `mem_alloc`, a call of `mem_free` on a live pointer, or a store of a caller into
  a payload it owns; the requests a run may make are a parameter (`guard`), so
  the same steps serve for "every request" and for "every request that fits".

    * `inv_of_steps` — the heap invariant in every state of a run whose requests
      fit;
    * `heap_partition` — in the terms of the component: live and free blocks
      partition the two carved ranges;
    * `alloc_capacity` — what a request gets in any such state.

  Both fail for requests near `2^64`: `heap_partition_wraps` and
  `alloc_capacity_wraps` are such runs.
-/
import ExoCore.Mem.Carve
import ExoCore.Mem.Release

namespace ExoCore.Mem

open ExoCore.Lib

/-! ## §1. Runs. -/

/-- The heap, and the blocks handed out and not yet freed (by header address). -/
structure Sys where
  heap : Heap
  live : List ℕ

/-- A caller's store of one byte. -/
def Heap.poke (s : Heap) (addr : ℕ) (v : UInt8) : Heap :=
  { s with mem := fun i => if i = addr then v else s.mem i }

/-- One step, with the requests limited by `guard`. -/
inductive Step (guard : Heap → ℕ → Prop) : Sys → Sys → Prop
  | alloc {s s' : Heap} {live : List ℕ} {size p : ℕ} (hsize : guard s size)
      (hret : Returns (fun fuel => memAlloc fuel s size) (p, s')) :
      Step guard ⟨s, live⟩ ⟨s', if p = 0 then live else sub64 p sizeofMemBlock :: live⟩
  | free {s s' : Heap} {live : List ℕ} {b size : ℕ} (hb : b ∈ live)
      (hsize : size = 0 ∨ size ≤ s.get b .userSize)
      (hret : Returns (fun fuel => memFree fuel s (add64 b sizeofMemBlock) size) s') :
      Step guard ⟨s, live⟩ ⟨s', live.erase b⟩
  | store {s : Heap} {live : List ℕ} {b off : ℕ} (v : UInt8) (hb : b ∈ live)
      (hoff : off < s.get b .userSize) :
      Step guard ⟨s, live⟩ ⟨s.poke (b + sizeofMemBlock + off) v, live⟩

/-- Any number of steps. -/
abbrev Run (guard : Heap → ℕ → Prop) : Sys → Sys → Prop := Relation.ReflTransGen (Step guard)

/-- `40 + round-up-to-8(size)` fits in a word. -/
def TotalFits (_ : Heap) (size : ℕ) : Prop := sizeofMemBlock + (size + 7) / 8 * 8 < 2 ^ 64

/-- `size` is a word. -/
def AnySize (_ : Heap) (size : ℕ) : Prop := size < 2 ^ 64

instance (s : Heap) (size : ℕ) : Decidable (TotalFits s size) :=
  inferInstanceAs (Decidable (_ < _))

instance (s : Heap) (size : ℕ) : Decidable (AnySize s size) :=
  inferInstanceAs (Decidable (_ < _))

/-- No sum of the call wraps, neither of sizes nor of addresses. -/
def NoWrap (s : Heap) (size : ℕ) : Prop := TotalFits s size ∧ AllocFits s (blockTotal size)

/-- What `mem_init` is given: a non-empty heap at a non-null address, a
`swap_space` array, and no overlap between the two. -/
structure InitOk (s : Heap) (heapStartAddr heapSize : ℕ) : Prop where
  nonEmpty : 0 < heapSize
  nonNull : 0 < heapStartAddr
  heapWord : heapStartAddr + heapSize < 2 ^ 64
  swapNonNull : 0 < s.swapSpace
  swapWord : s.swapSpace + sizeofSwapSpace < 2 ^ 64
  disjoint : s.heapMaxEnd ≤ s.swapSpace ∨ s.swapSpace + sizeofSwapSpace ≤ heapStartAddr

/-! ## §2. The invariant along a run. -/

section Steps

variable {mem : Bytes} {swapSpace heapStartAddr heapSize : ℕ} {debugMode : Bool}

theorem memInit_geometry
    (h : InitOk (memInit mem swapSpace debugMode heapStartAddr heapSize) heapStartAddr heapSize) :
    Geometry (memInit mem swapSpace debugMode heapStartAddr heapSize) := by
  obtain ⟨h1, h2, h3, h4, h5, h6⟩ := h
  have hmax : heapStartAddr + heapSize ≤
        (memInit mem swapSpace debugMode heapStartAddr heapSize).heapMaxEnd ∧
      (memInit mem swapSpace debugMode heapStartAddr heapSize).heapMaxEnd < 2 ^ 64 := by
    simp only [memInit, add64_of_lt h3]
    split
    · exact ⟨le_refl _, h3⟩
    · exact ⟨by omega, add64_lt _ _⟩
  generalize hs : memInit mem swapSpace debugMode heapStartAddr heapSize = s at h4 h5 h6 hmax
  have hcommit : s.heapCommittedEnd = heapStartAddr + heapSize := by
    rw [← hs]
    exact add64_of_lt h3
  have hstart : s.heapStart = heapStartAddr := by rw [← hs]; rfl
  have hptr : s.heapPtr = heapStartAddr := by rw [← hs]; rfl
  have hswap : s.swapPtr = s.swapSpace := by rw [← hs]; rfl
  constructor <;> omega

/-- `mem_init` establishes the invariant: nothing is carved, the list is empty. -/
theorem memInit_inv
    (h : InitOk (memInit mem swapSpace debugMode heapStartAddr heapSize) heapStartAddr heapSize) :
    Inv (memInit mem swapSpace debugMode heapStartAddr heapSize) [] [] := by
  refine .of_blocks (memInit_geometry h) rfl List.nodup_nil nofun nofun nofun ⟨?_, ?_, ?_, ?_⟩
  · rintro b (hb | hb) <;> cases hb
  · rintro b (hb | hb) <;> cases hb
  · rintro b (hb | hb) <;> cases hb
  · intro x hx
    simp only [Heap.carved, Set.mem_ofPred_eq, memInit] at hx
    omega

variable {s : Heap} {free live : List ℕ} {t : Sys}

theorem totalFits_iff {size : ℕ} :
    TotalFits s size ↔ size + sizeofMemBlock + 8 ≤ 2 ^ 64 := by
  unfold TotalFits sizeofMemBlock
  omega

/-- The live list after `mem_alloc` returned a block. -/
theorem Inv.handed {b : ℕ} (h : Inv s (b :: live) free) :
    b + sizeofMemBlock ≠ 0 ∧ sub64 (b + sizeofMemBlock) sizeofMemBlock = b := by
  have hbI : IsBlock s (b :: live) free b := .inl (by simp)
  have hbd := h.bounds hbI
  have hhdr := (h.block b hbI).header
  refine ⟨by omega, ?_⟩
  rw [sub64_of_le (by omega) (by omega)]
  omega

/-- The pointer of a live block does not wrap. -/
theorem Inv₀.payload_add64 {b : ℕ} (h : Inv₀ s live free) (hb : b ∈ live) :
    add64 b sizeofMemBlock = b + sizeofMemBlock := by
  have hbd := h.bounds (.inl hb)
  have hhdr := (h.block b (.inl hb)).header
  exact add64_of_lt (by omega)

/-- A byte of a payload is outside every header. -/
theorem Inv₀.poke_frame {b off : ℕ} (h : Inv₀ s live free) (hb : b ∈ live)
    (hoff : off < s.get b .userSize) (v : UInt8) (i : ℕ)
    (hi : ¬ (b + sizeofMemBlock ≤ i ∧ i < b + s.size b)) :
    (s.poke (b + sizeofMemBlock + off) v).mem i = s.mem i := by
  have huser := (h.block b (.inl hb)).user
  have hhdr := (h.block b (.inl hb)).header
  exact if_neg (by omega)

theorem sameRegions_poke (s : Heap) (addr : ℕ) (v : UInt8) : SameRegions s (s.poke addr v) :=
  ⟨rfl, rfl, rfl, rfl, rfl, rfl⟩

/-- **A request that fits**, in any good state. -/
theorem memAlloc_good {size : ℕ} (h : Inv s live free)
    (hsize : NoWrap s size) :
    ∃ p s', Returns (fun fuel => memAlloc fuel s size) (p, s') ∧
      AllocResult s live free size p s' ∧
      ∃ free', Seg s'.next s'.freeList free' 0 ∧ Trimmed s s' free free' := by
  obtain ⟨p, s', hrun, hres⟩ := memAlloc_spec h (totalFits_iff.mp hsize.1) hsize.2
  exact ⟨p, s', ⟨free.length + 1, fun fuel hfuel => hrun fuel (by omega)⟩, hres⟩

/-- **One step keeps the heap good**: no bump pointer moves back, and separate free blocks
stay separate. -/
theorem Step.keeps {t' : Sys} (hstep : Step NoWrap t t') (h : Inv t.heap t.live free) :
    ∃ free', Inv t'.heap t'.live free' ∧ t.heap.heapPtr ≤ t'.heap.heapPtr ∧
      t.heap.swapPtr ≤ t'.heap.swapPtr ∧ (Separate t.heap free → Separate t'.heap free') := by
  cases hstep with
  | @alloc s s' live size p hsize hret =>
    obtain ⟨p', s'', hret', ⟨hp, hq, -, hres⟩, free', hlist, htrim⟩ := memAlloc_good h hsize
    obtain ⟨rfl, rfl⟩ := Prod.mk.inj (hret.unique hret')
    refine ⟨free', ?_, hp, hq, htrim.separate h⟩
    -- `free'` is the list of the new state, and so is the list of the invariant
    rcases hres with ⟨rfl, hinv⟩ | ⟨b, free'', rfl, hinv, -⟩
    · obtain rfl := hlist.unique hinv.list
      exact hinv
    · obtain rfl := hlist.unique hinv.list
      dsimp only
      rw [if_neg hinv.handed.1, hinv.handed.2]
      exact hinv
  | @free s s' live b size hb hsize hret =>
    obtain ⟨s'', free', hret', hinv, hfreed, hsep⟩ := memFree_spec h hb hsize
    have hreg := hfreed.regions
    rw [h.payload_add64 hb] at hret
    obtain rfl := hret.unique hret'
    exact ⟨free', hinv, le_of_eq hreg.heapPtr.symm, le_of_eq hreg.swapPtr.symm, hsep⟩
  | @store s live b off v hb hoff =>
    obtain ⟨hinv, hget⟩ := h.payload hb (sameRegions_poke s _ v) rfl (h.poke_frame hb hoff v)
    exact ⟨free, hinv, le_refl _, le_refl _, fun hsep =>
      hsep.congr (fun _ hc => hc) fun c hc f _ => hget c (h.isBlock_free hc) f⟩

/-- **The heap invariant holds in every state of a run** whose requests fit. -/
theorem inv_of_steps
    (h : InitOk (memInit mem swapSpace debugMode heapStartAddr heapSize) heapStartAddr heapSize)
    (hrun : Run NoWrap ⟨memInit mem swapSpace debugMode heapStartAddr heapSize, []⟩ t) :
    ∃ free, Inv t.heap t.live free := by
  refine inv_of_run (fun t => ∃ free, Inv t.heap t.live free) hrun ⟨[], memInit_inv h⟩ ?_
  rintro a b ⟨free, hinv⟩ hstep
  obtain ⟨free', hinv', -⟩ := hstep.keeps hinv
  exact ⟨free', hinv'⟩

theorem ptrs_of_run {t' : Sys} (h : Inv t.heap t.live free)
    (hrun : Run NoWrap t t') :
    t.heap.heapPtr ≤ t'.heap.heapPtr ∧ t.heap.swapPtr ≤ t'.heap.swapPtr := by
  have hall : (∃ free, Inv t'.heap t'.live free) ∧ t.heap.heapPtr ≤ t'.heap.heapPtr ∧
      t.heap.swapPtr ≤ t'.heap.swapPtr := by
    refine inv_of_run (fun u => (∃ free, Inv u.heap u.live free) ∧
      t.heap.heapPtr ≤ u.heap.heapPtr ∧ t.heap.swapPtr ≤ u.heap.swapPtr) hrun
      ⟨⟨free, h⟩, le_refl _, le_refl _⟩ ?_
    rintro a b ⟨⟨free, hinv⟩, hp, hq⟩ hstep
    obtain ⟨free', hinv', hp', hq', -⟩ := hstep.keeps hinv
    exact ⟨⟨free', hinv'⟩, le_trans hp hp', le_trans hq hq'⟩
  exact hall.2

/-! ## §3. Live and free blocks partition the carved ranges. -/

/-- **The partition**: the blocks of `live` and `free` cut `[heap_start, heap_ptr)`
and `[swap_space, swap_ptr)` into non-overlapping pieces, each in the region its
`from_swap` names; no block is live twice, and `free` is `free_list`, null-terminated,
without a live block. -/
structure Partition (s : Heap) (live free : List ℕ) : Prop where
  list : Seg s.next s.freeList free 0
  acyclic : free.Nodup
  liveNodup : live.Nodup
  liveNotFree : ∀ b ∈ live, b ∉ free
  apart : ∀ b ∈ live ++ free, ∀ c ∈ live ++ free, b ≠ c → Apart b (s.size b) c (s.size c)
  cover : ∀ x, (s.heapStart ≤ x ∧ x < s.heapPtr) ∨ (s.swapSpace ≤ x ∧ x < s.swapPtr) →
    ∃ b ∈ live ++ free, b ≤ x ∧ x < b + s.size b
  within : ∀ b ∈ live ++ free, Within s b
  nonZero : ∀ b ∈ live ++ free, 0 < s.size b
  user : ∀ b ∈ live ++ free, s.get b .userSize + sizeofMemBlock = s.size b
  committed : s.heapPtr ≤ s.heapCommittedEnd
  maximum : s.heapCommittedEnd ≤ s.heapMaxEnd

theorem Inv.partition (h : Inv s live free) :
    Partition s live free := by
  have hblk : ∀ b ∈ live ++ free, IsBlock s live free b := by
    intro b hb
    exact h.isBlock_iff.mpr (List.mem_append.mp hb)
  refine ⟨h.list, h.list.nodup, h.liveNodup, h.liveNotFree, ?_, ?_, ?_, ?_, ?_, h.geom.heapMid,
    h.geom.heapHi⟩
  · intro b hb c hc hne
    exact h.apart (hblk b hb) (hblk c hc) hne
  · intro x hx
    obtain ⟨b, hb, hbx⟩ := h.tiles.cover x hx
    exact ⟨b, List.mem_append.mpr hb.mem, hbx⟩
  · intro b hb
    exact (h.block b (hblk b hb)).within
  · intro b hb
    have := (h.block b (hblk b hb)).header
    unfold sizeofMemBlock at this
    omega
  · intro b hb
    have h1 := (h.block b (hblk b hb)).header
    rw [(h.block b (hblk b hb)).user]
    omega

/-- **Heap tiling.**  In every state of a run whose requests fit, the live blocks
and the free list partition the carved ranges. -/
theorem heap_partition {t : Sys}
    (h : InitOk (memInit mem swapSpace debugMode heapStartAddr heapSize) heapStartAddr heapSize)
    (hrun : Run NoWrap ⟨memInit mem swapSpace debugMode heapStartAddr heapSize, []⟩ t) :
    ∃ free, Partition t.heap t.live free := by
  obtain ⟨free, hinv⟩ := inv_of_steps h hrun
  exact ⟨free, hinv.partition⟩

/-- **Capacity.**  In every state of a run whose requests fit, a request that fits
returns `NULL` or a block of at least `size` bytes, inside a region and apart
from every live block; no bump pointer ever moves back. -/
theorem alloc_capacity {t : Sys} {size : ℕ}
    (h : InitOk (memInit mem swapSpace debugMode heapStartAddr heapSize) heapStartAddr heapSize)
    (hrun : Run NoWrap ⟨memInit mem swapSpace debugMode heapStartAddr heapSize, []⟩ t)
    (hsize : NoWrap t.heap size) :
    (∃ p s', Returns (fun fuel => memAlloc fuel t.heap size) (p, s') ∧
      t.heap.heapPtr ≤ s'.heapPtr ∧ t.heap.swapPtr ≤ s'.swapPtr ∧
      (p = 0 ∨ ∃ b, p = b + sizeofMemBlock ∧ size ≤ s'.get b .userSize ∧
        s'.get b .userSize + sizeofMemBlock = s'.size b ∧ Within s' b ∧
        ∀ c ∈ t.live, Apart b (s'.size b) c (t.heap.size c))) ∧
    ∀ t', Run NoWrap t t' →
      t.heap.heapPtr ≤ t'.heap.heapPtr ∧ t.heap.swapPtr ≤ t'.heap.swapPtr := by
  obtain ⟨free, hinv⟩ := inv_of_steps h hrun
  refine ⟨?_, fun t' hrun' => ptrs_of_run hinv hrun'⟩
  obtain ⟨p, s', hret, ⟨hp, hq, hkeep, hres⟩, -⟩ := memAlloc_good hinv hsize
  refine ⟨p, s', hret, hp, hq, ?_⟩
  rcases hres with ⟨hp0, -⟩ | ⟨b, free', hpb, hinv', huser⟩
  · exact .inl hp0
  · have hpart := hinv'.partition
    refine .inr ⟨b, hpb, huser, hpart.user b (by simp), hpart.within b (by simp), ?_⟩
    intro c hc
    have hbc : b ≠ c := by
      rintro rfl
      exact (List.nodup_cons.mp hinv'.liveNodup).1 hc
    have hap := hpart.apart b (by simp) c (by simp [hc]) hbc
    rwa [show s'.size c = t.heap.size c from hkeep c hc .totalSize] at hap

end Steps

/-! ## §4. A small machine.

A heap of one page at 1 MiB, with `swap_space` linked at 64 KiB: requests close to
`2^64` break both statements there. -/

abbrev bootHeap : Heap := memInit (fun _ => 0) 0x10000 false 0x100000 0x1000

theorem bootHeap_ok : InitOk bootHeap 0x100000 0x1000 :=
  ⟨by decide, by decide, by decide, by decide, by decide, by decide⟩

/-- A request with an empty free list is served by `carveBlock`. -/
theorem memAlloc_fresh {s : Heap} {size : ℕ} (h : s.freeList = 0) :
    Returns (fun fuel => memAlloc fuel s size) (tallyAlloc (carveBlock s 0 (blockTotal size)).1
      (carveBlock s 0 (blockTotal size)).2) := by
  refine Returns.stop fun fuel => ?_
  simp only [memAlloc, acquireFromFreeList, acquireLoop, h, if_true]

/-- A request that the free list cannot serve. -/
def carveAlloc (s : Heap) (size : ℕ) : ℕ × Heap :=
  tallyAlloc (carveBlock s 0 (blockTotal size)).1 (carveBlock s 0 (blockTotal size)).2

theorem carve_step {guard : Heap → ℕ → Prop} {s : Heap} {live : List ℕ} {size b : ℕ}
    (hlist : s.freeList = 0) (hsize : guard s size)
    (hp : (carveAlloc s size).1 = b + sizeofMemBlock) (hb : b + sizeofMemBlock < 2 ^ 64) :
    Step guard ⟨s, live⟩ ⟨(carveAlloc s size).2, b :: live⟩ := by
  have hret : Returns (fun fuel => memAlloc fuel s size)
      (b + sizeofMemBlock, (carveAlloc s size).2) := by
    rw [← hp]
    exact memAlloc_fresh hlist
  have hstep : Step guard ⟨s, live⟩ _ := .alloc hsize hret
  have hpos : b + sizeofMemBlock ≠ 0 := by
    unfold sizeofMemBlock
    omega
  rwa [if_neg hpos, sub64_of_le (by omega) hb, Nat.add_sub_cancel] at hstep

/-- A live block can be freed. -/
theorem free_step {t : Sys} (hrun : Run NoWrap ⟨bootHeap, []⟩ t) {b : ℕ} (hb : b ∈ t.live) :
    ∃ s, Step NoWrap t ⟨s, t.live.erase b⟩ ∧ SameRegions t.heap s := by
  obtain ⟨free, h⟩ := inv_of_steps bootHeap_ok hrun
  obtain ⟨s, -, hret, -, hfreed, -⟩ := memFree_spec h hb (.inl rfl)
  rw [← h.payload_add64 hb] at hret
  exact ⟨s, .free hb (.inl rfl) hret, hfreed.regions⟩

/-- Three calls of `mem_alloc(24)`. -/
def threeBlocks : Heap := (carveAlloc (carveAlloc (carveAlloc bootHeap 24).2 24).2 24).2

theorem threeBlocks_run :
    Run NoWrap ⟨bootHeap, []⟩ ⟨threeBlocks, [0x100080, 0x100040, 0x100000]⟩ := by
  -- every one of them is carved from the heap
  refine .tail (.tail (.single (carve_step (b := 0x100000) rfl ?_ ?_ (by decide)))
    (carve_step (b := 0x100040) ?_ ?_ ?_ (by decide))) (carve_step (b := 0x100080) ?_ ?_ ?_ (by decide))
  all_goals first
    | exact ⟨by decide, .inr ⟨by decide +kernel, by decide +kernel, fun _ => by decide +kernel⟩⟩
    | decide +kernel

theorem threeBlocks_noWrap : NoWrap threeBlocks 24 :=
  ⟨by decide, .inr ⟨by decide +kernel, by decide +kernel, fun _ => by decide +kernel⟩⟩

/-- The one in the middle is freed. -/
theorem threeBlocks_freed : ∃ s, Run NoWrap ⟨bootHeap, []⟩ ⟨s, [0x100080, 0x100000]⟩ ∧
    SameRegions threeBlocks s := by
  obtain ⟨s, hstep, hreg⟩ := free_step threeBlocks_run (b := 0x100040) (by simp)
  exact ⟨s, threeBlocks_run.tail hstep, hreg⟩

theorem heap_partition_freed :
    ∃ s free, Run NoWrap ⟨bootHeap, []⟩ ⟨s, [0x100080, 0x100000]⟩ ∧ s.heapPtr = 0x1000C0 ∧
      Partition s [0x100080, 0x100000] free := by
  obtain ⟨s, hrun, hreg⟩ := threeBlocks_freed
  obtain ⟨free, hpart⟩ := heap_partition bootHeap_ok hrun
  exact ⟨s, free, hrun, hreg.heapPtr.trans (by decide +kernel), hpart⟩

/-- A request of `2^64 - 48` bytes has the total `2^64 - 8`, and `heap_ptr + total`
wraps to 8 bytes BELOW the heap: the block handed out lies in no region. -/
theorem heap_partition_wraps :
    ∃ t, Run TotalFits ⟨bootHeap, []⟩ t ∧ ¬ ∃ free, Partition t.heap t.live free := by
  have hstep : Step TotalFits ⟨bootHeap, []⟩ ⟨(carveAlloc bootHeap (2 ^ 64 - 48)).2, [0x100000]⟩ :=
    carve_step rfl (by decide) (by decide +kernel) (by decide)
  refine ⟨_, .single hstep, ?_⟩
  rintro ⟨free, hpart⟩
  exact absurd (hpart.within 0x100000 (by simp)) (by decide +kernel)

/-- A fourth block, apart from the three live ones. -/
theorem alloc_capacity_fourth :
    ∃ s', Returns (fun fuel => memAlloc fuel threeBlocks 24) (0x1000C0 + sizeofMemBlock, s') ∧
      24 ≤ s'.get 0x1000C0 .userSize ∧ Within s' 0x1000C0 ∧
      ∀ c ∈ [0x100080, 0x100040, 0x100000],
        Apart 0x1000C0 (s'.size 0x1000C0) c (threeBlocks.size c) := by
  obtain ⟨⟨p, s', hret, -, -, hres⟩, -⟩ :=
    alloc_capacity bootHeap_ok threeBlocks_run threeBlocks_noWrap
  have hp : p = 0x1000C0 + sizeofMemBlock := by
    have hfresh := hret.unique (memAlloc_fresh (by decide +kernel))
    exact (congrArg Prod.fst hfresh).trans (by decide +kernel)
  obtain hp0 | ⟨b, hb, huser, -, hwithin, hapart⟩ := hres
  · exact absurd (hp.symm.trans hp0) (by decide)
  · obtain rfl : b = 0x1000C0 := Nat.add_right_cancel (hb.symm.trans hp)
    exact ⟨s', hp ▸ hret, huser, hwithin, hapart⟩

/-- Rounding `2^64 - 1` up to 8 gives `0`: the caller gets a block without payload. -/
theorem alloc_capacity_wraps :
    ∃ t size p s', Run AnySize ⟨bootHeap, []⟩ t ∧ AnySize t.heap size ∧
      Returns (fun fuel => memAlloc fuel t.heap size) (p, s') ∧
      p ≠ 0 ∧ s'.get (sub64 p sizeofMemBlock) .userSize < size := by
  refine ⟨⟨bootHeap, []⟩, 2 ^ 64 - 1, _, _, .refl, by decide, memAlloc_fresh rfl, ?_, ?_⟩
  · decide +kernel
  · decide +kernel

end ExoCore.Mem
