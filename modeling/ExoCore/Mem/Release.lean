/-
  ExoCore.Mem.Release — `mem_free`: push, COALESCE, compact.

    * `Inv₀.absorbed` — a block swallowing its right neighbour keeps the tiling and
      turns the neighbour into a husk;
    * `coalesceLoop_spec` — the merge loop ends: every merge leaves one non-empty
      node less, and between merges the walk goes down the list;
    * `compactLoop_spec` — unlinking the husks ends in a list without them;
    * `memFree_spec` — `mem_free` of a live block does not panic, returns, and
      moves exactly that block from the live ones to the free list.
-/
import ExoCore.Mem.Take
import Mathlib.Data.Finset.Card

namespace ExoCore.Mem

open ExoCore.Lib List

/-! ## §1. One merge. -/

/-- The state after `left` swallowed `right`. -/
structure Absorbed (s s' : Heap) (left right : ℕ) : Prop where
  regions : SameRegions s s'
  freeList : s'.freeList = s.freeList
  leftTotal : s'.size left = s.size left + s.size right
  leftUser : s'.get left .userSize = s.size left + s.size right - sizeofMemBlock
  rightTotal : s'.size right = 0
  leftKeeps : ∀ f, f ≠ .totalSize → f ≠ .userSize → s'.get left f = s.get left f
  rightKeeps : ∀ f, f ≠ .totalSize → s'.get right f = s.get right f
  others : ∀ c, HdrApart left c → HdrApart right c → ∀ f, s'.get c f = s.get c f

theorem absorb_spec {s : Heap} {left right : ℕ} (hap : HdrApart left right)
    (hhdr : sizeofMemBlock ≤ s.size left) (hsum : s.size left + s.size right < 2 ^ 64) :
    Absorbed s (absorb s left right) left right := by
  have hadd : add64 (s.get left .totalSize) (s.get right .totalSize) =
      s.size left + s.size right := add64_of_lt hsum
  have hw : ∀ v, v < 2 ^ 64 → v % 256 ^ 8 = v := fun v hv => Nat.mod_eq_of_lt hv
  have heq : absorb s left right =
      ((s.set left .totalSize (s.size left + s.size right)).set left .userSize
        (s.size left + s.size right - sizeofMemBlock)).set right .totalSize 0 := by
    unfold absorb
    simp only [hadd, Heap.get_set_self]
    rw [show (s.size left + s.size right) % 256 ^ Field.totalSize.width = _ from hw _ hsum,
      sub64_of_le (by omega) hsum]
  rw [heq]
  refine ⟨(((SameRegions.refl s).set _ _ _).set _ _ _).set _ _ _, rfl, ?_, ?_, ?_, ?_, ?_, ?_⟩
  · show Heap.get _ left .totalSize = _
    rw [Heap.get_set_apart _ _ _ _ hap.symm, Heap.get_set_field _ _ _ _ _ (by decide),
      Heap.get_set_self]
    exact hw _ hsum
  · rw [Heap.get_set_apart _ _ _ _ hap.symm, Heap.get_set_self]
    exact hw _ (by omega)
  · exact Heap.get_set_self _ _ _ _
  · intro f h1 h2
    rw [Heap.get_set_apart _ _ _ _ hap.symm, Heap.get_set_field _ _ _ _ _ (Ne.symm h2),
      Heap.get_set_field _ _ _ _ _ (Ne.symm h1)]
  · intro f h1
    rw [Heap.get_set_field _ _ _ _ _ (Ne.symm h1), Heap.get_set_apart _ _ _ _ hap,
      Heap.get_set_apart _ _ _ _ hap]
  · intro c hl hr f
    rw [Heap.get_set_apart _ _ _ _ hr, Heap.get_set_apart _ _ _ _ hl,
      Heap.get_set_apart _ _ _ _ hl]

/-- The statics, the byte count and the headers of the live blocks are left alone. -/
structure Quiet (s s' : Heap) (live : List ℕ) : Prop where
  regions : SameRegions s s'
  used : s'.heapUsedBytes = s.heapUsedBytes
  hdrs : ∀ c ∈ live, SameHdr s s' c

theorem Quiet.refl (s : Heap) (live : List ℕ) : Quiet s s live :=
  ⟨SameRegions.refl s, rfl, fun _ _ _ _ => rfl⟩

theorem Quiet.trans {s s' s'' : Heap} {live : List ℕ} (h : Quiet s s' live)
    (h' : Quiet s' s'' live) : Quiet s s'' live :=
  ⟨h.regions.trans h'.regions, h'.used.trans h.used,
    fun c hc f hf => (h'.hdrs c hc f hf).trans (h.hdrs c hc f hf)⟩

/-- Two blocks of the free list, `right` where `left` ends and in its region. -/
structure Touching (s : Heap) (free : List ℕ) (left right : ℕ) : Prop where
  leftFree : left ∈ free
  leftFull : s.size left ≠ 0
  rightFree : right ∈ free
  rightFull : s.size right ≠ 0
  adjacent : left + s.size left = right
  region : s.get left .fromSwap = s.get right .fromSwap

section Merge

variable {s s' : Heap} {live free : List ℕ} {left right : ℕ}

theorem Touching.lb (ht : Touching s free left right) : IsBlock s live free left :=
  .inr ⟨ht.leftFree, ht.leftFull⟩

theorem Touching.rb (ht : Touching s free left right) : IsBlock s live free right :=
  .inr ⟨ht.rightFree, ht.rightFull⟩

variable (h : Inv₀ s live free) (ht : Touching s free left right) (ha : Absorbed s s' left right)
include h ht ha

/-- The nodes that are neither half keep their whole header. -/
theorem Inv₀.absorbed_other {c : ℕ} (hc : c ∈ live ∨ c ∈ free) (hcl : c ≠ left) (hcr : c ≠ right)
    (f : Field) : s'.get c f = s.get c f := by
  rcases hc with hc | hc
  · exact ha.others c (h.hdrApart ht.lb (.inl hc) (Ne.symm hcl))
      (h.hdrApart ht.rb (.inl hc) (Ne.symm hcr)) f
  · exact ha.others c (h.free_hdrApart hc ht.lb (Ne.symm hcl))
      (h.free_hdrApart hc ht.rb (Ne.symm hcr)) f

/-- A merge changes no field but the two sizes. -/
theorem Inv₀.absorbed_get {c : ℕ} (hc : c ∈ live ∨ c ∈ free) {f : Field} (h1 : f ≠ .totalSize)
    (h2 : f ≠ .userSize) : s'.get c f = s.get c f := by
  by_cases hcl : c = left
  · subst hcl
    exact ha.leftKeeps f h1 h2
  by_cases hcr : c = right
  · subst hcr
    exact ha.rightKeeps f h1
  exact h.absorbed_other ht ha hc hcl hcr f

/-- After the merge `right` is the one node that is no block any more. -/
theorem Inv₀.absorbed_isBlock (c : ℕ) :
    IsBlock s' live free c ↔ IsBlock s live free c ∧ c ≠ right := by
  by_cases hcr : c = right
  · subst hcr
    have hnl : c ∉ live := fun hc => h.liveNotFree c hc ht.rightFree
    simp [IsBlock, hnl, ha.rightTotal]
  by_cases hcl : c = left
  · subst hcl
    have hpos : s'.size c ≠ 0 := by
      rw [ha.leftTotal]
      have := ht.leftFull
      omega
    simp [IsBlock, ht.leftFree, ht.leftFull, hpos, hcr]
  · have hsz : ∀ hc : c ∈ free, s'.size c = s.size c := fun hc =>
      h.absorbed_other ht ha (.inr hc) hcl hcr .totalSize
    unfold IsBlock
    constructor
    · rintro (hc | ⟨hc, hc0⟩)
      · exact ⟨.inl hc, hcr⟩
      · exact ⟨.inr ⟨hc, hsz hc ▸ hc0⟩, hcr⟩
    · rintro ⟨hc | ⟨hc, hc0⟩, -⟩
      · exact .inl hc
      · exact .inr ⟨hc, (hsz hc).symm ▸ hc0⟩

/-- **A merge keeps the heap invariant.** -/
theorem Inv₀.absorbed : Inv₀ s' live free := by
  have hadj := ht.adjacent
  have hreg := ht.region
  have hlok := h.block left ht.lb
  have hrok := h.block right ht.rb
  have hblk := h.absorbed_isBlock ht ha
  refine ⟨ha.regions.geometry h.geom, ?_, h.liveNodup, h.liveNotFree, ?_, ?_, ?_, ?_, ?_⟩
  · rw [ha.freeList]
    exact h.list.congr fun c hc => h.absorbed_get ht ha (.inr hc) (by decide) (by decide)
  · intro c hc
    obtain ⟨hc, hcr⟩ := (hblk c).mp hc
    by_cases hcl : c = left
    · subst hcl
      refine ⟨?_, ?_, ?_⟩
      · rw [ha.leftTotal]
        have := hlok.header
        omega
      · rw [ha.leftTotal]
        exact ha.leftUser
      · -- `left` now ends where `right` ended, in the same region
        have h1 := hlok.within
        have h2 := hrok.within
        unfold Within at *
        rw [ha.leftTotal, ha.leftKeeps .fromSwap (by decide) (by decide), ha.regions.heapStart,
          ha.regions.heapPtr, ha.regions.swapSpace, ha.regions.swapPtr]
        omega
    · exact (h.block c hc).congr ha.regions.covers fun f _ _ =>
        h.absorbed_other ht ha hc.mem hcl hcr f
  · intro c hc
    rw [h.absorbed_get ht ha (.inl hc) (by decide) (by decide)]
    exact h.active c hc
  · intro c hc
    rw [h.absorbed_get ht ha (.inr hc) (by decide) (by decide)]
    exact h.freed c hc
  · rw [ha.regions.carved]
    exact h.tiles.merge ht.lb ht.rb hadj hblk ha.leftTotal fun c hc hcl hcr =>
      h.absorbed_other ht ha hc.mem hcl hcr .totalSize
  · intro z hz hz0
    have h1 := hlok.header
    have h2 := hrok.header
    have hroom : left + s'.size left = right + s.size right := by
      rw [ha.leftTotal]
      omega
    have hl0 := ht.leftFull
    have hleft : s'.size left ≠ 0 := by omega
    by_cases hzr : z = right
    · subst hzr
      exact ⟨left, ht.leftFree, hleft, by omega, by omega⟩
    by_cases hzl : z = left
    · exact absurd (hzl ▸ hz0) hleft
    -- an older husk: its host is `right`, `left`, or untouched
    have hzs : s'.size z = s.size z := h.absorbed_other ht ha (.inr hz) hzl hzr .totalSize
    obtain ⟨b, hb, hb0, hlo, hhi⟩ := h.husk z hz (hzs ▸ hz0)
    by_cases hbr : b = right
    · subst hbr
      exact ⟨left, ht.leftFree, hleft, by omega, by omega⟩
    by_cases hbl : b = left
    · subst hbl
      exact ⟨b, ht.leftFree, hleft, by omega, by omega⟩
    · have hbs : s'.size b = s.size b := h.absorbed_other ht ha (.inr hb) hbl hbr .totalSize
      exact ⟨b, hb, by omega, hlo, by omega⟩

end Merge

/-! ## §2. `coalesce_block`. -/

/-- The non-empty nodes of the free list. -/
def fullNodes (s : Heap) (free : List ℕ) : Finset ℕ := free.toFinset.filter fun b => s.size b ≠ 0

section Coalesce

variable {s s' : Heap} {live free : List ℕ} {blk it : ℕ}

variable {left right : ℕ}

theorem Inv₀.fullNodes_lt (h : Inv₀ s live free) (ht : Touching s free left right)
    (ha : Absorbed s s' left right) : (fullNodes s' free).card < (fullNodes s free).card := by
  have hblk := h.absorbed_isBlock ht ha
  apply Finset.card_lt_card
  refine Finset.ssubset_iff_subset_ne.mpr ⟨?_, ?_⟩
  · intro c hc
    simp only [fullNodes, Finset.mem_filter, mem_toFinset] at hc ⊢
    rcases ((hblk c).mp (.inr hc)).1 with hcl | hcf
    · exact absurd hc.1 (h.liveNotFree c hcl)
    · exact hcf
  · intro heq
    have hmem : right ∈ fullNodes s free := by simp [fullNodes, ht.rightFree, ht.rightFull]
    rw [← heq] at hmem
    simp [fullNodes, ha.rightTotal] at hmem

/-- A husk is adjacent to no block, on either side. -/
theorem Inv₀.husk_not_adjacent {z : ℕ} (h : Inv₀ s live free) (hz : z ∈ free)
    (hz0 : s.size z = 0) (hb : IsBlock s live free blk) (hne : z ≠ blk) :
    z + s.size z ≠ blk ∧ blk + s.size blk ≠ z := by
  obtain ⟨c, hc, hc0, hlo, hhi⟩ := h.husk z hz hz0
  refine ⟨by omega, ?_⟩
  by_cases hbc : blk = c
  · subst hbc
    unfold sizeofMemBlock at *
    omega
  · have := h.apart hb (.inr ⟨hc, hc0⟩) hbc
    unfold Apart sizeofMemBlock at *
    omega

/-- `blocks_adjacent` on free nodes: no node's end wraps. -/
theorem Inv₀.blocksAdjacent_iff {a c : ℕ} (h : Inv₀ s live free) (ha : a ∈ free) :
    blocksAdjacent s a c = true ↔ a + s.size a = c := by
  have hend : a + s.size a < 2 ^ 64 := by
    by_cases ha0 : s.size a = 0
    · obtain ⟨b, hb, hb0, -, hhi⟩ := h.husk a ha ha0
      have := (h.bounds (.inr ⟨hb, hb0⟩)).2.1
      omega
    · exact (h.bounds (.inr ⟨ha, ha0⟩)).2.1
  unfold blocksAdjacent
  rw [beq_iff_eq]
  rw [show add64 a (s.get a .totalSize) = a + s.size a from add64_of_lt hend]

/-- No two free blocks of a region touch, `blk` apart. -/
def SeparateBut (s : Heap) (free : List ℕ) (blk : ℕ) : Prop :=
  ∀ a ∈ free, ∀ c ∈ free, a ≠ blk → c ≠ blk → s.size a ≠ 0 → s.size c ≠ 0 →
    s.get a .fromSwap = s.get c .fromSwap → a + s.size a ≠ c

/-- `blk` does not touch the block `c` of its region. -/
def Clear (s : Heap) (blk c : ℕ) : Prop :=
  s.get c .fromSwap = s.get blk .fromSwap → c + s.size c ≠ blk ∧ blk + s.size blk ≠ c

theorem SeparateBut.separate (h : SeparateBut s free blk) (hclear : ∀ c ∈ free, Clear s blk c) :
    Separate s free := by
  intro a ha c hc ha0 hc0 hreg
  by_cases hab : a = blk
  · rw [hab] at hreg ⊢
    exact (hclear c hc hreg.symm).2
  by_cases hcb : c = blk
  · rw [hcb] at hreg ⊢
    exact (hclear a ha hreg).1
  exact h a ha c hc hab hcb ha0 hc0 hreg

/-- The blocks that may not touch are blocks that did not, as they were. -/
theorem SeparateBut.congr {free' : List ℕ} {blk' : ℕ} (h : SeparateBut s free blk)
    (hold : ∀ x ∈ free', x ≠ blk' → s'.size x ≠ 0 → x ∈ free ∧ x ≠ blk ∧ SameHdr s s' x) :
    SeparateBut s' free' blk' := by
  intro a ha c hc hab hcb ha0 hc0 hreg
  obtain ⟨ha, hab, hasame⟩ := hold a ha hab ha0
  obtain ⟨hc, hcb, hcsame⟩ := hold c hc hcb hc0
  rw [hasame.size] at ha0 ⊢
  rw [hcsame.size] at hc0
  rw [hasame .fromSwap (by decide), hcsame .fromSwap (by decide)] at hreg
  exact h a ha c hc hab hcb ha0 hc0 hreg

/-- After a merge only the merged block can touch another one. -/
theorem Inv₀.separateBut_absorb (h : Inv₀ s live free) (ht : Touching s free left right)
    (ha : Absorbed s s' left right) (hblk : blk = left ∨ blk = right)
    (hsep : SeparateBut s free blk) : SeparateBut s' free left := by
  -- the right half is a husk now, and every third block is as it was
  have hold : ∀ x ∈ free, x ≠ left → s'.size x ≠ 0 → x ∈ free ∧ x ≠ blk ∧ SameHdr s s' x := by
    intro x hx hxl hx0
    have hxr : x ≠ right := by
      rintro rfl
      exact hx0 ha.rightTotal
    refine ⟨hx, ?_, fun f _ => h.absorbed_other ht ha (.inr hx) hxl hxr f⟩
    rcases hblk with rfl | rfl
    · exact hxl
    · exact hxr
  exact hsep.congr hold

/-- The merge the loop makes when it finds `left` and `right` adjacent. -/
theorem Inv₀.merge_step (blk : ℕ) (h : Inv₀ s live free) (hl : left ∈ free)
    (hr : right ∈ free) (hne : left ≠ right) (hfull : s.size left ≠ 0 ∨ s.size right ≠ 0)
    (hreg : sameBackingRegion s left right = true)
    (hadj : blocksAdjacent s left right = true) :
    Inv₀ (absorb s left right) live free ∧ Quiet s (absorb s left right) live ∧
      (absorb s left right).size left ≠ 0 ∧
      (fullNodes (absorb s left right) free).card < (fullNodes s free).card ∧
      (blk = left ∨ blk = right → SeparateBut s free blk →
        SeparateBut (absorb s left right) free left) := by
  have hadj := (h.blocksAdjacent_iff hl).mp hadj
  -- neither of them is a husk
  have hl0 : s.size left ≠ 0 := by
    intro h0
    have hrb : IsBlock s live free right := .inr ⟨hr, hfull.resolve_left (by simp [h0])⟩
    exact (h.husk_not_adjacent hl h0 hrb hne).1 hadj
  have hr0 : s.size right ≠ 0 := by
    intro h0
    exact (h.husk_not_adjacent hr h0 (.inr ⟨hl, hl0⟩) (Ne.symm hne)).2 hadj
  have ht : Touching s free left right := ⟨hl, hl0, hr, hr0, hadj, beq_iff_eq.mp hreg⟩
  have hsum : s.size left + s.size right < 2 ^ 64 := by
    have := (h.bounds ht.rb).2.1
    omega
  have ha := absorb_spec (h.hdrApart ht.lb ht.rb hne) (h.block left ht.lb).header hsum
  have hlive : ∀ c ∈ live, SameHdr s (absorb s left right) c := by
    intro c hc f _
    refine h.absorbed_other ht ha (.inl hc) ?_ ?_ f
    · exact fun hcl => h.liveNotFree c hc (hcl ▸ hl)
    · exact fun hcr => h.liveNotFree c hc (hcr ▸ hr)
  refine ⟨h.absorbed ht ha, ⟨ha.regions, rfl, hlive⟩, ?_, h.fullNodes_lt ht ha,
    h.separateBut_absorb ht ha⟩
  rw [ha.leftTotal]
  omega

/-- **`coalesce_block` ends and keeps the invariant**: a merge leaves one full
node less, a turn without merge one node less ahead.  The nodes passed since the last
merge do not touch `blk`, so at the end no node does. -/
theorem coalesceLoop_spec : ∀ (n : ℕ) {s : Heap} {blk : ℕ}, (fullNodes s free).card = n →
    Inv₀ s live free → blk ∈ free → s.size blk ≠ 0 →
    ∀ (rest : List ℕ) (it : ℕ), Seg s.next it rest 0 → (∀ c ∈ rest, c ∈ free) →
      (∀ c ∈ free, c ∈ rest ∨ Clear s blk c) →
      ∃ s', Returns (fun fuel => coalesceLoop fuel s blk it) s' ∧ Inv₀ s' live free ∧
        Quiet s s' live ∧ (SeparateBut s free blk → Separate s' free) := by
  intro n
  induction n using Nat.strong_induction_on with
  | _ n ihn =>
    intro s blk hn h hblk hblk0 rest
    induction rest with
    | nil =>
      intro it hseg _ hpassed
      have hit0 : it = 0 := hseg
      refine ⟨s, Returns.stop fun fuel => ?_, h, Quiet.refl s live, fun hsep => ?_⟩
      · show coalesceLoop (fuel + 1) s blk it = _
        rw [coalesceLoop, if_pos hit0]
      · exact hsep.separate fun c hc => (hpassed c hc).resolve_left not_mem_nil
    | cons c rest ihr =>
      intro it hseg hsub hpassed
      obtain ⟨rfl, hit0, hseg⟩ := hseg
      have hit : it ∈ free := hsub it (by simp)
      -- the turn that only moves on
      have hmove : Clear s blk it → _ := fun hclear =>
        ihr _ hseg (fun d hd => hsub d (by simp [hd])) fun d hd => by
          rcases hpassed d hd with hd | hd
          · rcases mem_cons.mp hd with rfl | hd
            · exact .inr hclear
            · exact .inl hd
          · exact .inr hd
      -- the turn that merges
      have hmerge : ∀ left right, left ∈ free → right ∈ free → left ≠ right →
          (s.size left ≠ 0 ∨ s.size right ≠ 0) → sameBackingRegion s left right = true →
          blocksAdjacent s left right = true → blk = left ∨ blk = right → ∃ t,
          Returns (fun fuel => coalesceLoop fuel (absorb s left right) left
            (absorb s left right).freeList) t ∧ Inv₀ t live free ∧ Quiet s t live ∧
            (SeparateBut s free blk → Separate t free) := by
        intro left right hl hr hne hfull hreg hadj hside
        obtain ⟨h', hquiet, hsz, hlt, hbut⟩ := h.merge_step blk hl hr hne hfull hreg hadj
        obtain ⟨t, ht, hinv, hquiet', hsep⟩ := ihn _ (hn ▸ hlt) rfl h' hl hsz free _ h'.list
          (fun d hd => hd) fun d hd => .inl hd
        exact ⟨t, ht, hinv, hquiet.trans hquiet', fun hs => hsep (hbut hside hs)⟩
      by_cases hc : it ≠ blk ∧ sameBackingRegion s it blk
      · by_cases h1 : blocksAdjacent s it blk = true
        · obtain ⟨t, ht, hrest⟩ := hmerge it blk hit hblk hc.1 (.inr hblk0) hc.2 h1 (.inr rfl)
          refine ⟨t, ht.turn fun fuel => ?_, hrest⟩
          rw [coalesceLoop, if_neg hit0, if_pos hc, if_pos h1]
        by_cases h2 : blocksAdjacent s blk it = true
        · have hreg : sameBackingRegion s blk it = true := by
            have := hc.2
            unfold sameBackingRegion at *
            rwa [Bool.beq_comm]
          obtain ⟨t, ht, hrest⟩ := hmerge blk it hblk hit hc.1.symm (.inl hblk0) hreg h2 (.inl rfl)
          refine ⟨t, ht.turn fun fuel => ?_, hrest⟩
          rw [coalesceLoop, if_neg hit0, if_pos hc, if_neg h1, if_pos h2]
        · have hclear : Clear s blk it := fun _ =>
            ⟨fun hadj => h1 ((h.blocksAdjacent_iff hit).mpr hadj),
              fun hadj => h2 ((h.blocksAdjacent_iff hblk).mpr hadj)⟩
          obtain ⟨t, ht, hinv, hreg⟩ := hmove hclear
          refine ⟨t, ht.turn fun fuel => ?_, hinv, hreg⟩
          rw [coalesceLoop, if_neg hit0, if_pos hc, if_neg h1, if_neg h2]
          rfl
      · have hclear : Clear s blk it := by
          intro hreg
          have hself : it = blk := by
            by_contra hne
            exact hc ⟨hne, beq_iff_eq.mpr hreg⟩
          rw [hself]
          omega
        obtain ⟨t, ht, hinv, hreg⟩ := hmove hclear
        refine ⟨t, ht.turn fun fuel => ?_, hinv, hreg⟩
        rw [coalesceLoop, if_neg hit0, if_neg hc]
        rfl

end Coalesce

/-! ## §3. `compact_free_list`. -/

section Compact

variable {s s' : Heap} {live free : List ℕ} {p q : List ℕ} {z : ℕ}

/-- Unlinking a husk that is reached over full nodes. -/
theorem Inv₀.unlink_husk (h : Inv₀ s live (p ++ z :: q)) (hp : ∀ b ∈ p, s.size b ≠ 0)
    (hz0 : s.size z = 0) :
    Inv₀ (s.setLink (lastLink p) (s.get z .next)) live (p ++ q) ∧
      ∀ c, c ∈ live ∨ c ∈ p ++ z :: q →
        SameHdr s (s.setLink (lastLink p) (s.get z .next)) c := by
  have hsub : ∀ c ∈ p ++ q, c ∈ p ++ z :: q := by
    intro c hc
    simp only [mem_append, mem_cons] at hc ⊢
    exact hc.imp_right .inr
  -- the node that holds the link is a block, so its header meets no other one
  have hlink : ∀ c, c ∈ live ∨ c ∈ p ++ z :: q →
      ∀ a, lastLink p = .next a → a = c ∨ HdrApart a c := by
    intro c hc a ha
    have hap : a ∈ p := mem_of_lastLink ha
    have hab : IsBlock s live (p ++ z :: q) a := .inr ⟨by simp [hap], hp a hap⟩
    by_cases hac : a = c
    · exact .inl hac
    rcases hc with hc | hc
    · exact .inr (h.hdrApart hab (.inl hc) hac)
    · exact .inr (h.free_hdrApart hc hab hac)
  have hsame : ∀ c, c ∈ live ∨ c ∈ p ++ z :: q →
      SameHdr s (s.setLink (lastLink p) (s.get z .next)) c := fun c hc f hf =>
    Heap.get_setLink_field (hlink c hc) hf
  refine ⟨h.relink ((SameRegions.refl s).setLink _ _) hsame ?_ hsub ?_, hsame⟩
  · apply h.list.unlink
    · intro hl
      rw [Heap.freeList_setLink, if_neg hl]
    · intro b hb hl
      apply Heap.get_setLink_apart
      intro a ha
      rcases hlink b (.inr (hsub b hb)) a ha with rfl | hap
      · exact absurd ha hl
      · exact hap
    · cases lastLink p with
      | head => rfl
      | next a => exact rdLE_wrLE_of_lt (s.get_lt z .next)
  · intro c hc hc0
    simp only [mem_append, mem_cons] at hc ⊢
    rcases hc with hc | rfl | hc
    · exact .inl hc
    · exact absurd hz0 hc0
    · exact .inr hc

theorem Inv₀.getLink_lastLink (h : Inv₀ s live (p ++ q)) {m : ℕ} (hm : Seg s.next m q 0) :
    s.getLink (lastLink p) = m := by
  obtain ⟨m', hfront, hback⟩ := seg_append.mp h.list
  have hmm : m' = m := by
    cases q with
    | nil => exact Eq.trans hback (Eq.symm hm)
    | cons c q => exact hback.1.trans hm.1.symm
  have hget := hfront.get_lastLink
  rw [hmm] at hget
  cases hl : lastLink p with
  | head => rw [hl] at hget; exact hget
  | next a => rw [hl] at hget; exact hget

/-- **`compact_free_list` ends in a list without husks**: `p` is the part already
cleaned, `q` the part ahead. -/
theorem compactLoop_spec : ∀ (q p : List ℕ) {s : Heap}, Inv₀ s live (p ++ q) →
    (∀ b ∈ p, s.size b ≠ 0) →
    ∃ s' free', Returns (fun fuel => compactLoop fuel s (lastLink p)) s' ∧ Inv s' live free' ∧
      Quiet s s' live ∧ (Separate s (p ++ q) → Separate s' free') := by
  intro q
  induction q with
  | nil =>
    intro p s h hp
    have hlink : s.getLink (lastLink p) = 0 := h.getLink_lastLink rfl
    rw [append_nil] at h ⊢
    refine ⟨s, p, Returns.stop fun fuel => ?_, ⟨h, hp⟩, Quiet.refl s live, id⟩
    show compactLoop (fuel + 1) s (lastLink p) = _
    rw [compactLoop, if_pos hlink]
  | cons z q ih =>
    intro p s h hp
    obtain ⟨m, -, hz⟩ := seg_append.mp h.list
    obtain ⟨rfl, hz0, hback⟩ := hz
    have hlink : s.getLink (lastLink p) = m := h.getLink_lastLink ⟨rfl, hz0, hback⟩
    by_cases hsz : s.get m .totalSize = 0
    · -- a husk: unlink it and look at the same link again
      obtain ⟨h', hsame⟩ := h.unlink_husk hp hsz
      have hp' : ∀ b ∈ p, (s.setLink (lastLink p) (s.get m .next)).size b ≠ 0 := by
        intro b hb
        rw [(hsame b (.inr (by simp [hb]))).size]
        exact hp b hb
      obtain ⟨t, free', ht, hinv, hreg, hsep⟩ := ih p h' hp'
      have hquiet : Quiet s (s.setLink (lastLink p) (s.get m .next)) live := by
        exact ⟨(SameRegions.refl s).setLink _ _, s.used_setLink _ _, fun c hc => hsame c (.inl hc)⟩
      refine ⟨t, free', ht.turn fun fuel => ?_, hinv, hquiet.trans hreg, fun hs => hsep ?_⟩
      · rw [compactLoop, hlink, if_neg hz0, if_pos hsz]
      · refine hs.congr (fun c hc => ?_) fun c hc => hsame c (.inr ?_)
        all_goals
          rw [mem_append] at hc ⊢
          exact hc.imp_right (mem_cons_of_mem m)
    · have happ : p ++ m :: q = (p ++ [m]) ++ q := by simp
      rw [happ] at h ⊢
      have hp' : ∀ b ∈ p ++ [m], s.size b ≠ 0 := by
        intro b hb
        rcases mem_append.mp hb with hb | hb
        · exact hp b hb
        · rw [mem_singleton.mp hb]
          exact hsz
      obtain ⟨t, free', ht, hinv, hreg⟩ := ih (p ++ [m]) h hp'
      refine ⟨t, free', ht.turn fun fuel => ?_, hinv, hreg⟩
      show compactLoop (fuel + 1) s (lastLink p) = compactLoop fuel s (lastLink (p ++ [m]))
      rw [compactLoop, hlink, if_neg hz0, if_neg hsz, lastLink_concat]

end Compact

/-! ## §4. `mem_free`. -/

section Free

variable {s s' : Heap} {live free : List ℕ} {b : ℕ}

/-- Writing into the payload of a live block keeps the heap good. -/
theorem Inv.payload (h : Inv s live free) (hb : b ∈ live) (hr : SameRegions s s')
    (hl : s'.freeList = s.freeList)
    (hmem : ∀ i, ¬ (b + sizeofMemBlock ≤ i ∧ i < b + s.size b) → s'.mem i = s.mem i) :
    Inv s' live free ∧ ∀ c, IsBlock s live free c → ∀ f, s'.get c f = s.get c f := by
  have hget : ∀ c, IsBlock s live free c → ∀ f, s'.get c f = s.get c f := by
    intro c hc
    apply Heap.get_congr
    intro i hi1 hi2
    apply hmem
    by_cases hcb : c = b
    · subst hcb
      omega
    · have h1 := h.apart hc (.inl hb) hcb
      have h2 := (h.block c hc).header
      unfold Apart at h1
      omega
  exact ⟨h.congr hr hl hget, hget⟩

theorem Inv.scrub (h : Inv s live free) (hb : b ∈ live) :
    Inv (scrubPayload s (b + sizeofMemBlock) b) live free ∧
      Quiet s (scrubPayload s (b + sizeofMemBlock) b) live ∧
      ∀ c ∈ free, SameHdr s (scrubPayload s (b + sizeofMemBlock) b) c := by
  have hok := h.block b (.inl hb)
  have huser := hok.user
  have hhdr := hok.header
  unfold scrubPayload
  split
  · have hr : SameRegions s (debugFill s (b + sizeofMemBlock) (s.get b .userSize)) :=
      ⟨rfl, rfl, rfl, rfl, rfl, rfl⟩
    obtain ⟨hinv, hget⟩ := h.payload hb hr rfl (by
      intro i hi
      show (if _ then _ else if _ then _ else s.mem i) = _
      rw [if_neg (by omega), if_neg (by omega)])
    exact ⟨hinv, ⟨hr, rfl, fun c hc f _ => hget c (.inl hc) f⟩,
      fun c hc f _ => hget c (h.isBlock_free hc) f⟩
  · exact ⟨h, Quiet.refl s live, fun _ _ _ _ => rfl⟩

theorem tallyFree_frame (s : Heap) (b : ℕ) : SameRegions s (tallyFree s b) ∧
    (tallyFree s b).freeList = s.freeList ∧ (tallyFree s b).mem = s.mem := by
  unfold tallyFree
  split <;> exact ⟨⟨rfl, rfl, rfl, rfl, rfl, rfl⟩, rfl, rfl⟩

/-- The two header writes of a push. -/
theorem pushBlock_spec (s : Heap) (b : ℕ) :
    SameRegions s (pushBlock s b) ∧ (pushBlock s b).freeList = b ∧
      (pushBlock s b).get b .guard = memGuardFreed ∧
      (pushBlock s b).next b = s.freeList % 2 ^ 64 ∧
      (∀ f, f ≠ .guard → f ≠ .next → (pushBlock s b).get b f = s.get b f) ∧
      ∀ c, HdrApart b c → ∀ f, (pushBlock s b).get c f = s.get c f := by
  have hget : ∀ c f, (pushBlock s b).get c f =
      ((s.set b .guard memGuardFreed).set b .next s.freeList).get c f := by
    intro c f
    exact Heap.get_of_mem_eq rfl c f
  refine ⟨⟨rfl, rfl, rfl, rfl, rfl, rfl⟩, rfl, ?_, ?_, ?_, ?_⟩
  · rw [hget, Heap.get_set_field _ _ _ _ _ (by decide), Heap.get_set_self]
    rfl
  · rw [Heap.next, hget, Heap.get_set_self]
    rfl
  · intro f h1 h2
    rw [hget, Heap.get_set_field _ _ _ _ _ (Ne.symm h2), Heap.get_set_field _ _ _ _ _ (Ne.symm h1)]
  · intro c hc f
    rw [hget, Heap.get_set_apart _ _ _ _ hc, Heap.get_set_apart _ _ _ _ hc]

theorem pushBlock_used (s : Heap) (b : ℕ) : (pushBlock s b).heapUsedBytes = s.heapUsedBytes := rfl

theorem Inv.freeList_lt (h : Inv s live free) : s.freeList < 2 ^ 64 := by
  have hlist := h.list
  cases free with
  | nil =>
    have h0 : s.freeList = 0 := hlist
    omega
  | cons a l =>
    have h1 := h.bounds (h.isBlock_free (b := a) (by simp))
    have h2 : s.freeList = a := hlist.1
    omega

/-- **Pushing a live block** moves it to the head of the free list. -/
theorem Inv.push (h : Inv s live free) (hb : b ∈ live) :
    Inv (pushBlock s b) (live.erase b) (b :: free) := by
  obtain ⟨hreg, hhead, hguard, hnext, hself, hother⟩ := pushBlock_spec s b
  rw [Nat.mod_eq_of_lt h.freeList_lt] at hnext
  generalize pushBlock s b = s' at *
  have hbI : IsBlock s live free b := .inl hb
  have hbd := h.bounds hbI
  have hbf : b ∉ free := h.liveNotFree b hb
  have her : ∀ c, c ∈ live.erase b ↔ c ≠ b ∧ c ∈ live := fun c => h.liveNodup.mem_erase_iff
  have hkeep : ∀ c, IsBlock s live free c → c ≠ b → ∀ f, s'.get c f = s.get c f := by
    intro c hc hne
    exact hother c (h.hdrApart hbI hc (Ne.symm hne))
  have hsame : ∀ c, IsBlock s live free c → ∀ f, f ≠ .guard → f ≠ .next →
      s'.get c f = s.get c f := by
    intro c hc f h1 h2
    by_cases hcb : c = b
    · subst hcb
      exact hself f h1 h2
    · exact hkeep c hc hcb f
  have hok : ∀ c, IsBlock s live free c → BlockOk s' c := fun c hc =>
    (h.block c hc).congr hreg.covers (hsame c hc)
  refine .of_blocks (hreg.geometry h.geom) ⟨hhead, by omega, ?_⟩ (h.liveNodup.erase b) ?_ ?_ ?_
    (hreg.carved ▸ h.tiles.congr (fun c => ?_) fun c hc => hsame c hc .totalSize (by decide) (by decide))
  · rw [hnext]
    refine h.list.congr fun c hc => hkeep c (h.isBlock_free hc) ?_ .next
    exact fun hcb => hbf (hcb ▸ hc)
  · intro c hc
    obtain ⟨hcb, hc⟩ := (her c).mp hc
    simp [hcb, h.liveNotFree c hc]
  · intro c hc
    obtain ⟨hcb, hc⟩ := (her c).mp hc
    rw [hkeep c (.inl hc) hcb]
    exact ⟨hok c (.inl hc), h.active c hc⟩
  · intro c hc
    rcases mem_cons.mp hc with rfl | hc
    · exact ⟨hok c hbI, hguard⟩
    · rw [hkeep c (h.isBlock_free hc) fun hcb => hbf (hcb ▸ hc)]
      exact ⟨hok c (h.isBlock_free hc), h.freed c hc⟩
  · show (c ∈ live.erase b ∨ c ∈ b :: free) ↔ IsBlock s live free c
    rw [h.isBlock_iff, her, mem_cons]
    by_cases hcb : c = b
    · simp [hcb, hb]
    · simp [hcb]

/-- What `mem_free` leaves behind: the statics are the same, the bytes of `b` are counted
off (if they were counted), and the other live headers are untouched. -/
structure Freed (s s' : Heap) (live : List ℕ) (b : ℕ) : Prop where
  regions : SameRegions s s'
  used : s'.heapUsedBytes = if s.get b .userSize ≤ s.heapUsedBytes
    then s.heapUsedBytes - s.get b .userSize else s.heapUsedBytes
  hdrs : ∀ c ∈ live.erase b, SameHdr s s' c

/-- Counting and pushing, before the list is tidied. -/
theorem Inv.freed_push (h : Inv s live free) (hb : b ∈ live) :
    Freed s (pushBlock (Mem.tallyFree s b) b) live b := by
  obtain ⟨hr2, -, hmem⟩ := tallyFree_frame s b
  obtain ⟨hr3, -, -, -, -, hother⟩ := pushBlock_spec (Mem.tallyFree s b) b
  refine ⟨hr2.trans hr3, ?_, ?_⟩
  · rw [pushBlock_used]
    by_cases hle : s.get b .userSize ≤ s.heapUsedBytes
    · rw [Mem.tallyFree, if_pos hle, if_pos hle]
    · rw [Mem.tallyFree, if_neg hle, if_neg hle]
  · intro c hc f _
    obtain ⟨hcb, hc⟩ := h.liveNodup.mem_erase_iff.mp hc
    rw [hother c (h.hdrApart (.inl hb) (.inl hc) (Ne.symm hcb)), Heap.get_of_mem_eq hmem]

theorem Freed.quiet {s₀ : Heap} (h : Freed s s' live b) (hq : Quiet s₀ s live)
    (hb : b ∈ live) : Freed s₀ s' live b := by
  refine ⟨hq.regions.trans h.regions, ?_, fun c hc f hf => ?_⟩
  · rw [h.used, hq.used, hq.hdrs b hb .userSize (by decide)]
  · exact (h.hdrs c hc f hf).trans (hq.hdrs c (mem_of_mem_erase hc) f hf)

theorem Freed.tidied {s'' : Heap} (h : Freed s s' live b) (hq : Quiet s' s'' (live.erase b)) :
    Freed s s'' live b :=
  ⟨h.regions.trans hq.regions, hq.used.trans h.used,
    fun c hc f hf => (hq.hdrs c hc f hf).trans (h.hdrs c hc f hf)⟩

/-- The state in which `mem_free` of the block `b` calls `coalesce_block`. -/
def pushed (s : Heap) (b : ℕ) : Heap :=
  pushBlock (tallyFree (scrubPayload s (b + sizeofMemBlock) b) b) b

section

variable (h : Inv s live free)
include h

/-- With `b` in front of the free list only `b` can touch another block. -/
theorem Inv.separateBut_push (hb : b ∈ live) (hsep : Separate s free) :
    SeparateBut (pushed s b) (b :: free) b := by
  obtain ⟨h1, -, hsame1⟩ := h.scrub hb
  have hold : ∀ c ∈ free, SameHdr s (pushed s b) c := by
    intro c hc f hf
    have hcb : b ≠ c := fun hcb => h.liveNotFree b hb (hcb ▸ hc)
    obtain ⟨-, -, -, -, -, hother⟩ :=
      pushBlock_spec (Mem.tallyFree (scrubPayload s (b + sizeofMemBlock) b) b) b
    rw [pushed, hother c (h.hdrApart (.inl hb) (h.isBlock_free hc) hcb),
      Heap.get_of_mem_eq (tallyFree_frame _ b).2.2]
    exact hsame1 c hc f hf
  have hbut : SeparateBut s free b := fun a ha c hc _ _ => hsep a ha c hc
  refine hbut.congr fun x hx hxb _ => ?_
  have hx := (mem_cons.mp hx).resolve_left hxb
  exact ⟨hx, hxb, hold x hx⟩

/-- **`coalesce_block` in `mem_free`** ends. -/
theorem Inv.coalesce (hb : b ∈ live) :
    ∃ s', Returns (fun fuel => coalesceBlock fuel (pushed s b) b) s' ∧
      Inv₀ s' (live.erase b) (b :: free) ∧ Quiet (pushed s b) s' (live.erase b) ∧
      (Separate s free → Separate s' (b :: free)) := by
  obtain ⟨hr, hl, hm⟩ := tallyFree_frame (scrubPayload s (b + sizeofMemBlock) b) b
  have hpush := ((h.scrub hb).1.congr_mem hr hl hm).push hb
  obtain ⟨t, ht, hinv, hquiet, hsep⟩ := coalesceLoop_spec _ rfl hpush.toInv₀ (by simp)
    (hpush.noHusk b (by simp)) _ _ hpush.list (fun c hc => hc) fun c hc => .inl hc
  exact ⟨t, ht, hinv, hquiet, fun hs => hsep (h.separateBut_push hb hs)⟩

/-- `mem_free` after its checks. -/
theorem releaseBlock_spec (hb : b ∈ live) :
    ∃ s' free', Returns (fun fuel => releaseBlock fuel s (b + sizeofMemBlock) b) s' ∧
      Inv s' (live.erase b) free' ∧ Freed s s' live b ∧ (Separate s free → Separate s' free') := by
  obtain ⟨h1, hr1, -⟩ := h.scrub hb
  have hf := (h1.freed_push hb).quiet hr1 hb
  obtain ⟨t, ht, hinv, hr4, hsep⟩ := h.coalesce hb
  obtain ⟨t', free', ht', hinv', hr5, hsep'⟩ := compactLoop_spec _ [] (s := t) hinv (by simp)
  refine ⟨t', free', ?_, hinv', (hf.tidied hr4).tidied hr5, fun hs => hsep' (hsep hs)⟩
  refine Returns.bind (k := fun t fuel => compactFreeList fuel t) ht ht' ?_
  intro fuel hok
  unfold pushed at hok
  simp only [releaseBlock, hok]

/-- **`mem_free` of a live block** passes every check, returns, and keeps the heap
good with that block no longer live. -/
theorem memFree_spec (hb : b ∈ live) {size : ℕ} (hsize : size = 0 ∨ size ≤ s.get b .userSize) :
    ∃ s' free', Returns (fun fuel => memFree fuel s (b + sizeofMemBlock) size) s' ∧
      Inv s' (live.erase b) free' ∧ Freed s s' live b ∧ (Separate s free → Separate s' free') := by
  have hbI : IsBlock s live free b := .inl hb
  have hok := h.block b hbI
  have hbd := h.bounds hbI
  have hhdr := hok.header
  have hw := hok.within
  have hact := h.active b hb
  have hblk : sub64 (b + sizeofMemBlock) sizeofMemBlock = b := by
    rw [sub64_of_le (by omega) (by omega)]
    omega
  have hin : ¬ ((!ptrInRegion b s.heapStart s.heapMaxEnd &&
      !ptrInRegion b s.swapSpace s.swapEnd) = true) := by
    rw [h.geom.swapEnd]
    obtain ⟨g1, g2, g3, g4, g5, g6, g7, g8, g9, g10, g11⟩ := h.geom
    unfold Within at hw
    unfold sizeofMemBlock at hhdr
    simp only [ptrInRegion, Bool.and_eq_true, Bool.not_eq_true',
      Bool.and_eq_false_iff, decide_eq_false_iff_not]
    omega
  obtain ⟨s', free', hret, hinv, hreg⟩ := releaseBlock_spec h hb
  refine ⟨s', free', ?_, hinv, hreg⟩
  have heq : ∀ fuel, memFree fuel s (b + sizeofMemBlock) size =
      releaseBlock fuel s (b + sizeofMemBlock) b := by
    intro fuel
    unfold memFree
    simp only [hblk]
    rw [if_neg (by omega), if_neg hin, if_neg (by omega), if_neg (by simp [hact]),
      if_neg (by omega)]
  simp only [heq]
  exact hret

end

end Free

end ExoCore.Mem
