/-
  ExoCore.Mem.Take — TAKING A BLOCK from the free list keeps the heap invariant.

  The block found is cut (`Inv.take_cut`) or handed out whole (`Inv.take_whole`);
  `Laid.spliced` says what either does to the list and to the memory.
-/
import ExoCore.Mem.Search

namespace ExoCore.Mem

open ExoCore.Lib List

/-! ## §1. Taking a block from the free list. -/

/-- Blocks `B` that lie apart in the address space, each with room for its header; those on
the free list `l` are among them. -/
structure Laid (s : Heap) (B : ℕ → Prop) (l : List ℕ) : Prop where
  list : Seg s.next s.freeList l 0
  mem : ∀ b ∈ l, B b
  header : ∀ b, B b → sizeofMemBlock ≤ s.size b
  inWord : ∀ b, B b → b + s.size b < 2 ^ 64 ∧ s.size b + sizeofMemBlock + 8 < 2 ^ 64
  apart : ∀ b c, B b → B c → b ≠ c → Apart b (s.size b) c (s.size c)

/-- What `split_block` makes of the block `b` between `l₁` and `l₂`. -/
structure Spliced (s s' : Heap) (l₁ l₂ : List ℕ) (b total : ℕ) : Prop where
  /-- The last `size - total` bytes take its place when they hold a header and 8 bytes. -/
  cut : splits s b total →
    s'.hdr b = ⟨total, total - sizeofMemBlock, memGuardActive, 0, s.get b .fromSwap⟩ ∧
      s'.hdr (b + total) = ⟨s.size b - total, s.size b - total - sizeofMemBlock, memGuardFreed,
        s.next b, s.get b .fromSwap⟩ ∧
      Seg s'.next s'.freeList (l₁ ++ (b + total) :: l₂) 0
  /-- Else the block keeps its size and its place is closed. -/
  whole : ¬ splits s b total →
    s'.hdr b = { s.hdr b with guard := memGuardActive, next := 0 } ∧
      Seg s'.next s'.freeList (l₁ ++ l₂) 0
  /-- Every other byte is the same, the link to `b` apart. -/
  frame : ∀ i, i < b ∨ b + s.size b ≤ i →
    (∀ a, lastLink l₁ = .next a → i < a + Field.next.off ∨ a + Field.next.off + 8 ≤ i) →
    s'.mem i = s.mem i

section Take

variable {s : Heap} {live l₁ l₂ : List ℕ} {b total : ℕ}

theorem Inv.laid {free : List ℕ} (h : Inv s live free) : Laid s (IsBlock s live free) free :=
  ⟨h.list, fun _ => h.isBlock_free, fun b hb => (h.block b hb).header,
    fun _ hb => (h.bounds hb).2, fun _ _ => h.apart⟩

section Split

variable {B : ℕ → Prop} {c : ℕ} (h : Laid s B (l₁ ++ b :: l₂))
include h

theorem Laid.middle_not_mem : b ∉ l₁ ∧ b ∉ l₂ := by
  have hnd := (nodup_cons.mp (nodup_middle.mp h.list.nodup)).1
  exact ⟨fun hb => hnd (by simp [hb]), fun hb => hnd (by simp [hb])⟩

section

variable (hT : sizeofMemBlock ≤ total) (hfit : total ≤ s.size b)
include hT hfit

/-- A listed block can be split at its list position. -/
theorem Laid.splitCtx : SplitCtx s b total (lastLink l₁) := by
  have hb : B b := h.mem b (by simp)
  have hbounds := h.inWord b hb
  refine ⟨hT, hfit, by omega, hbounds.1, ?_⟩
  · intro a ha
    have hal : a ∈ l₁ := mem_of_lastLink ha
    have ha' : B a := h.mem a (by simp [hal])
    have hne : a ≠ b := fun hab => h.middle_not_mem.1 (hab ▸ hal)
    have h1 := h.apart a b ha' hb hne
    have h2 := h.header a ha'
    unfold Apart at *
    omega

/-- The headers of the other blocks: only the link to `b` is rewritten. -/
theorem Laid.split_others (hc : B c) (hne : c ≠ b) :
    (splitBlock s b total (lastLink l₁)).hdr c =
      if lastLink l₁ = .next c then { s.hdr c with next := splitTarget s b total }
      else s.hdr c := by
  have hb : B b := h.mem b (by simp)
  apply splitBlock_frame (h.splitCtx hT hfit)
  · have h1 := h.apart c b hc hb hne
    have h2 := h.header c hc
    unfold Apart at *
    omega
  · intro a ha
    have hal : a ∈ l₁ := mem_of_lastLink ha
    by_cases hac : a = c
    · exact .inl hac
    · have ha' : B a := h.mem a (by simp [hal])
      have h1 := h.apart a c ha' hc hac
      have h2 := h.header a ha'
      have h3 := h.header c hc
      right
      unfold HdrApart Apart at *
      omega

theorem Laid.split_get (hc : B c) (hne : c ≠ b) {f : Field}
    (hf : f ≠ .next ∨ lastLink l₁ ≠ .next c) :
    (splitBlock s b total (lastLink l₁)).get c f = s.get c f := by
  have hh := h.split_others hT hfit hc hne
  by_cases hl : lastLink l₁ = .next c
  · rw [if_pos hl] at hh
    refine (Heap.get_of_hdr_link hh).2 f ?_
    rcases hf with hf | hf
    · exact hf
    · exact absurd hl hf
  · rw [if_neg hl] at hh
    exact Heap.get_of_hdr_eq hh f

theorem Laid.split_same (c : ℕ) (hc : B c) (hne : c ≠ b) :
    SameHdr s (splitBlock s b total (lastLink l₁)) c :=
  fun _ hf => h.split_get hT hfit hc hne (.inl hf)

/-- The part of the free list before `b` now ends at the split target. -/
theorem Laid.split_front :
    Seg (splitBlock s b total (lastLink l₁)).next (splitBlock s b total (lastLink l₁)).freeList
      l₁ (splitTarget s b total) := by
  have hctx := h.splitCtx hT hfit
  have hb1 : ∀ c ∈ l₁, c ≠ b := fun c hc hcb => h.middle_not_mem.1 (hcb ▸ hc)
  obtain ⟨m, hfront, -⟩ := seg_append.mp h.list
  have hfl := splitBlock_freeList hctx
  have hget := fun c hc hne f hf => h.split_get hT hfit (c := c) (f := f) hc hne hf
  have hoth := fun c hc hne => h.split_others hT hfit (c := c) hc hne
  generalize splitBlock s b total (lastLink l₁) = s' at hfl hget hoth ⊢
  apply hfront.relink (nodup_append.mp h.list.nodup).1
  · intro hl
    rw [hfl, if_neg hl]
  · intro a ha hl
    exact hget a (h.mem a (by simp [ha])) (hb1 a ha) .next (.inr hl)
  · cases hl : lastLink l₁ with
    | head =>
      show s'.freeList = _
      rw [hfl, if_pos hl]
    | next a =>
      have ha : a ∈ l₁ := mem_of_lastLink hl
      have hh := hoth a (h.mem a (by simp [ha])) (hb1 a ha)
      rw [if_pos hl] at hh
      exact (Heap.get_of_hdr_link hh).1

/-- The part of the free list after `b` is untouched. -/
theorem Laid.split_back : Seg (splitBlock s b total (lastLink l₁)).next (s.next b) l₂ 0 := by
  have hnd := h.list.nodup
  obtain ⟨m, -, rfl, -, hback⟩ := seg_append.mp h.list
  apply hback.congr
  intro a ha
  have hab : a ≠ m := fun hab => h.middle_not_mem.2 (hab ▸ ha)
  refine h.split_get hT hfit (h.mem a (by simp [ha])) hab (.inr fun hl => ?_)
  have hal : a ∈ l₁ := mem_of_lastLink hl
  exact (nodup_append.mp hnd).2.2 a hal a (by simp [ha]) rfl

theorem Laid.spliced : Spliced s (splitBlock s b total (lastLink l₁)) l₁ l₂ b total := by
  have hctx := h.splitCtx hT hfit
  have hfront := h.split_front hT hfit
  have hback := h.split_back hT hfit
  have hcut := splitBlock_cut hctx
  have hwhole := splitBlock_whole hctx
  have hbytes := fun i hi hl => splitBlock_bytes hctx (i := i) hi hl
  have h40 : 0 < sizeofMemBlock := by decide
  generalize splitBlock s b total (lastLink l₁) = s' at hfront hback hcut hwhole hbytes ⊢
  refine ⟨fun hs => ?_, fun hs => ?_, hbytes⟩
  · obtain ⟨hrest, hblk⟩ := hcut hs
    have hnext : s'.next (b + total) = s.next b := congrArg MemBlock.next hrest
    rw [show splitTarget s b total = b + total from if_pos hs] at hfront
    refine ⟨hblk, hrest, seg_append.mpr ⟨b + total, hfront, rfl, by omega, ?_⟩⟩
    rw [hnext]
    exact hback
  · rw [show splitTarget s b total = s.next b from if_neg hs] at hfront
    exact ⟨hwhole hs, seg_append.mpr ⟨s.next b, hfront, hback⟩⟩

end

end Split

variable (h : Inv s live (l₁ ++ b :: l₂))
include h

/-- **A free block is handed out**; `rest` takes its place in the list: nothing, or the
remainder it was cut from. -/
theorem Inv.handOut {s' : Heap} (rest : List ℕ) (hreg : SameRegions s s')
    (hlist : Seg s'.next s'.freeList (l₁ ++ (rest ++ l₂)) 0)
    (hsame : ∀ c, IsBlock s live (l₁ ++ b :: l₂) c → c ≠ b → SameHdr s s' c) (hblock : BlockOk s' b)
    (hactive : s'.get b .guard = memGuardActive)
    (hnew : ∀ r ∈ rest, ¬ IsBlock s live (l₁ ++ b :: l₂) r ∧ BlockOk s' r ∧
      s'.get r .guard = memGuardFreed)
    (htiles : ∀ B : Set ℕ, (∀ x, x ∈ B ↔ x ∈ rest ∨ IsBlock s live (l₁ ++ b :: l₂) x) →
      Tiling B s'.size s.carved) : Inv s' (b :: live) (l₁ ++ (rest ++ l₂)) := by
  have hblive : b ∉ live := fun hb => h.liveNotFree b hb (by simp)
  have hbfree := h.laid.middle_not_mem
  -- a block of the new list is the remainder or an old one
  have hsub : ∀ c ∈ l₁ ++ (rest ++ l₂), c ∈ rest ∨ (c ∈ l₁ ++ b :: l₂ ∧ c ≠ b) := by
    intro c hc
    simp only [mem_append, mem_cons] at hc ⊢
    rcases hc with hc | hc | hc
    · exact .inr ⟨.inl hc, fun hcb => hbfree.1 (hcb ▸ hc)⟩
    · exact .inl hc
    · exact .inr ⟨.inr (.inr hc), fun hcb => hbfree.2 (hcb ▸ hc)⟩
  have hold : ∀ x, IsBlock s live (l₁ ++ b :: l₂) x → x ≠ b → BlockOk s' x := fun x hx hxb =>
    (h.block x hx).congr hreg.covers fun f _ hf => hsame x hx hxb f hf
  refine .of_blocks (hreg.geometry h.geom) hlist (nodup_cons.mpr ⟨hblive, h.liveNodup⟩) ?_ ?_ ?_
    (hreg.carved ▸ htiles _ fun x => ?_)
  · intro c hc hcf
    rcases hsub c hcf with hr | ⟨hcf, hcb⟩
    · refine (hnew c hr).1 (h.isBlock_iff.mpr ?_)
      rcases mem_cons.mp hc with rfl | hc
      · exact .inr (by simp)
      · exact .inl hc
    · exact h.liveNotFree c ((mem_cons.mp hc).resolve_left hcb) hcf
  · intro c hc
    rcases mem_cons.mp hc with rfl | hc
    · exact ⟨hblock, hactive⟩
    · have hcb : c ≠ b := fun hcb => hblive (hcb ▸ hc)
      rw [hsame c (.inl hc) hcb .guard (by decide)]
      exact ⟨hold c (.inl hc) hcb, h.active c hc⟩
  · intro c hc
    rcases hsub c hc with hr | ⟨hcf, hcb⟩
    · exact (hnew c hr).2
    · rw [hsame c (h.isBlock_free hcf) hcb .guard (by decide)]
      exact ⟨hold c (h.isBlock_free hcf) hcb, h.freed c hcf⟩
  · show (x ∈ b :: live ∨ x ∈ l₁ ++ (rest ++ l₂)) ↔ _
    rw [h.isBlock_iff]
    simp only [mem_append, mem_cons]
    tauto

/-- **Cutting a free block**: `b` is handed out, its remainder takes its place in
the list. -/
theorem Inv.take_cut (hT : sizeofMemBlock ≤ total) (hfit : total ≤ s.size b)
    (hs : splits s b total) :
    Inv (splitBlock s b total (lastLink l₁)) (b :: live) (l₁ ++ (b + total) :: l₂) := by
  have hbI : IsBlock s live (l₁ ++ b :: l₂) b := h.isBlock_free (by simp)
  obtain ⟨hblk, hrest, hlist⟩ := (h.laid.spliced hT hfit).cut hs
  have hreg := splitBlock_regions s b total (lastLink l₁)
  have hsame := h.laid.split_same hT hfit
  have hsT : total + sizeofMemBlock + 8 ≤ s.size b := hs
  have hT0 : 0 < sizeofMemBlock := by decide
  generalize splitBlock s b total (lastLink l₁) = s' at hrest hblk hreg hlist hsame ⊢
  simp only [Heap.hdr, MemBlock.mk.injEq] at hrest hblk
  obtain ⟨hr1, hr2, hr3, -, hr5⟩ := hrest
  obtain ⟨hb1, hb2, hb3, -, hb5⟩ := hblk
  have hbsz : s'.size b = total := hb1
  have hrsz : s'.size (b + total) = s.size b - total := hr1
  -- the two halves keep to the region of `b`
  have hw := (h.block b hbI).within
  unfold Within at hw
  refine h.handOut [b + total] hreg hlist hsame ⟨?_, ?_, ?_⟩ hb3 ?_ fun B hB => ?_
  · rw [hbsz]
    exact hT
  · rw [hbsz, hb2]
  · unfold Within
    rw [hb5, hbsz, hreg.heapStart, hreg.heapPtr, hreg.swapSpace, hreg.swapPtr]
    omega
  · intro r hr
    rw [mem_singleton.mp hr]
    refine ⟨fun hc => ?_, ⟨?_, ?_, ?_⟩, hr3⟩
    · -- the remainder is no old block: it starts inside `b`
      have h1 := h.apart hc hbI (by omega)
      have h2 := (h.block _ hc).header
      unfold Apart at h1
      omega
    · rw [hrsz]
      omega
    · rw [hrsz, hr2]
    · unfold Within
      rw [hr5, hrsz, hreg.heapStart, hreg.heapPtr, hreg.swapSpace, hreg.swapPtr]
      omega
  · refine h.tiles.split hbI (by omega) (by omega) (fun x => ?_) hbsz hrsz fun x hx hxb =>
      (hsame x hx hxb).size
    rw [hB x, mem_singleton]
    rfl

/-- **Taking a free block whole**: it leaves the list for the live blocks. -/
theorem Inv.take_whole (hT : sizeofMemBlock ≤ total) (hfit : total ≤ s.size b)
    (hs : ¬ splits s b total) :
    Inv (splitBlock s b total (lastLink l₁)) (b :: live) (l₁ ++ l₂) := by
  have hok := h.block b (h.isBlock_free (by simp))
  obtain ⟨hblk, hlist⟩ := (h.laid.spliced hT hfit).whole hs
  have hreg := splitBlock_regions s b total (lastLink l₁)
  have hsame := h.laid.split_same hT hfit
  generalize splitBlock s b total (lastLink l₁) = s' at hblk hreg hlist hsame ⊢
  simp only [Heap.hdr, MemBlock.mk.injEq] at hblk
  obtain ⟨hb1, hb2, hb3, -, hb5⟩ := hblk
  have hbsz : s'.size b = s.size b := hb1
  refine h.handOut [] hreg hlist hsame (hok.congr hreg.covers fun f hg hn => ?_) hb3 ?_ fun B hB => ?_
  · cases f with
    | totalSize => exact hb1
    | userSize => exact hb2
    | fromSwap => exact hb5
    | guard => exact absurd rfl hg
    | next => exact absurd rfl hn
  · exact fun r hr => absurd hr not_mem_nil
  · refine h.tiles.congr (fun x => ?_) fun x hx => ?_
    · rw [hB x]
      exact or_iff_right not_mem_nil
    · by_cases hxb : x = b
      · rw [hxb, hbsz]
      · exact (hsame x hx hxb).size

end Take

end ExoCore.Mem
