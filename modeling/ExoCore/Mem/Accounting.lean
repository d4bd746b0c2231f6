/-
  ExoCore.Mem.Accounting — heap accounting over whole runs.

  `mem_get_info` puts a running counter next to figures recomputed from the bump
  pointers and the free list.  They agree because the blocks TILE the carved
  ranges (`Mem/Invariant.lean`): the sizes of live and free blocks add up to the
  carved bytes, whatever was split, coalesced or grown.

    * `Inv.conserved` — the sum over the blocks of any good heap;
    * `memGetInfo_accounted` — what the statistics report there;
    * `heap_accounting` — the balance in every state of a run of allocator and
      application calls whose requests fit.

  Requests near `2^64` break it: `heap_accounting_wraps` is such a run.
-/
import ExoCore.Mem.Apps
import ExoCore.Mem.Runs

namespace ExoCore.Mem

open ExoCore.Lib List

/-! ## §1. The blocks add up to the carved bytes. -/

/-- The sum of `user_size` over the blocks of `live`. -/
def Heap.usedBy (s : Heap) (live : List ℕ) : ℕ := (live.map fun b => s.get b .userSize).sum

variable {free live : List ℕ} {b size : ℕ} {s s' : Heap} {m : MemState}

theorem Heap.usedBy_erase (s : Heap) (hb : b ∈ live) :
    s.usedBy live = s.get b .userSize + s.usedBy (live.erase b) := by
  unfold Heap.usedBy
  rw [((perm_cons_erase hb).map _).sum_eq]
  rfl

/-- The sum of `total_size` over the free list. -/
def Heap.freeBytes (s : Heap) (free : List ℕ) : ℕ := (free.map s.size).sum

/-- The carved bytes as a finite set. -/
def Heap.carvedBytes (s : Heap) : Finset ℕ :=
  Finset.Ico s.heapStart s.heapPtr ∪ Finset.Ico s.swapSpace s.swapPtr

theorem Geometry.card_carved (h : Geometry s) :
    s.carvedBytes.card = (s.heapPtr - s.heapStart) + (s.swapPtr - s.swapSpace) := by
  have hdisj : Disjoint (Finset.Ico s.heapStart s.heapPtr) (Finset.Ico s.swapSpace s.swapPtr) := by
    refine Finset.disjoint_left.mpr fun x hx hy => ?_
    rw [Finset.mem_Ico] at hx hy
    obtain ⟨-, -, -, h4, h5, -, -, -, h9, -, h11⟩ := h
    omega
  rw [Heap.carvedBytes, Finset.card_union_of_disjoint hdisj, Nat.card_Ico, Nat.card_Ico]

/-- Every live block is its header and its payload. -/
theorem sum_size_live
    (h : ∀ b ∈ live, s.size b = s.get b .userSize + sizeofMemBlock) :
    (live.map s.size).sum = s.usedBy live + sizeofMemBlock * live.length := by
  induction live with
  | nil => rfl
  | cons b live ih =>
    have hb := h b (by simp)
    have hrest := ih fun c hc => h c (by simp [hc])
    simp only [Heap.usedBy, map_cons, sum_cons, length_cons] at hrest ⊢
    rw [hb, hrest, Nat.mul_add]
    omega

/-- **Conservation**: payloads, headers and free blocks add up to the carved bytes. -/
theorem Inv.conserved (h : Inv s live free) :
    s.usedBy live + sizeofMemBlock * live.length + s.freeBytes free =
      (s.heapPtr - s.heapStart) + (s.swapPtr - s.swapSpace) := by
  have hnd : (live ++ free).Nodup := by
    refine nodup_append.mpr ⟨h.liveNodup, h.list.nodup, ?_⟩
    rintro a ha b hb rfl
    exact h.liveNotFree a ha hb
  have htiles : Tiling {b | b ∈ (live ++ free).toFinset} s.size {x | x ∈ s.carvedBytes} := by
    have hbytes : {x | x ∈ s.carvedBytes} = s.carved := by
      ext x
      simp only [Heap.carvedBytes, Heap.carved, Set.mem_ofPred_eq, Finset.mem_union,
        Finset.mem_Ico]
    rw [hbytes]
    refine h.tiles.congr (fun b => ?_) fun b _ => rfl
    simp only [Set.mem_ofPred_eq, mem_toFinset, mem_append]
    exact h.isBlock_iff.symm
  have hlive : ∀ b ∈ live, s.size b = s.get b .userSize + sizeofMemBlock := by
    intro b hb
    exact (h.partition.user b (by simp [hb])).symm
  calc s.usedBy live + sizeofMemBlock * live.length + s.freeBytes free
      = ((live ++ free).map s.size).sum := by
        rw [map_append, sum_append, sum_size_live hlive, Heap.freeBytes]
    _ = ∑ b ∈ (live ++ free).toFinset, s.size b := (sum_toFinset _ hnd).symm
    _ = s.carvedBytes.card := htiles.sum_size
    _ = _ := h.geom.card_carved

/-- Both regions together are smaller than the word range. -/
theorem Geometry.regions_lt (h : Geometry s) :
    s.heapMaxEnd - s.heapStart + sizeofSwapSpace < 2 ^ 64 := by
  obtain ⟨h1, -, -, -, -, h6, -, -, -, h10, h11⟩ := h
  unfold sizeofSwapSpace at *
  omega

/-- What is in use fits in a word. -/
theorem Inv.usedBy_lt (h : Inv s live free) :
    s.usedBy live < 2 ^ 64 := by
  have hc := h.conserved
  have hr := h.geom.regions_lt
  obtain ⟨-, -, h3, h4, h5, -, -, h8, h9, -, -⟩ := h.geom
  omega

/-! ## §2. What the statistics report. -/

/-- The loop of `mem_heap_free` adds the free blocks up. -/
theorem freeBytesLoop_spec (l : List ℕ) : ∀ {blk acc : ℕ}, Seg s.next blk l 0 →
    acc + s.freeBytes l < 2 ^ 64 →
    Returns (fun fuel => freeBytesLoop s fuel blk acc) (acc + s.freeBytes l) := by
  induction l with
  | nil =>
    intro blk acc hseg _
    have h0 : blk = 0 := hseg
    exact Returns.stop fun fuel => by simp [freeBytesLoop, h0, Heap.freeBytes]
  | cons b l ih =>
    intro blk acc hseg hlt
    obtain ⟨rfl, hb0, hrest⟩ := hseg
    have hsum : s.freeBytes (blk :: l) = s.size blk + s.freeBytes l := by
      simp [Heap.freeBytes]
    rw [hsum, ← Nat.add_assoc] at hlt ⊢
    have hacc : add64 acc (s.get blk .totalSize) = acc + s.size blk :=
      add64_of_lt (lt_of_le_of_lt (Nat.le_add_right _ _) hlt)
    refine (ih hrest hlt).turn fun fuel => ?_
    rw [freeBytesLoop, if_neg hb0, hacc]
    rfl

/-- **The heap invariant with its balance**: the counter is the sum of the payloads. -/
structure Accounted (s : Heap) (live free : List ℕ) : Prop extends Inv s live free where
  used : s.heapUsedBytes = s.usedBy live

/-- What `mem_get_info` should report: the counter is the sum over the live blocks, used,
free and header bytes make up the committed memory and the swap space, no live block is
larger than the counter, and the committed memory is within the maximum. -/
structure Balanced (s : Heap) (live : List ℕ) (info : MemInfo) : Prop where
  used : info.heapUsed = (live.map fun b => s.get b .userSize).sum
  total : info.heapUsed + info.heapFree + 40 * live.length = info.heapCommitted + 65536
  guard : ∀ b ∈ live, s.get b .userSize ≤ s.heapUsedBytes
  committed : info.heapCommitted ≤ info.heapMax

theorem Inv.heapCommitted (h : Inv s live free) :
    sub64 s.heapCommittedEnd s.heapStart = s.heapCommittedEnd - s.heapStart := by
  obtain ⟨-, h2, -, -, h5, h6, -, -, -, -, -⟩ := h.geom
  exact sub64_of_le (by omega) (by omega)

/-- **`mem_get_info` returns** on an accounted heap, and its figures balance. -/
theorem memGetInfo_accounted (h : Accounted s live free) :
    ∃ info, Returns (fun fuel => memGetInfo fuel s) info ∧ Balanced s live info ∧
      info.heapCommitted = s.heapCommittedEnd - s.heapStart := by
  have hcons := h.conserved
  have hregions := h.geom.regions_lt
  have hcommitted := h.toInv.heapCommitted
  obtain ⟨-, h2, h3, h4, h5, h6, -, h8, h9, h10, -⟩ := h.geom
  -- the two uncarved rests, without wrapping
  have hheap : sub64 s.heapCommittedEnd s.heapPtr = s.heapCommittedEnd - s.heapPtr :=
    sub64_of_le h4 (by omega)
  have hswap : sub64 sizeofSwapSpace (sub64 s.swapPtr s.swapSpace) =
      sizeofSwapSpace - (s.swapPtr - s.swapSpace) := by
    rw [sub64_of_le h8 (by omega), sub64_of_le (by omega) (by decide)]
  have hmax : sub64 s.heapMaxEnd s.heapStart = s.heapMaxEnd - s.heapStart :=
    sub64_of_le (by omega) (by omega)
  have hrest : add64 (s.heapCommittedEnd - s.heapPtr)
      (sizeofSwapSpace - (s.swapPtr - s.swapSpace)) =
        (s.heapCommittedEnd - s.heapPtr) + (sizeofSwapSpace - (s.swapPtr - s.swapSpace)) :=
    add64_of_lt (by omega)
  generalize hr : (s.heapCommittedEnd - s.heapPtr) +
    (sizeofSwapSpace - (s.swapPtr - s.swapSpace)) = rest at hrest
  obtain ⟨n₀, hn₀⟩ := freeBytesLoop_spec free h.list (show rest + s.freeBytes free < 2 ^ 64 by omega)
  refine ⟨⟨s.heapUsedBytes, rest + s.freeBytes free, sub64 s.heapCommittedEnd s.heapStart,
      sub64 s.heapMaxEnd s.heapStart, s.heapGrowCount, s.heapAllocFailCount⟩,
    ⟨n₀, fun fuel hfuel => ?_⟩, ⟨h.used, ?_, ?_, ?_⟩, hcommitted⟩
  · simp only [memGetInfo, memHeapFree, hheap, hswap, hrest, hn₀ fuel hfuel]
  · show s.heapUsedBytes + (rest + s.freeBytes free) + 40 * live.length =
        sub64 s.heapCommittedEnd s.heapStart + sizeofSwapSpace
    rw [hcommitted, h.used]
    unfold sizeofMemBlock at hcons
    omega
  · intro b hb
    rw [h.used, s.usedBy_erase hb]
    exact Nat.le_add_right _ _
  · show sub64 s.heapCommittedEnd s.heapStart ≤ sub64 s.heapMaxEnd s.heapStart
    rw [hcommitted, hmax]
    omega

/-! ## §3. The allocator keeps the balance. -/

theorem usedBy_congr
    (h : ∀ b ∈ live, s'.get b .userSize = s.get b .userSize) : s'.usedBy live = s.usedBy live := by
  rw [Heap.usedBy, map_congr_left h, Heap.usedBy]

/-- The heap base is the same and no committed memory was given back. -/
structure Ahead (s s' : Heap) : Prop where
  heapStart : s'.heapStart = s.heapStart
  committed : s.heapCommittedEnd ≤ s'.heapCommittedEnd

theorem Ahead.refl (s : Heap) : Ahead s s := ⟨rfl, le_refl _⟩

theorem Ahead.trans {s'' : Heap} (h : Ahead s s') (h' : Ahead s' s'') : Ahead s s'' :=
  ⟨h'.1.trans h.1, le_trans h.2 h'.2⟩

theorem SameRegions.ahead (h : SameRegions s s') : Ahead s s' :=
  ⟨h.heapStart, le_of_eq h.heapCommittedEnd.symm⟩

/-- The balance after an allocation answered `p`: `NULL`, with the live blocks as before, or the
payload of one more block, of at least `size` bytes. -/
def Granted (s : Heap) (live : List ℕ) (size p : ℕ) : Prop :=
  (p = 0 ∧ ∃ free, Accounted s live free) ∨
    ∃ b free, p = b + sizeofMemBlock ∧ Accounted s (b :: live) free ∧ size ≤ s.get b .userSize

theorem Granted.accounted {p : ℕ} (h : Granted s live size p) :
    ∃ free, Accounted s (if p = 0 then live else sub64 p sizeofMemBlock :: live) free := by
  rcases h with ⟨rfl, hacc⟩ | ⟨b, free, rfl, hacc, -⟩
  · exact hacc
  · rw [if_neg hacc.toInv.handed.1, hacc.toInv.handed.2]
    exact ⟨free, hacc⟩

/-- **`mem_alloc` keeps the balance**: the counter grows by the payload of the block
handed out, or nothing changes. -/
theorem memAlloc_accounted (h : Accounted s live free)
    (hsize : NoWrap s size) :
    ∃ p s', Returns (fun fuel => memAlloc fuel s size) (p, s') ∧ Ahead s s' ∧
      Granted s' live size p := by
  have hTeq := blockTotal_eq (totalFits_iff.mp hsize.1)
  obtain ⟨blk, t, hrun, hfound, -⟩ := memAlloc_found h.toInv (by omega) hsize.2
  have hframe := tallyAlloc_frame blk t
  have hgrown := hfound.grown
  have hold : t.usedBy live = s.usedBy live :=
    usedBy_congr fun c hc => hfound.keeps c hc .userSize
  refine ⟨(tallyAlloc blk t).1, (tallyAlloc blk t).2,
    ⟨free.length + 1, fun fuel hfuel => hrun fuel (by omega)⟩,
    Ahead.trans ⟨hgrown.heapStart, hgrown.committed⟩ hframe.1.ahead, ?_⟩
  have hget : ∀ c f, (tallyAlloc blk t).2.get c f = t.get c f :=
    fun c f => Heap.get_of_mem_eq hframe.2.2 c f
  rcases hfound.result with ⟨hb0, hinv⟩ | ⟨hb0, free', hinv, hle⟩
  · refine .inl ⟨?_, free, hinv.tally blk, ?_⟩
    · rw [hb0, tallyAlloc_null]
    · rw [usedBy_congr fun c _ => hget c .userSize, hold, hb0, tallyAlloc_null]
      exact hgrown.heapUsedBytes.trans h.used
  · obtain ⟨hp, husr⟩ := hinv.tally_result hTeq hle
    refine .inr ⟨blk, free', hp, ⟨hinv.tally blk, ?_⟩, husr⟩
    have hsum : t.usedBy (blk :: live) = t.get blk .userSize + t.usedBy live := by
      simp [Heap.usedBy]
    have hlt := hinv.usedBy_lt
    rw [usedBy_congr fun c _ => hget c .userSize, tallyAlloc_block t hb0]
    show add64 t.heapUsedBytes (t.get blk .userSize) = t.usedBy (blk :: live)
    rw [hgrown.heapUsedBytes, h.used, ← hold, add64_of_lt (by omega), hsum, Nat.add_comm]

/-- **`mem_free` keeps the balance**: the block was counted, so the guard lets the
subtraction through. -/
theorem memFree_accounted (h : Accounted s live free)
    (hb : b ∈ live) (hsize : size = 0 ∨ size ≤ s.get b .userSize) :
    ∃ s' free', Returns (fun fuel => memFree fuel s (b + sizeofMemBlock) size) s' ∧
      Accounted s' (live.erase b) free' ∧ Ahead s s' := by
  obtain ⟨s', free', hret, hinv, hfreed, -⟩ := memFree_spec h.toInv hb hsize
  refine ⟨s', free', hret, ⟨hinv, ?_⟩, hfreed.regions.ahead⟩
  have hrest : s'.usedBy (live.erase b) = s.usedBy (live.erase b) :=
    usedBy_congr fun c hc => hfreed.hdrs c hc .userSize (by decide)
  have hsum := s.usedBy_erase hb
  have hused := h.used
  rw [hfreed.used, hrest, if_pos (by omega)]
  omega

/-- A write into the payload of a live block changes no header. -/
theorem Accounted.payload (h : Accounted s live free)
    (hb : b ∈ live) (hr : SameRegions s s') (hl : s'.freeList = s.freeList)
    (hu : s'.heapUsedBytes = s.heapUsedBytes)
    (hmem : ∀ i, ¬ (b + sizeofMemBlock ≤ i ∧ i < b + s.size b) → s'.mem i = s.mem i) :
    Accounted s' live free := by
  obtain ⟨hinv, hget⟩ := h.toInv.payload hb hr hl hmem
  refine ⟨hinv, ?_⟩
  rw [hu, h.used]
  exact (usedBy_congr fun c hc => hget c (.inl hc) .userSize).symm

/-! ## §4. The application calls keep the balance. -/

/-- Looking a record up only reads the ids. -/
theorem findApp_congr {m' : MemState} (h : ∀ i, (m'.apps i).id = (m.apps i).id) (appId : ℤ) :
    findApp m' appId = findApp m appId := by
  simp only [findApp, h]

theorem setApp_id {i : AppSlot} {a : AppMem} (ha : a.id = (m.apps i).id)
    (j : AppSlot) : ((m.setApp i a).apps j).id = (m.apps j).id := by
  by_cases hj : j = i
  · subst hj
    rw [setApp_self]
    exact ha
  · rw [setApp_of_ne hj]

/-- **`mem_alloc_app` keeps the balance**, also when it gives the block back because no
record has the id.  No record changes its id or its blocks. -/
theorem memAllocApp_accounted (appId : ℤ)
    (h : Accounted m.heap live free) (hsize : NoWrap m.heap (roundUp64 3 size)) :
    ∃ p m', Returns (fun fuel => memAllocApp fuel m appId size) (p, m') ∧
      Ahead m.heap m'.heap ∧ (∀ i, (m'.apps i).id = (m.apps i).id) ∧
      (∀ i, (m'.apps i).blockCount = (m.apps i).blockCount) ∧
      Granted m'.heap live (roundUp64 3 size) p := by
  obtain ⟨p, s', ⟨n₀, hn₀⟩, hahead, hres⟩ := memAlloc_accounted h hsize
  rcases hres with ⟨rfl, hacc⟩ | ⟨b, free', rfl, hacc, husr⟩
  · refine ⟨0, { m with heap := s' }, ⟨n₀, fun fuel hfuel => ?_⟩, hahead, fun _ => rfl,
      fun _ => rfl, .inl ⟨rfl, hacc⟩⟩
    simp only [memAllocApp, hn₀ fuel hfuel, if_true]
  · have hb0 : b + sizeofMemBlock ≠ 0 := hacc.toInv.handed.1
    cases hfind : findApp { m with heap := s' } appId with
    | some i =>
      refine ⟨b + sizeofMemBlock, MemState.setApp { m with heap := s' } i
          (chargeApp (m.apps i) (b + sizeofMemBlock) (roundUp64 3 size)),
        ⟨n₀, fun fuel hfuel => ?_⟩, hahead, fun j => setApp_id (by rfl) j, fun j => ?_,
        .inr ⟨b, free', rfl, hacc, husr⟩⟩
      · simp only [memAllocApp, hn₀ fuel hfuel, if_neg hb0, hfind]
      · by_cases hj : j = i
        · subst hj
          rw [setApp_self]
          rfl
        · rw [setApp_of_ne hj]
    | none =>
      -- the block just handed out is freed again
      obtain ⟨s'', free'', ⟨n₁, hn₁⟩, hacc', hahead'⟩ :=
        memFree_accounted hacc (mem_cons_self ..) (.inr husr)
      rw [erase_cons_head] at hacc'
      refine ⟨0, { m with heap := s'' }, ⟨max n₀ n₁, fun fuel hfuel => ?_⟩,
        hahead.trans hahead', fun _ => rfl, fun _ => rfl, .inl ⟨rfl, free'', hacc'⟩⟩
      have h0 := hn₀ fuel (le_trans (le_max_left _ _) hfuel)
      have h1 := hn₁ fuel (le_trans (le_max_right _ _) hfuel)
      simp only [memAllocApp, h0, if_neg hb0, hfind, h1]

/-- A block recorded under the next handle is the one retrieved with it. -/
theorem memRetrieveApp_recorded {i : AppSlot} {appId : ℤ} {blk : AppBlock}
    (hfind : findApp m appId = some i) (hcount : (m.apps i).blockCount < 16) :
    memRetrieveApp (m.setApp i (recordBlock (m.apps i) blk)) appId (m.apps i).blockCount =
      some blk := by
  have hfind' : findApp (m.setApp i (recordBlock (m.apps i) blk)) appId = some i :=
    (findApp_congr (fun j => setApp_id (by rfl) j) appId).trans hfind
  simp only [memRetrieveApp, hfind', setApp_self]
  rw [dif_pos ⟨by omega, by simp only [recordBlock]; omega, by omega⟩]
  simp only [recordBlock, Int.toNat_natCast, if_true]

theorem memRetrieveApp_neg (m : MemState) (appId : ℤ) : memRetrieveApp m appId (-1) = none := by
  unfold memRetrieveApp
  split
  · rfl
  · rw [dif_neg (by omega)]

/-- `memcpy` of `n` bytes to `dst` changes the bytes of `[dst, dst + n)` only. -/
theorem copyIn_mem {dst n i : ℕ} {data : ℕ → UInt8} (hword : dst + n ≤ 2 ^ 64)
    (hi : i < dst ∨ dst + n ≤ i) : (s.copyIn dst data n).mem i = s.mem i := by
  refine if_neg ?_
  rintro ⟨h64, hlt⟩
  unfold sub64 at hlt
  omega

/-- The request of `mem_save_app`: rounding it up does not wrap, and the allocation fits. -/
def SaveFits (s : Heap) (size : ℕ) : Prop := size ≤ roundUp64 3 size ∧ NoWrap s (roundUp64 3 size)

/-- The live blocks after `mem_save_app` answered `r`: the block under the new handle is
live, a failed call adds none. -/
def liveAfterSave (m' : MemState) (appId r : ℤ) (live : List ℕ) : List ℕ :=
  match memRetrieveApp m' appId r with
  | some blk => sub64 blk.addr sizeofMemBlock :: live
  | none => live

/-- **`mem_save_app` keeps the balance**; the block it records is the one handed out. -/
theorem memSaveApp_accounted (appId : ℤ) (data : ℕ → UInt8)
    (h : Accounted m.heap live free) (hsize : SaveFits m.heap size) :
    ∃ r m', Returns (fun fuel => memSaveApp fuel m appId data size) (r, m') ∧
      Ahead m.heap m'.heap ∧ ∃ free', Accounted m'.heap (liveAfterSave m' appId r live) free' := by
  have hfail : ∀ {m' : MemState}, (∃ free', Accounted m'.heap live free') →
      ∃ free', Accounted m'.heap (liveAfterSave m' appId (-1) live) free' := by
    intro m' hacc
    rwa [liveAfterSave, memRetrieveApp_neg]
  cases hfind : findApp m appId with
  | none =>
    refine ⟨-1, m, ⟨0, fun fuel _ => ?_⟩, Ahead.refl _, hfail ⟨free, h⟩⟩
    simp only [memSaveApp, hfind]
  | some i =>
    by_cases hfull : 16 ≤ (m.apps i).blockCount
    · refine ⟨-1, m, ⟨0, fun fuel _ => ?_⟩, Ahead.refl _, hfail ⟨free, h⟩⟩
      simp only [memSaveApp, hfind, if_pos hfull]
    · obtain ⟨p, m₁, ⟨n₀, hn₀⟩, hahead, hids, hcounts, hres⟩ :=
        memAllocApp_accounted appId h hsize.2
      rcases hres with ⟨rfl, hacc⟩ | ⟨b, free', rfl, hacc, husr⟩
      · refine ⟨-1, m₁, ⟨n₀, fun fuel hfuel => ?_⟩, hahead, hfail hacc⟩
        simp only [memSaveApp, hfind, if_neg hfull, hn₀ fuel hfuel, if_true]
      · obtain ⟨hb0, hback⟩ := hacc.toInv.handed
        have hbI : IsBlock m₁.heap (b :: live) free' b := .inl (mem_cons_self ..)
        have hok := hacc.block b hbI
        have huser := hok.user
        have hhdr := hok.header
        have hbd := hacc.bounds hbI
        have hle := hsize.1
        -- the copy stays inside the payload just handed out
        have hcopy : Accounted (m₁.heap.copyIn (b + sizeofMemBlock) data size) (b :: live)
            free' := by
          refine hacc.payload (mem_cons_self ..) ⟨rfl, rfl, rfl, rfl, rfl, rfl⟩ rfl rfl ?_
          intro j hj
          exact copyIn_mem (by omega) (by omega)
        have hcount : (m₁.apps i).blockCount < 16 := by
          rw [hcounts i]
          omega
        refine ⟨(m₁.apps i).blockCount, MemState.setApp
            { m₁ with heap := m₁.heap.copyIn (b + sizeofMemBlock) data size } i
            (recordBlock (m₁.apps i) ⟨b + sizeofMemBlock, size⟩),
          ⟨n₀, fun fuel hfuel => ?_⟩, hahead.trans ⟨rfl, le_refl _⟩, free', ?_⟩
        · simp only [memSaveApp, hfind, if_neg hfull, hn₀ fuel hfuel, if_neg hb0]
        · rw [liveAfterSave, memRetrieveApp_recorded
            (m := { m₁ with heap := m₁.heap.copyIn (b + sizeofMemBlock) data size })
            ((findApp_congr hids appId).trans hfind) hcount]
          dsimp only
          rw [hback]
          exact hcopy

/-! ## §5. Runs. -/

/-- The statics of `mem.c`, and the blocks handed out and not yet freed. -/
structure AppSys where
  mem : MemState
  live : List ℕ

/-- One call of the allocator or of the application layer, with the requests that reach
`mem_alloc` limited by `guard`. -/
inductive AppStep (guard : Heap → ℕ → Prop) : AppSys → AppSys → Prop
  | heap {m : MemState} {s' : Heap} {live live' : List ℕ}
      (h : Step guard ⟨m.heap, live⟩ ⟨s', live'⟩) :
      AppStep guard ⟨m, live⟩ ⟨{ m with heap := s' }, live'⟩
  | register {m : MemState} {live : List ℕ} (priority : UInt8) :
      AppStep guard ⟨m, live⟩ ⟨(memRegisterApp m priority).2, live⟩
  | allocApp {m m' : MemState} {live : List ℕ} {appId : ℤ} {size p : ℕ}
      (hsize : guard m.heap (roundUp64 3 size))
      (hret : Returns (fun fuel => memAllocApp fuel m appId size) (p, m')) :
      AppStep guard ⟨m, live⟩ ⟨m', if p = 0 then live else sub64 p sizeofMemBlock :: live⟩
  | saveApp {m m' : MemState} {live : List ℕ} {appId r : ℤ} {data : ℕ → UInt8} {size : ℕ}
      (hround : size ≤ roundUp64 3 size) (hsize : guard m.heap (roundUp64 3 size))
      (hret : Returns (fun fuel => memSaveApp fuel m appId data size) (r, m')) :
      AppStep guard ⟨m, live⟩ ⟨m', liveAfterSave m' appId r live⟩

/-- Any number of calls. -/
abbrev AppRun (guard : Heap → ℕ → Prop) : AppSys → AppSys → Prop :=
  Relation.ReflTransGen (AppStep guard)

/-- The balance holds in the state `t`. -/
def AppSys.Accounts (t : AppSys) : Prop := ∃ free, Accounted t.mem.heap t.live free

theorem Step.accounts {t t' : Sys} (hstep : Step NoWrap t t')
    (h : Accounted t.heap t.live free) :
    (∃ free', Accounted t'.heap t'.live free') ∧ Ahead t.heap t'.heap := by
  cases hstep with
  | @alloc s s' live size p hsize hret =>
    obtain ⟨p', s'', hret', hahead, hres⟩ := memAlloc_accounted h hsize
    obtain ⟨rfl, rfl⟩ := Prod.mk.inj (hret.unique hret')
    exact ⟨hres.accounted, hahead⟩
  | @free s s' live b size hb hsize hret =>
    obtain ⟨s'', free', hret', hacc, hahead⟩ := memFree_accounted h hb hsize
    rw [h.payload_add64 hb] at hret
    obtain rfl := hret.unique hret'
    exact ⟨⟨free', hacc⟩, hahead⟩
  | @store s live b off v hb hoff =>
    have hacc := h.payload hb (sameRegions_poke s _ v) rfl rfl (h.poke_frame hb hoff v)
    exact ⟨⟨free, hacc⟩, rfl, le_refl _⟩

/-- **One call keeps the balance**, and gives no committed memory back. -/
theorem AppStep.accounts {t t' : AppSys} (hstep : AppStep NoWrap t t') (h : t.Accounts) :
    t'.Accounts ∧ Ahead t.mem.heap t'.mem.heap := by
  obtain ⟨free, hacc⟩ := h
  cases hstep with
  | heap h => exact h.accounts hacc
  | register priority =>
    have hheap : ∀ m : MemState, (memRegisterApp m priority).2.heap = m.heap := by
      intro m
      unfold memRegisterApp
      split <;> rfl
    unfold AppSys.Accounts
    rw [hheap]
    exact ⟨⟨free, hacc⟩, Ahead.refl _⟩
  | @allocApp m m' live appId size p hsize hret =>
    obtain ⟨p', m'', hret', hahead, -, -, hres⟩ := memAllocApp_accounted appId hacc hsize
    obtain ⟨rfl, rfl⟩ := Prod.mk.inj (hret.unique hret')
    exact ⟨hres.accounted, hahead⟩
  | @saveApp m m' live appId r data size hround hsize hret =>
    obtain ⟨r', m'', hret', hahead, hres⟩ := memSaveApp_accounted appId data hacc ⟨hround, hsize⟩
    obtain ⟨rfl, rfl⟩ := Prod.mk.inj (hret.unique hret')
    exact ⟨hres, hahead⟩

theorem memInit_accounted {mem : Bytes} {swapSpace heapStartAddr heapSize : ℕ} {debugMode : Bool}
    (h : InitOk (memInit mem swapSpace debugMode heapStartAddr heapSize) heapStartAddr heapSize) :
    Accounted (memInit mem swapSpace debugMode heapStartAddr heapSize) [] [] :=
  ⟨memInit_inv h, rfl⟩

theorem AppRun.accounts {t t' : AppSys} (hrun : AppRun NoWrap t t') (h : t.Accounts) :
    t'.Accounts ∧ Ahead t.mem.heap t'.mem.heap := by
  refine inv_of_run (fun u => u.Accounts ∧ Ahead t.mem.heap u.mem.heap) hrun ⟨h, Ahead.refl _⟩ ?_
  rintro a b ⟨ha, hahead⟩ hstep
  obtain ⟨hb, hahead'⟩ := hstep.accounts ha
  exact ⟨hb, hahead.trans hahead'⟩

/-- **Heap accounting.**  In every state of a run whose requests fit, `mem_get_info` returns
figures that balance, and the committed memory it reports never decreases afterwards. -/
theorem heap_accounting {mem : Bytes} {swapSpace heapStartAddr heapSize : ℕ} {debugMode : Bool}
    {nextId : ℤ} {t : AppSys}
    (h : InitOk (memInit mem swapSpace debugMode heapStartAddr heapSize) heapStartAddr heapSize)
    (hrun : AppRun NoWrap
      ⟨memInitApps (memInit mem swapSpace debugMode heapStartAddr heapSize) nextId, []⟩ t) :
    ∃ info, Returns (fun fuel => memGetInfo fuel t.mem.heap) info ∧
      Balanced t.mem.heap t.live info ∧
      ∀ t', AppRun NoWrap t t' → ∃ info', Returns (fun fuel => memGetInfo fuel t'.mem.heap) info' ∧
        info.heapCommitted ≤ info'.heapCommitted := by
  have hacc : t.Accounts := (hrun.accounts ⟨[], memInit_accounted h⟩).1
  obtain ⟨free, hfree⟩ := hacc
  obtain ⟨info, hret, hbal, hcommitted⟩ := memGetInfo_accounted hfree
  refine ⟨info, hret, hbal, fun t' hrun' => ?_⟩
  obtain ⟨⟨free', hfree'⟩, hahead⟩ := AppRun.accounts hrun' ⟨free, hfree⟩
  obtain ⟨info', hret', -, hcommitted'⟩ := memGetInfo_accounted hfree'
  refine ⟨info', hret', ?_⟩
  rw [hcommitted, hcommitted', hahead.heapStart]
  exact Nat.sub_le_sub_right hahead.committed _

/-- A run of the allocator is a run of the whole layer. -/
theorem AppRun.ofRun {guard : Heap → ℕ → Prop} {t t' : Sys}
    (hrun : Run guard t t') :
    AppRun guard ⟨{ m with heap := t.heap }, t.live⟩ ⟨{ m with heap := t'.heap }, t'.live⟩ := by
  induction hrun with
  | refl => exact .refl
  | tail _ hstep ih => exact ih.tail (.heap hstep)

/-- Two of three blocks are live. -/
theorem heap_accounting_freed :
    ∃ s info, Run NoWrap ⟨bootHeap, []⟩ ⟨s, [0x100080, 0x100000]⟩ ∧
      Returns (fun fuel => memGetInfo fuel s) info ∧ Balanced s [0x100080, 0x100000] info ∧
      ∀ t', AppRun NoWrap ⟨memInitApps s 1, [0x100080, 0x100000]⟩ t' →
        ∃ info', Returns (fun fuel => memGetInfo fuel t'.mem.heap) info' ∧
          info.heapCommitted ≤ info'.heapCommitted := by
  obtain ⟨s, hrun, -⟩ := threeBlocks_freed
  obtain ⟨info, hinfo⟩ :=
    heap_accounting bootHeap_ok (AppRun.ofRun (m := memInitApps bootHeap 1) hrun)
  exact ⟨s, info, hrun, hinfo⟩

theorem memGetInfo_noFree (h : s.freeList = 0) :
    ∃ info, Returns (fun fuel => memGetInfo fuel s) info ∧ info.heapUsed = s.heapUsedBytes := by
  refine ⟨⟨s.heapUsedBytes, add64 (sub64 s.heapCommittedEnd s.heapPtr)
      (sub64 sizeofSwapSpace (sub64 s.swapPtr s.swapSpace)),
      sub64 s.heapCommittedEnd s.heapStart, sub64 s.heapMaxEnd s.heapStart, s.heapGrowCount,
      s.heapAllocFailCount⟩, Returns.stop fun fuel => ?_, rfl⟩
  simp only [memGetInfo, memHeapFree, freeBytesLoop, h, if_true]

/-- After a request of `2^64 - 48` bytes the heap pointer is 8 bytes below the heap, and the
header of the next block is written over the header of the first: the counter is no longer
the sum over the live blocks, not even modulo `2^64`. -/
theorem heap_accounting_wraps :
    ∃ t info, AppRun TotalFits ⟨memInitApps bootHeap 1, []⟩ t ∧
      Returns (fun fuel => memGetInfo fuel t.mem.heap) info ∧
      info.heapUsed ≠ (t.live.map fun b => t.mem.heap.get b .userSize).sum % 2 ^ 64 := by
  have hfirst : Step TotalFits ⟨bootHeap, []⟩ ⟨(carveAlloc bootHeap (2 ^ 64 - 48)).2, [0x100000]⟩ :=
    carve_step rfl (by decide) (by decide +kernel) (by decide)
  have hnext : Step TotalFits ⟨(carveAlloc bootHeap (2 ^ 64 - 48)).2, [0x100000]⟩
      ⟨(carveAlloc (carveAlloc bootHeap (2 ^ 64 - 48)).2 24).2, [0xFFFF8, 0x100000]⟩ :=
    carve_step (by decide +kernel) (by decide) (by decide +kernel) (by decide)
  have hlist : (carveAlloc (carveAlloc bootHeap (2 ^ 64 - 48)).2 24).2.freeList = 0 := by decide +kernel
  obtain ⟨info, hinfo, hused⟩ := memGetInfo_noFree hlist
  have hrun : AppRun TotalFits ⟨memInitApps bootHeap 1, []⟩
      ⟨memInitApps (carveAlloc (carveAlloc bootHeap (2 ^ 64 - 48)).2 24).2 1, [0xFFFF8, 0x100000]⟩ :=
    AppRun.ofRun (m := memInitApps bootHeap 1) (.tail (.single hfirst) hnext)
  refine ⟨_, info, hrun, hinfo, ?_⟩
  rw [hused]
  decide +kernel

end ExoCore.Mem
