/-
  ExoCore.Fat.Chains — the cluster chain of a file.

  A file is the list `L` of its clusters; byte `p` of the file is byte `p % csz` of
  cluster `L[p / csz]` (`fileByte`).  Walking, growing and writing a chain are all
  described by ONE relation, `Wrote s s' L new pos n bf`: the clusters `new` were
  free and are now behind `L`, positions `pos .. pos + n` of the file hold the bytes
  `bf`, the rest of the new clusters is zero, and nothing else changed.

  Main results:
    • `chainLoop_grow` — `chain_cluster` with `grow`;
    • `writeLoop_spec` — the loop of `fs_write_fd`;
    • `readLoop_spec`  — the loop of `fs_read_fd`;
    • `freeChain_spec` — `free_chain`.
-/
import ExoCore.Fat.Layout

namespace ExoCore.Fat

open ExoCore.Lib Function List

/-! ## §1. Files as lists of clusters. -/

/-- The link ends a chain. -/
def Eoc (v : ℕ) : Prop := fat32Eoc ≤ v

instance (v : ℕ) : Decidable (Eoc v) := inferInstanceAs (Decidable (_ ≤ _))

/-- `L` is a chain of different clusters. -/
structure Held (s : FsState) (L : List ℕ) : Prop where
  chain : Chain (next s) Eoc L
  valid : ∀ c ∈ L, Valid s c
  nodup : L.Nodup

/-- Byte `p` of the file with the clusters `L`. -/
def fileByte (s : FsState) (L : List ℕ) (p : ℕ) : UInt8 :=
  cbyte s (L.getD (p / clusterSize s) 0) (p % clusterSize s)

/-- **What a write did**: `n` bytes `bf` at position `pos` of the file `L`, which grew
by the clusters `new`. -/
structure Wrote (s s' : FsState) (L new : List ℕ) (pos n : ℕ) (bf : ℕ → UInt8) : Prop where
  data : OnlyData s s'
  copies : Copies s → Copies s'
  held : Held s' (L ++ new)
  free : ∀ c ∈ new, next s c = 0
  next : ∀ c, Valid s c → c ∉ L ++ new → next s' c = next s c
  other : ∀ c, Valid s c → c ∉ L ++ new → ∀ k, k < clusterSize s → cbyte s' c k = cbyte s c k
  fits : n = 0 ∨ pos + n ≤ (L ++ new).length * clusterSize s
  byte : ∀ p, p < (L ++ new).length * clusterSize s → fileByte s' (L ++ new) p =
    if pos ≤ p ∧ p < pos + n then bf p
    else if p < L.length * clusterSize s then fileByte s L p else 0

section Lists

variable {s s' : FsState} {L new : List ℕ} {pos n p c : ℕ} {bf : ℕ → UInt8}

theorem isEoc_iff (v : ℕ) : isEoc v = true ↔ Eoc v := decide_eq_true_iff

theorem not_eoc_zero : ¬ Eoc 0 := by decide

theorem Layout.not_eoc (h : Layout s) (hc : Valid s c) : ¬ Eoc c := by
  have h1 := h.numbers
  have h2 := hc.2
  unfold Eoc
  omega

/-- A position below the end of the chain lies in one of its clusters. -/
theorem div_lt_of_lt {m csz : ℕ} (hp : p < m * csz) : p / csz < m :=
  Nat.div_lt_of_lt_mul (by rw [Nat.mul_comm]; exact hp)

theorem fileByte_eq {k : ℕ} (hc : L[p / clusterSize s]? = some c)
    (hk : p % clusterSize s = k) : fileByte s L p = cbyte s c k := by
  unfold fileByte
  rw [getD_eq_getElem?_getD, hc, hk]
  rfl

/-- The bytes of a file are bytes of its own clusters. -/
theorem fileByte_congr (hd : OnlyData s s') (h : Layout s) (hp : p < L.length * clusterSize s)
    (hsame : ∀ c ∈ L, ∀ k, k < clusterSize s → cbyte s' c k = cbyte s c k) :
    fileByte s' L p = fileByte s L p := by
  have hlt := div_lt_of_lt hp
  have hpos := h.clusterSize_pos
  unfold fileByte
  rw [hd.clusterSize, getD_eq_getElem _ _ hlt]
  exact hsame _ (List.getElem_mem hlt) _ (Nat.mod_lt _ (by omega))

/-- New clusters behind the file do not move its bytes. -/
theorem fileByte_append (hp : p < L.length * clusterSize s) :
    fileByte s (L ++ new) p = fileByte s L p := by
  have hlt := div_lt_of_lt hp
  unfold fileByte
  rw [getD_append _ _ _ _ hlt]

theorem Wrote.refl (hl : Held s L) (pos : ℕ) (bf : ℕ → UInt8) : Wrote s s L [] pos 0 bf := by
  refine ⟨OnlyData.refl s, fun h => h, ?_, (fun c hc => by cases hc), fun _ _ _ => rfl,
    fun _ _ _ _ _ => rfl, .inl rfl, ?_⟩
  · rw [append_nil]
    exact hl
  · intro p hp
    rw [append_nil] at hp ⊢
    rw [if_neg (by omega), if_pos hp]

/-- **Two writes, one behind the other.** -/
theorem Wrote.trans {t : FsState} {new' : List ℕ} {n' : ℕ} (h : Wrote s t L new pos n bf)
    (h' : Wrote t s' (L ++ new) new' (pos + n) n' bf) :
    Wrote s s' L (new ++ new') pos (n + n') bf := by
  have hcsz := h.data.clusterSize
  have hassoc : L ++ (new ++ new') = L ++ new ++ new' := (append_assoc L new new').symm
  have hvalid : ∀ c, Valid s c → Valid t c := fun c hc => h.data.valid.mpr hc
  refine ⟨h.data.trans h'.data, fun hc => h'.copies (h.copies hc), ?_, ?_, ?_, ?_, ?_, ?_⟩
  · rw [hassoc]
    exact h'.held
  · intro c hc
    rcases mem_append.mp hc with hc | hc
    · exact h.free c hc
    · -- `c` was free in `t` and is not on the chain, so it was free in `s`
      have hnot : c ∉ L ++ new := by
        intro hmem
        exact (nodup_append.mp h'.held.nodup).2.2 c hmem c hc rfl
      have hv : Valid s c := by
        have := h'.held.valid c (mem_append_right _ hc)
        exact (h.data.trans h'.data).valid.mp this
      rw [← h.next c hv hnot]
      exact h'.free c hc
  · intro c hv hc
    rw [hassoc] at hc
    rw [h'.next c (hvalid c hv) hc]
    exact h.next c hv fun hmem => hc (mem_append_left _ hmem)
  · intro c hv hc k hk
    rw [hassoc] at hc
    rw [h'.other c (hvalid c hv) hc k (by rw [hcsz]; exact hk)]
    exact h.other c hv (fun hmem => hc (mem_append_left _ hmem)) k hk
  · have h1 := h.fits
    have h2 := h'.fits
    rw [hcsz] at h2
    rw [hassoc, length_append, Nat.add_mul]
    have hsum : (L ++ new ++ new').length = (L ++ new).length + new'.length := length_append
    rw [hsum, Nat.add_mul] at h2
    omega
  · intro p hp
    rw [hassoc] at hp ⊢
    rw [h'.byte p (by rw [hcsz]; exact hp), hcsz]
    have hfits := h.fits
    by_cases h2 : pos + n ≤ p ∧ p < pos + n + n'
    · rw [if_pos h2, if_pos (by omega)]
    · rw [if_neg h2]
      by_cases hin : p < (L ++ new).length * clusterSize s
      · rw [if_pos hin, h.byte p hin]
        by_cases h1 : pos ≤ p ∧ p < pos + n
        · rw [if_pos h1, if_pos (by omega)]
        · have h12 : ¬ (pos ≤ p ∧ p < pos + (n + n')) := by omega
          rw [if_neg h1, if_neg h12]
      · have hout : ¬ p < L.length * clusterSize s := by
          intro hlt
          rw [length_append, Nat.add_mul] at hin
          omega
        rw [if_neg hin, if_neg (by omega), if_neg hout]

end Lists

/-! ## §2. Walking and growing. -/

section Grow

variable {s s' : FsState} {L : List ℕ} {c d pos : ℕ} {bf : ℕ → UInt8}

theorem Held.next_ne_zero (hl : Held s L) : ∀ c ∈ L, next s c ≠ 0 :=
  Chain.link_ne_zero (show 0 < 2 by omega) not_eoc_zero hl.chain fun c hc => (hl.valid c hc).1

/-- A chain has at most as many clusters as the volume. -/
theorem Held.length_le (hl : Held s L) : L.length ≤ s.fat.totalClusters := by
  have hsub : L ⊆ List.range' 2 s.fat.totalClusters := by
    intro c hc
    obtain ⟨h1, h2⟩ := hl.valid c hc
    rw [mem_range'_1]
    omega
  calc L.length ≤ (List.range' 2 s.fat.totalClusters).length :=
        (subperm_of_subset hl.nodup hsub).length_le
    _ = s.fat.totalClusters := length_range'

section

variable (h : Layout s)
include h

/-- **A cleared cluster behind the file.** -/
theorem wrote_append (hd : OnlyData s s') (hcop : Copies s → Copies s') (hheld : Held s' (L ++ [d]))
    (hfree : Fat.next s d = 0)
    (hnext : ∀ c, Valid s c → c ∉ L ++ [d] → Fat.next s' c = Fat.next s c)
    (hbyte : ∀ c, Valid s c → ∀ k, k < clusterSize s →
      cbyte s' c k = if c = d then 0 else cbyte s c k) (pos : ℕ) (bf : ℕ → UInt8) :
    Wrote s s' L [d] pos 0 bf := by
  have hnot : d ∉ L := by
    intro hmem
    exact (nodup_append.mp hheld.nodup).2.2 d hmem d (mem_singleton_self d) rfl
  refine ⟨hd, hcop, hheld, ?_, hnext, ?_, .inl rfl, ?_⟩
  · intro c hc
    rw [mem_singleton.mp hc]
    exact hfree
  · intro c hc hmem k hk
    rw [hbyte c hc k hk, if_neg]
    intro hcd
    exact hmem (mem_append_right L (mem_singleton.mpr hcd))
  · intro p hp
    have hpos := h.clusterSize_pos
    have hlt := div_lt_of_lt hp
    rw [length_append, length_singleton] at hlt
    rw [if_neg (by omega)]
    by_cases hin : p < L.length * clusterSize s
    · -- a byte of the old clusters
      rw [if_pos hin, fileByte_append (by rw [hd.clusterSize]; exact hin)]
      refine fileByte_congr hd h hin fun c hc k hk => ?_
      have hv : Valid s c := hd.valid.mp (hheld.valid c (mem_append_left _ hc))
      have hcd : c ≠ d := fun hcd => hnot (hcd ▸ hc)
      rw [hbyte c hv k hk, if_neg hcd]
    · -- a byte of the new one
      rw [if_neg hin]
      have hle : L.length ≤ p / clusterSize s :=
        (Nat.le_div_iff_mul_le (by omega)).mpr (by omega)
      have hidx : p / clusterSize s = L.length := by omega
      have hget : (L ++ [d])[p / clusterSize s']? = some d := by
        rw [hd.clusterSize, hidx, List.getElem?_append_right (le_refl _), Nat.sub_self]
        rfl
      have hv : Valid s d := hd.valid.mp (hheld.valid d (by simp))
      rw [fileByte_eq hget rfl, hd.clusterSize, hbyte d hv _ (Nat.mod_lt _ (by omega)), if_pos rfl]

/-- **The first cluster of a file.** -/
theorem allocCluster_first (pos : ℕ) (bf : ℕ → UInt8) :
    (allocCluster s = .ok (0, s) ∧ Full s) ∨
    ∃ d s', Valid s d ∧ allocCluster s = .ok (d, s') ∧ Wrote s s' [] [d] pos 0 bf := by
  obtain hnone | ⟨d, s', hv, hfree, hret, hch⟩ := allocCluster_spec h
  · exact .inl hnone
  · refine .inr ⟨d, s', hv, hret, wrote_append h hch.data hch.copies ?_ hfree ?_ ?_ pos bf⟩
    · refine ⟨?_, ?_, nodup_singleton d⟩
      · show Eoc (Fat.next s' d)
        rw [hch.next d hv, update_self]
        decide
      · intro c hc
        rw [mem_singleton.mp hc]
        exact hch.data.valid.mpr hv
    · intro c hc hmem
      rw [hch.next c hc, update_of_ne]
      exact fun hcd => hmem (mem_singleton.mpr hcd)
    · intro c hc k hk
      rw [hch.byte c hc k hk]
      rw [update_apply]
      split <;> rfl

/-- **A cluster behind the last one.** -/
theorem growChain_spec (hl : Held s (L ++ [c])) (pos : ℕ) (bf : ℕ → UInt8) :
    (growChain s c = .ok (0, s) ∧ Full s) ∨
    ∃ d s', Valid s d ∧ growChain s c = .ok (d, s') ∧ Wrote s s' (L ++ [c]) [d] pos 0 bf := by
  unfold growChain
  obtain ⟨hret, hfull⟩ | ⟨d, s₁, hv, hfree, hret, h₁⟩ := allocCluster_spec h
  · rw [hret]
    exact .inl ⟨rfl, hfull⟩
  have hcv : Valid s c := hl.valid c (by simp)
  have hd28 : d < 2 ^ 28 := by
    have h1 := h.numbers
    have h2 := hv.2
    unfold fat32Eoc at h1
    omega
  have hd0 : d ≠ 0 := by
    have := hv.1
    omega
  -- the new cluster was free, so it is not on the chain
  have hnot : d ∉ L ++ [c] := fun hmem => hl.next_ne_zero d hmem hfree
  have hcd : c ≠ d := fun hcd => hnot (by simp [hcd])
  obtain ⟨s₂, hset, h₂⟩ := fatSet_spec (h₁.data.layout h) (h₁.data.valid.mpr hcv).2 hd28
  have hnext : ∀ e, Valid s e → Fat.next s₂ e =
      update (update (Fat.next s) d fat32EocMark) c d e := by
    intro e he
    rw [h₂.next e (h₁.data.valid.mpr he)]
    by_cases hec : e = c
    · rw [hec, update_self, update_self]
    · rw [update_of_ne hec, update_of_ne hec, h₁.next e he]
  have hdata := h₁.data.trans h₂.data
  refine .inr ⟨d, s₂, hv, ?_, wrote_append h hdata (fun hc => h₂.copies (h₁.copies hc)) ?_ hfree
    ?_ ?_ pos bf⟩
  · rw [hret]
    show (if d = 0 then _ else (fatSet s₁ c d >>= _)) = _
    rw [if_neg hd0, hset]
    rfl
  · refine ⟨Chain.snoc hl.chain ?_ ?_ ?_, ?_, ?_⟩
    · intro e he
      have hec : e ≠ c := by
        intro hec
        exact (nodup_append.mp hl.nodup).2.2 e he c (mem_singleton_self c) hec
      have hed : e ≠ d := fun hed => hnot (mem_append_left _ (hed ▸ he))
      rw [hnext e (hl.valid e (mem_append_left _ he)), update_of_ne hec,
        update_of_ne hed]
    · rw [hnext c hcv, update_self]
    · rw [hnext d hv, update_of_ne (Ne.symm hcd), update_self]
      decide
    · intro e he
      rcases mem_append.mp he with he | he
      · exact hdata.valid.mpr (hl.valid e he)
      · rw [mem_singleton.mp he]
        exact hdata.valid.mpr hv
    · refine nodup_append.mpr ⟨hl.nodup, nodup_singleton d, ?_⟩
      intro a ha b hb hab
      rw [hab, mem_singleton.mp hb] at ha
      exact hnot ha
  · intro e he hmem
    rw [mem_append, mem_append, mem_singleton, mem_singleton] at hmem
    rw [hnext e he, update_of_ne (by tauto), update_of_ne (by tauto)]
  · intro e he k hk
    have hk₁ : k < clusterSize s₁ := by
      rw [h₁.data.clusterSize]
      exact hk
    rw [h₂.byte e (h₁.data.valid.mpr he) k hk₁, h₁.byte e he k hk]
    rw [update_apply]
    split <;> rfl

/-- One turn of the walk inside the chain. -/
theorem nextCluster_link (hl : Held s L) {i : ℕ} (hc : L[i]? = some c) (hd : L[i + 1]? = some d)
    (grow : Bool) : nextCluster s c grow = .ok (d, s) := by
  have hdv := hl.valid d (mem_of_getElem? hd)
  have hnext : next s c = d := hl.chain.link hc hd
  have heoc : isEoc d = false := by
    rw [Bool.eq_false_iff, Ne, isEoc_iff]
    exact h.not_eoc hdv
  unfold nextCluster
  rw [fatGet_eq h (hl.valid c (mem_of_getElem? hc)).2, hnext]
  show (if isEoc d = true then _ else Except.ok (d, s)) = _
  rw [heoc]
  rfl

/-- One turn of the walk at the end of the chain. -/
theorem nextCluster_last (hl : Held s (L ++ [c])) : nextCluster s c true = growChain s c := by
  have heoc : isEoc (next s c) = true := (isEoc_iff _).mpr (hl.chain.last (by simp))
  unfold nextCluster
  rw [fatGet_eq h (hl.valid c (by simp)).2]
  show (if isEoc (next s c) = true then _ else _) = _
  rw [heoc]
  rfl

/-- **`chain_cluster` inside the chain**: the clusters of `L` in turn. -/
theorem chainLoop_walk (hl : Held s L) (grow : Bool) :
    ∀ (n i : ℕ) {c d : ℕ}, L[i]? = some c → L[i + n]? = some d →
      chainLoop s c grow n = .ok (d, s) := by
  intro n
  induction n with
  | zero =>
    intro i c d hc hd
    rw [Nat.add_zero, hc] at hd
    cases hd
    rfl
  | succ n ih =>
    intro i c d hc hd
    have hlt : i + 1 < L.length := by
      have := (List.getElem?_eq_some_iff.mp hd).1
      omega
    have he : L[i + 1]? = some L[i + 1] := List.getElem?_eq_getElem hlt
    unfold chainLoop
    rw [nextCluster_link h hl hc he]
    show (if validCluster s _ = true then chainLoop s _ grow n else _) = _
    rw [if_pos (h.validCluster.mpr (hl.valid _ (mem_of_getElem? he)))]
    exact ih (i + 1) he (by rw [Nat.add_right_comm]; exact hd)

end

/-- **`chain_cluster` with `grow`**: the cluster `n` turns behind `L[i]`, on new clusters
past the end; `0` when the volume is full. -/
theorem chainLoop_grow (pos : ℕ) (bf : ℕ → UInt8) : ∀ (n i : ℕ) (s : FsState) (L : List ℕ) (c : ℕ),
    Layout s → Held s L → L[i]? = some c →
    ∃ new s' r, chainLoop s c true n = .ok (r, s') ∧ Wrote s s' L new pos 0 bf ∧
      ((r ≠ 0 ∧ (L ++ new)[i + n]? = some r) ∨ (r = 0 ∧ Full s')) := by
  intro n
  induction n with
  | zero =>
    intro i s L c _ hl hc
    refine ⟨[], s, c, rfl, Wrote.refl hl pos bf, .inl ⟨?_, ?_⟩⟩
    · have := (hl.valid c (mem_of_getElem? hc)).1
      omega
    · rw [append_nil]
      exact hc
  | succ n ih =>
    intro i s L c h hl hc
    unfold chainLoop
    by_cases hlt : i + 1 < L.length
    · -- the link is there already
      have he : L[i + 1]? = some L[i + 1] := List.getElem?_eq_getElem hlt
      rw [nextCluster_link h hl hc he]
      show ∃ new s' r, (if validCluster s _ = true then chainLoop s _ true n else _) = _ ∧ _
      rw [if_pos (h.validCluster.mpr (hl.valid _ (mem_of_getElem? he)))]
      have := ih (i + 1) s L _ h hl he
      rwa [Nat.add_right_comm] at this
    · -- the last cluster
      have hlast : L = L.dropLast ++ [c] := by
        have hi := (List.getElem?_eq_some_iff.mp hc).1
        have hget : L.getLast? = some c := by
          rw [getLast?_eq_getElem?, show L.length - 1 = i by omega]
          exact hc
        exact (dropLast_append_getLast? c hget).symm
      rw [hlast] at hl ⊢
      rw [nextCluster_last h hl]
      obtain ⟨hret, hfull⟩ | ⟨d, s₁, hv, hret, hw⟩ := growChain_spec h hl pos bf
      · rw [hret]
        refine ⟨[], s, 0, ?_, Wrote.refl hl pos bf, .inr ⟨rfl, hfull⟩⟩
        have hzero : ¬ validCluster s 0 = true := by
          rw [h.validCluster]
          exact fun h0 => absurd h0.1 (by omega)
        exact (if_neg hzero : (if validCluster s 0 = true then chainLoop s 0 true n
          else .ok (0, s)) = .ok (0, s))
      · rw [hret]
        have h₁ := hw.data.layout h
        have hlen : (L.dropLast ++ [c]).length = i + 1 := by
          have hi := (List.getElem?_eq_some_iff.mp hc).1
          rw [← hlast]
          omega
        have hget : (L.dropLast ++ [c] ++ [d])[i + 1]? = some d := by
          rw [List.getElem?_append_right (by omega), hlen, Nat.sub_self]
          rfl
        obtain ⟨new, s', r, hret', hw', hr⟩ := ih (i + 1) s₁ _ d h₁ hw.held hget
        refine ⟨d :: new, s', r, ?_, hw.trans hw', ?_⟩
        · show (if validCluster s₁ d = true then chainLoop s₁ d true n else _) = _
          rw [if_pos (h₁.validCluster.mpr (hw.data.valid.mpr hv)), hret']
        · rw [append_assoc, Nat.add_right_comm] at hr
          exact hr

end Grow

/-! ## §3. Writing. -/

section Write

variable {s : FsState} {L : List ℕ} {c pos : ℕ} {bf : ℕ → UInt8}

/-- The position of a byte in a file. -/
theorem pos_eq (s : FsState) (p : ℕ) :
    p / clusterSize s * clusterSize s + p % clusterSize s = p := by
  rw [Nat.mul_comm]
  exact Nat.div_add_mod p (clusterSize s)

/-- The positions of one cluster. -/
theorem cluster_of_pos {csz p q r : ℕ} (hr : r < csz) (h : p = q * csz + r) : p / csz = q := by
  rw [h, Nat.add_comm, Nat.add_mul_div_right _ _ (by omega), Nat.div_eq_of_lt hr, Nat.zero_add]

/-- **One copy**: `l` lands at position `pos` of the file, inside one cluster. -/
theorem copyIn_file (bf : ℕ → UInt8) (h : Layout s) (hl : Held s L) {l : List UInt8}
    (hc : L[pos / clusterSize s]? = some c) (hfit : pos % clusterSize s + l.length ≤ clusterSize s)
    (hbf : ∀ k, k < l.length → bf (pos + k) = l.getD k 0) :
    ∃ s', copyIn s (clusterOffset s c + pos % clusterSize s) l = .ok s' ∧
      Wrote s s' L [] pos l.length bf := by
  have hcv := hl.valid c (mem_of_getElem? hc)
  have hpos := h.clusterSize_pos
  have hidx := (List.getElem?_eq_some_iff.mp hc).1
  have hp0 := pos_eq s pos
  obtain ⟨s', hret, hch⟩ := copyIn_spec h hcv hfit
  refine ⟨s', hret, hch.data, hch.copies, ?_, fun e he => (by cases he), fun e he _ => hch.next e he,
    ?_, .inr ?_, ?_⟩
  · rw [append_nil]
    exact ⟨hl.chain.congr fun e he => hch.next e (hl.valid e he),
      fun e he => hch.data.valid.mpr (hl.valid e he), hl.nodup⟩
  · intro e he hmem k hk
    rw [hch.byte e he k hk, update_of_ne]
    rintro rfl
    exact hmem (mem_append_left _ (mem_of_getElem? hc))
  · rw [append_nil]
    have : (pos / clusterSize s + 1) * clusterSize s ≤ L.length * clusterSize s :=
      Nat.mul_le_mul_right _ hidx
    rw [Nat.add_mul, Nat.one_mul] at this
    omega
  · intro p hp
    rw [append_nil] at hp ⊢
    rw [if_pos hp]
    have hlt := div_lt_of_lt hp
    have hpe := pos_eq s p
    have hmod : p % clusterSize s < clusterSize s := Nat.mod_lt _ (by omega)
    have hget : L[p / clusterSize s]? = some L[p / clusterSize s] := List.getElem?_eq_getElem hlt
    have hev := hl.valid _ (List.getElem_mem hlt)
    rw [fileByte_eq (s := s') (by rw [hch.data.clusterSize]; exact hget) rfl,
      fileByte_eq hget rfl, hch.data.clusterSize, hch.byte _ hev _ hmod]
    by_cases hq : p / clusterSize s = pos / clusterSize s
    · -- the same cluster: compare the offsets
      have hcl : L[p / clusterSize s] = c := by
        rw [← hq, hget] at hc
        exact Option.some.inj hc
      rw [hcl, update_self]
      rw [hq] at hpe
      by_cases hin : pos ≤ p ∧ p < pos + l.length
      · rw [if_pos (by omega), if_pos hin]
        have := hbf (p - pos) (by omega)
        rw [show pos + (p - pos) = p by omega] at this
        rw [this]
        congr 1
        omega
      · rw [if_neg (by omega), if_neg hin]
    · -- another cluster, hence another position
      have hne : L[p / clusterSize s] ≠ c := by
        intro heq
        rw [heq] at hget
        exact hq ((List.getElem?_inj hlt hl.nodup).mp (hget.trans hc.symm))
      rw [update_of_ne hne, if_neg]
      intro hin
      refine hq (cluster_of_pos (r := pos % clusterSize s + (p - pos)) (by omega) ?_)
      omega

/-- A walk from the first cluster. -/
theorem chainCluster_eq {first : ℕ} (hl : Held s L) (hhead : L.head? = some first) (index : ℕ)
    (grow : Bool) : chainCluster s first index grow = chainLoop s first grow index := by
  have := (hl.valid first (mem_of_mem_head? hhead)).1
  unfold chainCluster
  rw [if_neg (by omega)]

theorem chunkSize_fits (s : FsState) (pos left : ℕ) (hpos : 0 < clusterSize s) :
    pos % clusterSize s + chunkSize s pos left ≤ clusterSize s := by
  have h1 : pos % clusterSize s < clusterSize s := Nat.mod_lt _ hpos
  have h2 : chunkSize s pos left ≤ clusterSize s - pos % clusterSize s := min_le_left _ _
  omega

theorem chunkSize_pos {left : ℕ} (s : FsState) (pos : ℕ) (hpos : 0 < clusterSize s)
    (hleft : 0 < left) : 0 < chunkSize s pos left := by
  have h1 : pos % clusterSize s < clusterSize s := Nat.mod_lt _ hpos
  exact Nat.lt_min.mpr ⟨by omega, hleft⟩

variable {done n : ℕ} {buf : List UInt8} {s' : FsState} {new : List ℕ} {f : FsOpen}

/-- The part of a cluster behind `pos` is in the image, and its offset does not wrap. -/
theorem Layout.chunk_inside (h : Layout s) (hc : Valid s c) (pos : ℕ)
    (hfit : pos % clusterSize s + n ≤ clusterSize s) :
    add64 (Fat.clusterOffset s c) (pos % clusterSize s) =
      Fat.clusterOffset s c + pos % clusterSize s ∧
    Has s (Fat.clusterOffset s c + pos % clusterSize s) n := by
  have h1 := h.cluster_word hc
  have h2 := h.cluster_inside hc
  exact ⟨add64_of_lt (by omega), h.present, by omega⟩

theorem getD_slice {k : ℕ} (hk : k < n) :
    ((buf.drop done).take n).getD k 0 = buf.getD (done + k) 0 := by
  rw [getD_eq_getElem?_getD, List.getElem?_take_of_lt hk, List.getElem?_drop,
    ← getD_eq_getElem?_getD]

/-- The descriptor after `n` bytes. -/
def afterWrite (f : FsOpen) (n : ℕ) : FsOpen :=
  { f with pos := f.pos + n, size := if n = 0 then f.size else max f.size (f.pos + n) }

/-- A chunk, then the rest. -/
theorem afterWrite_add (f : FsOpen) {a : ℕ} (ha : 0 < a) (b : ℕ) :
    afterWrite { f with pos := f.pos + a, size := max f.size (f.pos + a) } b =
      afterWrite f (a + b) := by
  unfold afterWrite
  congr 1
  · show (if b = 0 then max f.size (f.pos + a) else
        max (max f.size (f.pos + a)) (f.pos + a + b)) = _
    rw [if_neg (show a + b ≠ 0 by omega)]
    split <;> omega
  · exact Nat.add_assoc _ _ _

/-- A file on the volume ends below 4 GiB, when the request or the volume does. -/
theorem Wrote.below (hw : Wrote s s' L new pos n bf)
    (hword : pos + n < 2 ^ 32 ∨ s.fat.totalClusters * clusterSize s < 2 ^ 32)
    (hn : 0 < n) : pos + n < 2 ^ 32 := by
  rcases hword with hword | hword
  · exact hword
  · have hlen : (L ++ new).length * clusterSize s ≤ s.fat.totalClusters * clusterSize s := by
      have := hw.held.length_le
      rw [hw.data.fat] at this
      exact Nat.mul_le_mul_right _ this
    have := hw.fits
    omega

/-- The new size, in the clusters the file has now. -/
theorem Wrote.size_fits
    (hw : Wrote s s' L new f.pos n bf) (hsize : f.size ≤ L.length * clusterSize s) :
    (afterWrite f n).size ≤ (L ++ new).length * clusterSize s := by
  have hfits := hw.fits
  rw [length_append, Nat.add_mul] at hfits ⊢
  show (if n = 0 then f.size else max f.size (f.pos + n)) ≤ _
  split <;> omega

/-- The new position and the new size, below 4 GiB. -/
theorem Wrote.words
    (hw : Wrote s s' L new f.pos n bf)
    (hword : f.pos + n < 2 ^ 32 ∨ s.fat.totalClusters * clusterSize s < 2 ^ 32)
    (hpos : f.pos < 2 ^ 32) (hsize : f.size < 2 ^ 32) :
    f.pos + n < 2 ^ 32 ∧ (afterWrite f n).size < 2 ^ 32 := by
  have hend : f.pos + n < 2 ^ 32 := by
    rcases Nat.eq_zero_or_pos n with rfl | hn
    · exact hpos
    · exact hw.below hword hn
  refine ⟨hend, ?_⟩
  show (if n = 0 then f.size else max f.size (f.pos + n)) < 2 ^ 32
  split <;> omega

/-- One turn of the loop that copies `chunk` bytes. -/
theorem writeLoop_turn {s₁ s₂ : FsState} {chunk fuel : ℕ}
    (h₁ : Layout s₁) (hcv : Valid s₁ c) (hlt : done < buf.length)
    (hret : chainCluster s f.firstCluster (f.pos / clusterSize s % 2 ^ 32) true = .ok (c, s₁))
    (hc0 : c ≠ 0) (hch : chunkSize s₁ f.pos (buf.length - done) = chunk)
    (hle : done + chunk ≤ buf.length) (hend : f.pos + chunk < 2 ^ 32)
    (hcopy : copyIn s₁ (clusterOffset s₁ c + f.pos % clusterSize s₁) ((buf.drop done).take chunk) =
      .ok s₂) :
    writeLoop buf (fuel + 1) s f done = writeLoop buf fuel s₂
      { f with pos := f.pos + chunk, size := max f.size (f.pos + chunk) } (done + chunk) := by
  have hcsz := h₁.clusterSize_pos
  obtain ⟨hoff, hhas⟩ := h₁.chunk_inside hcv f.pos
    (hch ▸ chunkSize_fits s₁ f.pos (buf.length - done) (by omega))
  rw [writeLoop, if_pos hlt, hret]
  show (if c = 0 then _ else _) = _
  rw [if_neg hc0]
  show (if (!rangeOk s₁ (add64 _ _) (chunkSize s₁ f.pos (buf.length - done))) = true then _
    else (slice buf done (chunkSize s₁ f.pos (buf.length - done)) >>= _)) = _
  rw [hch, hoff, rangeOk_of_has hhas, slice, if_pos hle]
  show (copyIn s₁ _ _ >>= _) = _
  rw [hcopy]
  show writeLoop buf fuel s₂ { f with
    pos := (f.pos + chunk) % 2 ^ 32, size := max f.size ((f.pos + chunk) % 2 ^ 32) }
    (done + chunk) = _
  rw [Nat.mod_eq_of_lt hend]

/-- **The loop of `fs_write_fd`**: `n` more bytes, all of them unless the volume is full.
The induction is on a bound of the bytes that are left. -/
theorem writeLoop_spec (buf : List UInt8) (bf : ℕ → UInt8) :
    ∀ (m : ℕ) (s : FsState) (f : FsOpen) (L : List ℕ) (done : ℕ), Layout s → Held s L →
    L.head? = some f.firstCluster → f.pos < 2 ^ 32 →
    (f.pos + (buf.length - done) < 2 ^ 32 ∨ s.fat.totalClusters * clusterSize s < 2 ^ 32) →
    done ≤ buf.length → buf.length - done ≤ m →
    (∀ k, k < buf.length - done → bf (f.pos + k) = buf.getD (done + k) 0) →
    ∃ n new s',
      (∀ fuel, m < fuel → writeLoop buf fuel s f done = .ok (done + n, afterWrite f n, s')) ∧
      Wrote s s' L new f.pos n bf ∧ done + n ≤ buf.length ∧ (done + n < buf.length → Full s') := by
  intro m
  induction m with
  | zero =>
    intro s f L done _ hl _ _ _ hdone hm _
    refine ⟨0, [], s, fun fuel hfuel => ?_, Wrote.refl hl _ _, by omega,
      fun hlt => absurd hlt (by omega)⟩
    obtain ⟨fuel, rfl⟩ := Nat.exists_eq_succ_of_ne_zero (Nat.ne_of_gt hfuel)
    rw [writeLoop, if_neg (by omega)]
    rfl
  | succ m ih =>
    intro s f L done h hl hhead hpos hword hdone hm hbf
    by_cases hlt : done < buf.length
    · have hcsz := h.clusterSize_pos
      have hidx : f.pos / clusterSize s % 2 ^ 32 = f.pos / clusterSize s :=
        Nat.mod_eq_of_lt ((Nat.div_le_self _ _).trans_lt hpos)
      have hget0 : L[0]? = some f.firstCluster := by
        rw [← head?_eq_getElem?]
        exact hhead
      obtain ⟨new, s₁, c, hret, hw, hr⟩ :=
        chainLoop_grow f.pos bf (f.pos / clusterSize s) 0 s L f.firstCluster h hl hget0
      rw [← chainCluster_eq hl hhead, ← hidx] at hret
      obtain ⟨hc0, hget⟩ | ⟨hc0, hfull⟩ := hr
      · -- the cluster of the position
        have h₁ := hw.data.layout h
        have hcs := hw.data.clusterSize
        rw [Nat.zero_add, ← hcs] at hget
        generalize hch : chunkSize s₁ f.pos (buf.length - done) = chunk
        have hle : chunk ≤ buf.length - done := hch ▸ chunkSize_le s₁ f.pos (buf.length - done)
        have hchpos : 0 < chunk := hch ▸ chunkSize_pos s₁ f.pos (by omega) (by omega)
        have hfit : f.pos % clusterSize s₁ + chunk ≤ clusterSize s₁ :=
          hch ▸ chunkSize_fits s₁ f.pos (buf.length - done) (by omega)
        have hlen : ((buf.drop done).take chunk).length = chunk := by
          rw [length_take, length_drop]
          omega
        obtain ⟨s₂, hcopy, hw₂⟩ := copyIn_file bf h₁ hw.held hget (by rw [hlen]; exact hfit)
          (by
            intro k hk
            rw [hlen] at hk
            rw [getD_slice hk]
            exact hbf k (by omega))
        have hw' : Wrote s s₂ L new f.pos chunk bf := by
          have := hw.trans (n := 0) hw₂
          rwa [append_nil, Nat.zero_add, hlen] at this
        have hend : f.pos + chunk < 2 ^ 32 := 
          hw'.below (hword.imp_left fun hword => by omega) hchpos
        obtain ⟨n, new', s₃, hret', hw₃, hn, hfull⟩ := ih s₂
          { f with pos := f.pos + chunk, size := max f.size (f.pos + chunk) } (L ++ new)
          (done + chunk) (hw'.data.layout h) hw'.held
          (by rw [head?_append, hhead]; rfl) hend
          (by
            rw [hw'.data.fat, hw'.data.clusterSize]
            exact hword.imp (fun hword => by show f.pos + chunk + _ < _; omega) id)
          (by omega) (by omega)
          (by
            intro k hk
            show bf (f.pos + chunk + k) = _
            rw [Nat.add_assoc, Nat.add_assoc]
            exact hbf (chunk + k) (by omega))
        refine ⟨chunk + n, new ++ new', s₃, fun fuel hfuel => ?_, hw'.trans hw₃, by omega,
          fun hlt => hfull (by omega)⟩
        obtain ⟨fuel, rfl⟩ := Nat.exists_eq_succ_of_ne_zero (show fuel ≠ 0 by omega)
        rw [writeLoop_turn h₁ (hw.held.valid c (mem_of_getElem? hget)) hlt hret hc0 hch
          (by omega) hend hcopy, hret' fuel (by omega), afterWrite_add f hchpos, Nat.add_assoc]
      · -- the volume is full
        subst hc0
        refine ⟨0, new, s₁, fun fuel hfuel => ?_, hw, by omega, fun _ => hfull⟩
        obtain ⟨fuel, rfl⟩ := Nat.exists_eq_succ_of_ne_zero (show fuel ≠ 0 by omega)
        rw [writeLoop, if_pos hlt, hret]
        rfl
    · refine ⟨0, [], s, fun fuel hfuel => ?_, Wrote.refl hl _ _, by omega,
        fun hlt' => absurd hlt' (by omega)⟩
      obtain ⟨fuel, rfl⟩ := Nat.exists_eq_succ_of_ne_zero (show fuel ≠ 0 by omega)
      rw [writeLoop, if_neg hlt]
      rfl

end Write

/-! ## §4. Reading. -/

section Read

variable {s : FsState} {L : List ℕ} {c pos : ℕ}

/-- **One copy** out of a cluster. -/
theorem copyOut_file (h : Layout s) (hl : Held s L) {n : ℕ}
    (hc : L[pos / clusterSize s]? = some c) (hfit : pos % clusterSize s + n ≤ clusterSize s) :
    copyOut s (clusterOffset s c + pos % clusterSize s) n =
      .ok ((List.range n).map fun i => fileByte s L (pos + i)) := by
  have hcv := hl.valid c (mem_of_getElem? hc)
  have hhas := (h.chunk_inside hcv pos hfit).2
  unfold copyOut
  rw [if_pos hhas]
  refine congrArg Except.ok (map_congr_left fun i hi => ?_)
  rw [mem_range] at hi
  -- the byte `pos + i` is in the same cluster
  have hp := pos_eq s pos
  have hr : pos % clusterSize s + i < clusterSize s := by omega
  have hsum : pos + i = pos / clusterSize s * clusterSize s + (pos % clusterSize s + i) := by omega
  have hdiv := cluster_of_pos hr hsum
  have hmod : (pos + i) % clusterSize s = pos % clusterSize s + i := by
    have := pos_eq s (pos + i)
    rw [hdiv] at this
    omega
  rw [fileByte_eq (by rw [hdiv]; exact hc) hmod]
  unfold cbyte
  rw [Nat.add_assoc]

/-- **The loop of `fs_read_fd`**: the bytes from the position on. -/
theorem readLoop_spec (h : Layout s) (hl : Held s L) (slot : Slot) {len cap : ℕ} (hcap : len ≤ cap) :
    ∀ (fuel : ℕ) (f : FsOpen) (out : List UInt8), L.head? = some f.firstCluster →
    out.length ≤ len → len - out.length < fuel →
    f.pos + (len - out.length) ≤ L.length * clusterSize s →
    f.pos + (len - out.length) < 2 ^ 32 →
    readLoop s slot len cap fuel f out =
      .ok (out ++ (List.range (len - out.length)).map fun i => fileByte s L (f.pos + i),
        s.setOpen slot { f with pos := f.pos + (len - out.length) }) := by
  intro fuel
  induction fuel with
  | zero =>
    intro f out _ _ hfuel
    omega
  | succ fuel ih =>
    intro f out hhead hout hfuel hfits hword
    unfold readLoop
    by_cases hlt : out.length < len
    · rw [if_pos hlt]
      have hcsz := h.clusterSize_pos
      have hidx : f.pos / clusterSize s % 2 ^ 32 = f.pos / clusterSize s :=
        Nat.mod_eq_of_lt ((Nat.div_le_self _ _).trans_lt (by omega))
      have hget0 : L[0]? = some f.firstCluster := by
        rw [← head?_eq_getElem?]
        exact hhead
      have hin : f.pos / clusterSize s < L.length := div_lt_of_lt (by omega)
      have hget : L[f.pos / clusterSize s]? = some L[f.pos / clusterSize s] :=
        List.getElem?_eq_getElem hin
      have hcv := hl.valid _ (List.getElem_mem hin)
      have hwalk := chainLoop_walk h hl false (f.pos / clusterSize s) 0 hget0
        (by rw [Nat.zero_add]; exact hget)
      generalize L[f.pos / clusterSize s] = c at hget hcv hwalk
      have hc0 : c ≠ 0 := by
        have := hcv.1
        omega
      generalize hch : chunkSize s f.pos (len - out.length) = chunk
      have hle : chunk ≤ len - out.length := hch ▸ chunkSize_le s f.pos (len - out.length)
      have hchpos : 0 < chunk := hch ▸ chunkSize_pos s f.pos (by omega) (by omega)
      have hfit : f.pos % clusterSize s + chunk ≤ clusterSize s :=
        hch ▸ chunkSize_fits s f.pos (len - out.length) (by omega)
      obtain ⟨hoff, hhas⟩ := h.chunk_inside hcv f.pos hfit
      have hlen : (out ++ (List.range chunk).map fun i => fileByte s L (f.pos + i)).length =
          out.length + chunk := by
        rw [length_append, length_map, length_range]
      rw [hidx, chainCluster_eq hl hhead, hwalk]
      show (if c = 0 then _ else _) = _
      rw [if_neg hc0]
      show (if (!rangeOk s (add64 _ _) chunk) = true then _ else (copyOut s (add64 _ _) chunk >>= _)) = _
      rw [hoff, rangeOk_of_has hhas, copyOut_file h hl hget hfit]
      show (if cap < out.length + chunk then _ else readLoop s slot len cap fuel
        { f with pos := (f.pos + chunk) % 2 ^ 32 } _) = _
      rw [if_neg (by omega), Nat.mod_eq_of_lt (show f.pos + chunk < 2 ^ 32 by omega),
        ih { f with pos := f.pos + chunk } _ hhead (by omega) (by omega)
          (by rw [hlen]; show f.pos + chunk + _ ≤ _; omega)
          (by rw [hlen]; show f.pos + chunk + _ < _; omega)]
      -- the chunk and the rest are the whole range
      rw [hlen]
      obtain ⟨rest, hrest⟩ := Nat.exists_eq_add_of_le hle
      have hrest' : len - (out.length + chunk) = rest := by omega
      rw [hrest', hrest, range_add, map_append, map_map, append_assoc]
      simp only [comp_def, Nat.add_assoc]
    · rw [if_neg hlt, show len - out.length = 0 by omega]
      simp

end Read

/-! ## §5. Freeing, and the other chains. -/

section Others

variable {s s' : FsState} {L M new : List ℕ} {pos n p c : ℕ} {bf : ℕ → UInt8}

/-- **`free_chain`**: the clusters of the chain are free, the rest of the table and every
byte stay. -/
theorem freeChain_spec : ∀ (l : List ℕ) (c : ℕ) (s : FsState), Layout s → Held s (c :: l) →
    ∃ s', (∀ fuel, l.length < fuel → freeChain fuel s c = .ok s') ∧
      Changes s s' (fun e => if e ∈ c :: l then 0 else next s e) (cbyte s) := by
  intro l
  induction l with
  | nil =>
    intro c s h hl
    have hcv := hl.valid c mem_cons_self
    have heoc : isEoc (next s c) = true := (isEoc_iff _).mpr hl.chain
    obtain ⟨s₁, hset, h₁⟩ := fatSet_spec h hcv.2 (show 0 < 2 ^ 28 by omega)
    refine ⟨s₁, fun fuel hfuel => ?_, h₁.data, ?_, h₁.byte, h₁.copies⟩
    · obtain ⟨fuel, rfl⟩ := Nat.exists_eq_succ_of_ne_zero (Nat.ne_of_gt hfuel)
      unfold freeChain
      rw [if_pos (h.validCluster.mpr hcv), fatGet_eq h hcv.2]
      show (fatSet s c 0 >>= _) = _
      rw [hset]
      show (if isEoc (next s c) = true then _ else _) = _
      rw [heoc]
      rfl
    · intro e he
      rw [h₁.next e he]
      by_cases hec : e = c
      · rw [hec, update_self, if_pos mem_cons_self]
      · rw [update_of_ne hec, if_neg (by simpa using hec)]
  | cons d l ih =>
    intro c s h hl
    have hcv := hl.valid c mem_cons_self
    have hnext : next s c = d := hl.chain.1
    have heoc : isEoc (next s c) = false := by
      rw [Bool.eq_false_iff, Ne, isEoc_iff, hnext]
      exact h.not_eoc (hl.valid d (by simp))
    obtain ⟨s₁, hset, h₁⟩ := fatSet_spec h hcv.2 (show 0 < 2 ^ 28 by omega)
    -- the rest of the chain is as it was
    have hnot : c ∉ d :: l := (nodup_cons.mp hl.nodup).1
    have hl₁ : Held s₁ (d :: l) := by
      refine ⟨hl.chain.tail.congr fun e he => ?_, fun e he => ?_, (nodup_cons.mp hl.nodup).2⟩
      · have hec : e ≠ c := fun hec => hnot (hec ▸ he)
        rw [h₁.next e (hl.valid e (mem_cons_of_mem c he)), update_of_ne hec]
      · exact h₁.data.valid.mpr (hl.valid e (mem_cons_of_mem c he))
    obtain ⟨s₂, hret, h₂⟩ := ih d s₁ (h₁.data.layout h) hl₁
    refine ⟨s₂, fun fuel hfuel => ?_, h₁.data.trans h₂.data, ?_, ?_,
      fun hc => h₂.copies (h₁.copies hc)⟩
    · rw [length_cons] at hfuel
      obtain ⟨fuel, rfl⟩ := Nat.exists_eq_succ_of_ne_zero (show fuel ≠ 0 by omega)
      unfold freeChain
      rw [if_pos (h.validCluster.mpr hcv), fatGet_eq h hcv.2]
      show (fatSet s c 0 >>= _) = _
      rw [hset]
      show (if isEoc (next s c) = true then _ else freeChain fuel s₁ (next s c)) = _
      rw [heoc, hnext]
      exact hret fuel (by omega)
    · intro e he
      rw [h₂.next e (h₁.data.valid.mpr he), h₁.next e he]
      by_cases hec : e = c
      · rw [hec, update_self, if_pos mem_cons_self, ite_self]
      · rw [update_of_ne hec]
        have hiff : e ∈ c :: d :: l ↔ e ∈ d :: l := by
          rw [mem_cons]
          exact or_iff_right hec
        simp only [hiff]
    · intro e he k hk
      rw [h₂.byte e (h₁.data.valid.mpr he) k (by rw [h₁.data.clusterSize]; exact hk)]
      exact h₁.byte e he k hk

/-- A chain apart from the file is apart from the clusters it grows by. -/
theorem Wrote.apart (hw : Wrote s s' L new pos n bf) (hm : Held s M) (hap : ∀ c ∈ M, c ∉ L) :
    ∀ c ∈ M, c ∉ L ++ new := by
  intro c hc hmem
  rcases mem_append.mp hmem with hmem | hmem
  · exact hap c hc hmem
  · exact hm.next_ne_zero c hc (hw.free c hmem)

end Others

end ExoCore.Fat
