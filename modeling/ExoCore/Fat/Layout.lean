/-
  ExoCore.Fat.Layout — where the table and the clusters lie.

  Under `Layout` the copies of the table, and the clusters behind them, do not
  meet.  A state is then seen as a VOLUME: the link of every cluster (`next`) and
  the bytes of every cluster (`cbyte`).  Each function that writes is specified
  once by what it does to these two (`Changes`).
-/
import ExoCore.Fat.Bounds
import ExoCore.Lib.Chain
import Mathlib.Tactic.Ring

namespace ExoCore.Fat

open ExoCore.Lib Function

/-! ## §1. The layout. -/

/-- **The arrangement**, with any number of clusters: a boot sector, the copies of the table, the
clusters.  Every copy has an entry for each cluster, the copies end before the data, and the data
is in the image. -/
structure Arranged (s : FsState) : Prop where
  present : s.present = true
  sector : 512 ≤ s.fat.bytesPerSector ∧ s.fat.bytesPerSector < 2 ^ 16
  cluster : 0 < s.fat.sectorsPerCluster
  reserved : 0 < s.fat.reservedSectors
  table : (s.fat.totalClusters + 2) * 4 ≤ s.fat.sectorsPerFat * s.fat.bytesPerSector
  before : s.fat.reservedSectors + s.fat.fatCount * s.fat.sectorsPerFat ≤ s.fat.firstDataSector
  inside : (s.fat.firstDataSector + s.fat.totalClusters * s.fat.sectorsPerCluster) *
    s.fat.bytesPerSector ≤ s.size
  word : s.fat.firstDataSector + s.fat.totalClusters * s.fat.sectorsPerCluster < 2 ^ 32
  last : s.fat.totalClusters + 2 < 2 ^ 32

/-- **A consistent layout**: there is a copy of the table, and no cluster number is an
end-of-chain mark. -/
structure Layout (s : FsState) : Prop extends Arranged s where
  copies : 0 < s.fat.fatCount
  numbers : s.fat.totalClusters + 2 ≤ fat32Eoc

/-- A cluster of the data area. -/
def Valid (s : FsState) (c : ℕ) : Prop := 2 ≤ c ∧ c < s.fat.totalClusters + 2

/-- The first byte of copy `i` of the table. -/
def tableStart (s : FsState) (i : ℕ) : ℕ :=
  (s.fat.reservedSectors + i * s.fat.sectorsPerFat) * s.fat.bytesPerSector

/-- The size of a copy. -/
def tableSize (s : FsState) : ℕ := s.fat.sectorsPerFat * s.fat.bytesPerSector

/-- The first byte of the data area. -/
def dataStart (s : FsState) : ℕ := s.fat.firstDataSector * s.fat.bytesPerSector

section Layout

variable {s s' : FsState} {c d i j : ℕ}

section

variable (hd : OnlyData s s')
include hd

theorem OnlyData.layout (h : Layout s) : Layout s' := by
  obtain ⟨d, rfl⟩ := hd
  exact { h with }

theorem OnlyData.fat : s'.fat = s.fat := by
  obtain ⟨d, rfl⟩ := hd
  rfl

theorem OnlyData.valid : Valid s' c ↔ Valid s c := by
  unfold Valid
  rw [hd.fat]

theorem OnlyData.clusterSize : clusterSize s' = clusterSize s := by
  unfold Fat.clusterSize
  rw [hd.fat]

theorem OnlyData.fatEntryOffset : fatEntryOffset s' c i = fatEntryOffset s c i := by
  unfold Fat.fatEntryOffset
  rw [hd.fat]

theorem OnlyData.clusterOffset : clusterOffset s' c = clusterOffset s c := by
  obtain ⟨d, rfl⟩ := hd
  rfl

theorem OnlyData.arranged (h : Arranged s) : Arranged s' := by
  obtain ⟨d, rfl⟩ := hd
  exact { h with }

end

section

variable (h : Arranged s)
include h

theorem Arranged.clusterEnd : clusterEnd s = s.fat.totalClusters + 2 :=
  Nat.mod_eq_of_lt h.last

theorem Arranged.validCluster : validCluster s c = true ↔ Valid s c := by
  unfold Fat.validCluster Valid
  rw [h.clusterEnd, Bool.and_eq_true, decide_eq_true_eq, decide_eq_true_eq]

theorem Arranged.clusterSize_pos : 512 ≤ clusterSize s := by
  have h1 := h.sector.1
  have h2 := h.cluster
  unfold clusterSize
  calc 512 = 512 * 1 := rfl
    _ ≤ s.fat.bytesPerSector * s.fat.sectorsPerCluster := Nat.mul_le_mul h1 h2

/-- The clusters lie one behind the other. -/
theorem Arranged.clusterOffset (hc : Valid s c) :
    clusterOffset s c = dataStart s + (c - 2) * clusterSize s := by
  have hlt : s.fat.firstDataSector + (c - 2) * s.fat.sectorsPerCluster < 2 ^ 32 := by
    have hle : (c - 2) * s.fat.sectorsPerCluster ≤ s.fat.totalClusters * s.fat.sectorsPerCluster :=
      Nat.mul_le_mul_right _ (by have := hc.2; omega)
    have := h.word
    omega
  unfold Fat.clusterOffset dataStart clusterSize
  rw [if_pos (h.validCluster.mpr hc), Nat.mod_eq_of_lt hlt]
  ring

theorem Arranged.dataEnd : dataStart s + s.fat.totalClusters * clusterSize s ≤ s.size := by
  have := h.inside
  unfold dataStart clusterSize
  calc s.fat.firstDataSector * s.fat.bytesPerSector +
        s.fat.totalClusters * (s.fat.bytesPerSector * s.fat.sectorsPerCluster)
      = (s.fat.firstDataSector + s.fat.totalClusters * s.fat.sectorsPerCluster) *
          s.fat.bytesPerSector := by ring
    _ ≤ s.size := this

section

variable (hc : Valid s c)
include hc

/-- A cluster ends where the next one begins, or before. -/
theorem Arranged.cluster_succ {n : ℕ} (hn : c - 2 < n) :
    Fat.clusterOffset s c + clusterSize s ≤ dataStart s + n * clusterSize s := by
  rw [h.clusterOffset hc, Nat.add_assoc, ← Nat.succ_mul]
  exact Nat.add_le_add_left (Nat.mul_le_mul_right _ hn) _

theorem Arranged.cluster_inside : Fat.clusterOffset s c + clusterSize s ≤ s.size := by
  obtain ⟨h1, h2⟩ := hc
  exact (h.cluster_succ ⟨h1, h2⟩ (show c - 2 < s.fat.totalClusters by omega)).trans h.dataEnd

/-- No offset in the data area needs more than 48 bits. -/
theorem Arranged.cluster_word : Fat.clusterOffset s c + clusterSize s < 2 ^ 64 := by
  obtain ⟨h1, h2⟩ := hc
  have hend := h.cluster_succ ⟨h1, h2⟩ (show c - 2 < s.fat.totalClusters by omega)
  have hword : (s.fat.firstDataSector + s.fat.totalClusters * s.fat.sectorsPerCluster) *
      s.fat.bytesPerSector ≤ 2 ^ 32 * 2 ^ 16 :=
    Nat.mul_le_mul (le_of_lt h.word) (le_of_lt h.sector.2)
  have heq : dataStart s + s.fat.totalClusters * clusterSize s =
      (s.fat.firstDataSector + s.fat.totalClusters * s.fat.sectorsPerCluster) *
        s.fat.bytesPerSector := by
    unfold dataStart clusterSize
    ring
  omega

theorem Arranged.dataStart_le : dataStart s ≤ Fat.clusterOffset s c := by
  rw [h.clusterOffset hc]
  exact Nat.le_add_right _ _

/-- **Different clusters do not meet.** -/
theorem Arranged.cluster_apart (hd : Valid s d) (hne : c ≠ d) :
    Apart (Fat.clusterOffset s c) (clusterSize s) (Fat.clusterOffset s d) (clusterSize s) := by
  have h1 := hc.1
  have h2 := hd.1
  rcases Nat.lt_or_gt_of_ne hne with hlt | hgt
  · refine .inl ((h.cluster_succ hc (show c - 2 < d - 2 by omega)).trans ?_)
    rw [h.clusterOffset hd]
  · refine .inr ((h.cluster_succ hd (show d - 2 < c - 2 by omega)).trans ?_)
    rw [h.clusterOffset hc]

end

end

theorem fatEntryOffset_eq (s : FsState) (c i : ℕ) :
    fatEntryOffset s c i = tableStart s i + c * 4 := rfl

/-- **The copies of the table** lie one behind the other. -/
theorem tableStart_succ (s : FsState) (hij : i < j) :
    tableStart s i + tableSize s ≤ tableStart s j := by
  unfold tableStart tableSize
  calc (s.fat.reservedSectors + i * s.fat.sectorsPerFat) * s.fat.bytesPerSector +
        s.fat.sectorsPerFat * s.fat.bytesPerSector
      = (s.fat.reservedSectors + (i + 1) * s.fat.sectorsPerFat) * s.fat.bytesPerSector := by ring
    _ ≤ (s.fat.reservedSectors + j * s.fat.sectorsPerFat) * s.fat.bytesPerSector :=
        Nat.mul_le_mul_right _ (Nat.add_le_add_left (Nat.mul_le_mul_right _ hij) _)

theorem Arranged.table_before (h : Arranged s) (hi : i < s.fat.fatCount) :
    tableStart s i + tableSize s ≤ dataStart s := by
  refine (tableStart_succ s hi).trans ?_
  unfold tableStart dataStart
  exact Nat.mul_le_mul_right _ h.before

theorem Arranged.entry_inside (h : Arranged s) (hc : c < s.fat.totalClusters + 2) :
    c * 4 + 4 ≤ tableSize s := by
  have := h.table
  unfold tableSize
  omega

theorem Arranged.dataStart_le_size (h : Arranged s) : dataStart s ≤ s.size :=
  (Nat.le_add_right _ _).trans h.dataEnd

theorem Arranged.entry_has (h : Arranged s) (hc : c < s.fat.totalClusters + 2)
    (hi : i < s.fat.fatCount) : Has s (fatEntryOffset s c i) 4 := by
  have h1 := h.table_before hi
  have h2 := h.entry_inside hc
  have h3 := h.dataStart_le_size
  refine ⟨h.present, ?_⟩
  rw [fatEntryOffset_eq]
  omega

theorem rangeOk_of_has {off n : ℕ} (h : Has s off n) : rangeOk s off n = true := by
  obtain ⟨h1, h2⟩ := h
  simp only [rangeOk, h1, Bool.true_and, Bool.and_eq_true, decide_eq_true_eq]
  omega

/-- The entries of different copies do not meet. -/
theorem Arranged.entry_apart (h : Arranged s) (hc : c < s.fat.totalClusters + 2)
    (hd : d < s.fat.totalClusters + 2) (hne : i ≠ j) :
    Apart (fatEntryOffset s c i) 4 (fatEntryOffset s d j) 4 := by
  have h1 := h.entry_inside hc
  have h2 := h.entry_inside hd
  rw [fatEntryOffset_eq, fatEntryOffset_eq]
  unfold Apart
  rcases Nat.lt_or_gt_of_ne hne with hlt | hgt
  · have := tableStart_succ s hlt
    omega
  · have := tableStart_succ s hgt
    omega

/-- No byte of a cluster belongs to an entry. -/
theorem Arranged.cluster_entry (h : Arranged s) (hc : c < s.fat.totalClusters + 2)
    (hi : i < s.fat.fatCount) (hd : Valid s d) (k : ℕ) :
    Fat.clusterOffset s d + k < fatEntryOffset s c i ∨
      fatEntryOffset s c i + 4 ≤ Fat.clusterOffset s d + k := by
  have h1 := h.table_before hi
  have h2 := h.entry_inside hc
  have h3 := h.dataStart_le hd
  rw [fatEntryOffset_eq]
  omega

end Layout

/-! ## §2. The volume. -/

/-- The link of a cluster. -/
def next (s : FsState) (c : ℕ) : ℕ := rdLE s.data (fatEntryOffset s c 0) 4 &&& 0x0FFFFFFF

/-- What `fat_get` reads: an entry outside the image counts as an end-of-chain mark. -/
def link (s : FsState) (c : ℕ) : ℕ :=
  if rangeOk s (fatEntryOffset s c 0) 4 then next s c else fat32EocMark

/-- Byte `k` of a cluster. -/
def cbyte (s : FsState) (c k : ℕ) : UInt8 := s.data (clusterOffset s c + k)

/-- All copies of the table hold the same bytes. -/
def Copies (s : FsState) : Prop :=
  ∀ i, i < s.fat.fatCount → ∀ x, x < tableSize s →
    s.data (tableStart s i + x) = s.data (tableStart s 0 + x)

/-- **What a function did to the volume**: the links are now `nx`, the bytes of the
clusters `bytes`. -/
structure Changes (s s' : FsState) (nx : ℕ → ℕ) (bytes : ℕ → ℕ → UInt8) : Prop where
  data : OnlyData s s'
  next : ∀ c, Valid s c → next s' c = nx c
  byte : ∀ c, Valid s c → ∀ k, k < clusterSize s → cbyte s' c k = bytes c k
  copies : Copies s → Copies s'

section Volume

variable {s s' : FsState} {c v : ℕ}

theorem mask_eq (hv : v < 2 ^ 28) : v &&& 0x0FFFFFFF = v := by
  have h := Nat.and_two_pow_sub_one_eq_mod v 28
  rw [show (2 ^ 28 - 1 : ℕ) = 0x0FFFFFFF by norm_num] at h
  rw [h, Nat.mod_eq_of_lt hv]

theorem Changes.refl (s : FsState) : Changes s s (Fat.next s) (cbyte s) :=
  ⟨OnlyData.refl s, fun _ _ => rfl, fun _ _ _ _ => rfl, fun h => h⟩

/-- **`fat_get`**, on any image. -/
theorem fatGet_link (s : FsState) (c : ℕ) : fatGet s c = .ok (link s c) := by
  unfold fatGet link
  by_cases hok : rangeOk s (fatEntryOffset s c 0) 4 = true
  · rw [hok, rd32, if_pos (has_of_rangeOk hok)]
    rfl
  · rw [Bool.eq_false_iff.mpr hok]
    rfl

theorem link_eq (h : Has s (fatEntryOffset s c 0) 4) : link s c = next s c :=
  if_pos (rangeOk_of_has h)

/-- **`fat_get`** of a cluster that has an entry. -/
theorem fatGet_eq (h : Layout s) (hc : c < s.fat.totalClusters + 2) :
    fatGet s c = .ok (next s c) := by
  rw [fatGet_link, link_eq (h.entry_has hc h.copies)]

/-- Every copy from `i` on gets the value; nothing else changes. -/
theorem fatSetLoop_spec (c v : ℕ) : ∀ (n i : ℕ) (s : FsState), Arranged s →
    c < s.fat.totalClusters + 2 → i + n ≤ s.fat.fatCount →
    ∃ s', fatSetLoop s c v i n = .ok (true, s') ∧ OnlyData s s' ∧
      (∀ j, i ≤ j → j < i + n → ∀ x, x < 4 →
        s'.data (fatEntryOffset s c j + x) = UInt8.ofNat ((v &&& 0x0FFFFFFF) / 256 ^ x)) ∧
      (∀ a, (∀ j, i ≤ j → j < i + n → a < fatEntryOffset s c j ∨ fatEntryOffset s c j + 4 ≤ a) →
        s'.data a = s.data a) := by
  intro n
  induction n with
  | zero =>
    intro i s _ _ _
    exact ⟨s, rfl, OnlyData.refl s, fun j h1 h2 => by omega, fun a _ => rfl⟩
  | succ n ih =>
    intro i s h hc hi
    have hhas := h.entry_has (i := i) hc (by omega)
    have hd : OnlyData s
        { s with data := wrLE s.data (fatEntryOffset s c i) 4 (v &&& 0x0FFFFFFF) } := ⟨_, rfl⟩
    obtain ⟨s', hret, hd', hset, hsame⟩ := ih (i + 1) _ (hd.arranged h) hc (by
      show i + 1 + n ≤ s.fat.fatCount
      omega)
    refine ⟨s', ?_, hd.trans hd', ?_, ?_⟩
    · unfold fatSetLoop
      rw [rangeOk_of_has hhas, wr32, if_pos hhas]
      exact hret
    · intro j h1 h2 x hx
      by_cases hj : j = i
      · -- the copy just written; the later ones are elsewhere
        subst hj
        rw [hsame]
        · show wrLE s.data _ 4 _ _ = _
          rw [wrLE, if_pos ⟨by omega, by omega⟩, Nat.add_sub_cancel_left]
        · intro k hk1 hk2
          have := h.entry_apart (i := j) (j := k) hc hc (by omega)
          unfold Apart at this
          show _ < fatEntryOffset s c k ∨ fatEntryOffset s c k + 4 ≤ _
          omega
      · exact hset j (by omega) (by omega) x hx
    · intro a ha
      rw [hsame a fun j h1 h2 => ha j (by omega) (by omega)]
      exact wrLE_apart (ha i (by omega) (by omega))

section

variable (h : Layout s)
include h

/-- **`fat_set`.** -/
theorem fatSet_spec (hc : c < s.fat.totalClusters + 2) (hv : v < 2 ^ 28) :
    ∃ s', fatSet s c v = .ok (true, s') ∧
      Changes s s' (update (next s) c v) (cbyte s) := by
  obtain ⟨s', hret, hd, hset, hsame⟩ := fatSetLoop_spec c v s.fat.fatCount 0 s h.toArranged hc (by omega)
  rw [mask_eq hv] at hset
  have htable := h.entry_inside hc
  refine ⟨s', hret, hd, ?_, ?_, ?_⟩
  · intro d hdv
    by_cases hdc : d = c
    · -- the entry itself is read back from copy 0
      subst hdc
      rw [update_self]
      unfold next
      rw [hd.fatEntryOffset, rdLE_of_digits 4 _ v, Nat.mod_eq_of_lt (by omega), mask_eq hv]
      intro x hx
      exact hset 0 (le_refl 0) (by have := h.copies; omega) x hx
    · rw [update_of_ne hdc]
      unfold next
      rw [hd.fatEntryOffset, rdLE_congr]
      intro a ha1 ha2
      refine hsame a fun j _ hj => ?_
      by_cases hj0 : j = 0
      · rw [hj0, fatEntryOffset_eq]
        rw [fatEntryOffset_eq] at ha1 ha2
        omega
      · have := h.entry_apart hc hdv.2 (Ne.symm (Ne.symm hj0))
        unfold Apart at this
        omega
  · intro d hdv k hk
    unfold cbyte
    rw [hd.clusterOffset]
    exact hsame _ fun j _ hj => h.cluster_entry hc (by omega) hdv k
  · -- the same four bytes in every copy
    have hbyte : ∀ i, i < s.fat.fatCount → ∀ x, x < tableSize s →
        s'.data (tableStart s i + x) =
          if c * 4 ≤ x ∧ x < c * 4 + 4 then UInt8.ofNat (v / 256 ^ (x - c * 4))
          else s.data (tableStart s i + x) := by
      intro i hi x hx
      by_cases hin : c * 4 ≤ x ∧ x < c * 4 + 4
      · rw [if_pos hin, ← hset i (by omega) (by omega) (x - c * 4) (by omega), fatEntryOffset_eq]
        congr 1
        omega
      · rw [if_neg hin]
        refine hsame _ fun j _ hj => ?_
        rw [fatEntryOffset_eq]
        rcases Nat.lt_trichotomy i j with hij | hij | hij
        · have := tableStart_succ s hij
          omega
        · subst hij
          omega
        · have := tableStart_succ s hij
          omega
    intro hcopies i hi x hx
    have hstart : ∀ i, tableStart s' i = tableStart s i := by
      intro i
      unfold tableStart
      rw [hd.fat]
    have hsize : tableSize s' = tableSize s := by
      unfold tableSize
      rw [hd.fat]
    rw [hd.fat] at hi
    rw [hsize] at hx
    rw [hstart, hstart, hbyte i hi x hx, hbyte 0 h.copies x hx, hcopies i hi x hx]

/-- A write into the data area leaves the table alone. -/
theorem changes_of_data {d : Bytes} (hd : ∀ a, a < dataStart s → d a = s.data a) :
    Changes s { s with data := d } (next s) (cbyte { s with data := d }) := by
  refine ⟨⟨d, rfl⟩, ?_, fun _ _ _ _ => rfl, ?_⟩
  · intro c hc
    have h1 := h.table_before h.copies
    have h2 := h.entry_inside hc.2
    unfold next
    rw [show fatEntryOffset { s with data := d } c 0 = fatEntryOffset s c 0 from rfl, rdLE_congr]
    intro a ha1 ha2
    rw [fatEntryOffset_eq] at ha2
    exact hd a (by omega)
  · intro hcopies i hi x hx
    have h1 := h.table_before hi
    have h0 := h.table_before h.copies
    change x < tableSize s at hx
    show d (tableStart s i + x) = d (tableStart s 0 + x)
    rw [hd _ (by omega), hd _ (by omega)]
    exact hcopies i hi x hx

/-- The bytes of a cluster other than the one written. -/
theorem cbyte_of_ne {d : Bytes} {e : ℕ} (hc : Valid s c) (he : Valid s e) (hne : e ≠ c)
    (hd : ∀ a, a < clusterOffset s c ∨ clusterOffset s c + clusterSize s ≤ a → d a = s.data a)
    {k : ℕ} (hk : k < clusterSize s) : cbyte { s with data := d } e k = cbyte s e k := by
  have happ := h.cluster_apart hc he (Ne.symm hne)
  unfold Apart at happ
  show d (clusterOffset s e + k) = s.data (clusterOffset s e + k)
  exact hd _ (by omega)

/-- A write into one cluster. -/
theorem changes_of_cluster (hc : Valid s c) {d : Bytes} {bytes : ℕ → UInt8}
    (hd : ∀ a, a < clusterOffset s c ∨ clusterOffset s c + clusterSize s ≤ a → d a = s.data a)
    (hbytes : ∀ k, k < clusterSize s → d (clusterOffset s c + k) = bytes k) :
    Changes s { s with data := d } (next s) (update (cbyte s) c bytes) := by
  have hstart := h.dataStart_le hc
  have hch := changes_of_data h (d := d) fun a ha => hd a (.inl (by omega))
  refine ⟨hch.data, hch.next, ?_, hch.copies⟩
  intro e he k hk
  by_cases hec : e = c
  · subst hec
    rw [update_self]
    exact hbytes k hk
  · rw [update_of_ne hec]
    exact cbyte_of_ne h hc he hec hd hk

/-- **Clearing a cluster.** -/
theorem memset_spec (hc : Valid s c) :
    ∃ s', memset s (clusterOffset s c) 0 (clusterSize s) = .ok s' ∧
      Changes s s' (next s) (update (cbyte s) c fun _ => 0) := by
  have hhas : Has s (clusterOffset s c) (clusterSize s) := ⟨h.present, h.cluster_inside hc⟩
  refine ⟨_, if_pos hhas, changes_of_cluster h hc (fun a ha => fillBytes_apart ha) fun k hk => ?_⟩
  exact if_pos ⟨by omega, by omega⟩

/-- **Copying into a cluster.** -/
theorem copyIn_spec (hc : Valid s c) {o : ℕ} {l : List UInt8} (hl : o + l.length ≤ clusterSize s) :
    ∃ s', copyIn s (clusterOffset s c + o) l = .ok s' ∧
      Changes s s' (next s) (update (cbyte s) c fun k =>
        if o ≤ k ∧ k < o + l.length then l.getD (k - o) 0 else cbyte s c k) := by
  have hin := h.cluster_inside hc
  have hhas : Has s (clusterOffset s c + o) l.length := ⟨h.present, by omega⟩
  refine ⟨_, if_pos hhas, changes_of_cluster h hc (fun a ha => putBytes_apart (by omega))
    fun k hk => ?_⟩
  unfold putBytes cbyte
  by_cases hk' : o ≤ k ∧ k < o + l.length
  · rw [if_pos hk', if_pos ⟨by omega, by omega⟩]
    congr 1
    omega
  · rw [if_neg hk', if_neg (by omega)]

end

end Volume

/-! ## §3. Free clusters. -/

/-- No cluster is free. -/
def Full (s : FsState) : Prop := ∀ c, Valid s c → next s c ≠ 0

section Alloc

variable {s : FsState}

/-- Taking the free cluster `c`. -/
theorem takeCluster_spec {c : ℕ} (h : Layout s) (hc : Valid s c) :
    ∃ s', takeCluster s c = .ok (c, s') ∧
      Changes s s' (update (next s) c fat32EocMark)
        (update (cbyte s) c fun _ => 0) := by
  obtain ⟨s₁, hset, h₁⟩ := fatSet_spec h hc.2 (show fat32EocMark < 2 ^ 28 by decide)
  have hl₁ := h₁.data.layout h
  have hc₁ : Valid s₁ c := h₁.data.valid.mpr hc
  obtain ⟨s₂, hmem, h₂⟩ := memset_spec hl₁ hc₁
  have hhas : Has s₁ (clusterOffset s₁ c) (clusterSize s₁) := ⟨hl₁.present, hl₁.cluster_inside hc₁⟩
  refine ⟨s₂, ?_, h₁.data.trans h₂.data, ?_, ?_, fun hcop => h₂.copies (h₁.copies hcop)⟩
  · unfold takeCluster
    rw [hset]
    show (if (!rangeOk s₁ _ _) = true then _ else _) = _
    rw [rangeOk_of_has hhas]
    show (memset s₁ _ 0 _ >>= _) = _
    rw [hmem]
    rfl
  · intro e he
    rw [h₂.next e (h₁.data.valid.mpr he), h₁.next e he]
  · intro e he k hk
    have hk₁ : k < clusterSize s₁ := by
      rw [h₁.data.clusterSize]
      exact hk
    rw [h₂.byte e (h₁.data.valid.mpr he) k hk₁]
    by_cases hec : e = c
    · rw [hec, update_self, update_self]
    · rw [update_of_ne hec, update_of_ne hec, h₁.byte e he k hk]

/-- The search from `c` on. -/
theorem allocLoop_spec (h : Layout s) : ∀ (n c : ℕ), 2 ≤ c → c + n = s.fat.totalClusters + 2 →
    (allocLoop s c n = .ok (0, s) ∧ ∀ d, c ≤ d → Valid s d → next s d ≠ 0) ∨
    ∃ d s', Valid s d ∧ next s d = 0 ∧ allocLoop s c n = .ok (d, s') ∧
      Changes s s' (update (next s) d fat32EocMark)
        (update (cbyte s) d fun _ => 0) := by
  intro n
  induction n with
  | zero =>
    intro c _ hn
    refine .inl ⟨rfl, fun d hd hv => ?_⟩
    have := hv.2
    omega
  | succ n ih =>
    intro c hc hn
    have hv : Valid s c := ⟨hc, by omega⟩
    unfold allocLoop
    rw [fatGet_eq h hv.2]
    by_cases h0 : next s c = 0
    · obtain ⟨s', hret, hch⟩ := takeCluster_spec h hv
      refine .inr ⟨c, s', hv, h0, ?_, hch⟩
      show (if next s c = 0 then takeCluster s c else _) = _
      rw [if_pos h0, hret]
    · have hstep : (Except.ok (next s c) >>= fun v =>
          if v = 0 then takeCluster s c else allocLoop s (c + 1) n) = allocLoop s (c + 1) n := by
        show (if next s c = 0 then takeCluster s c else _) = _
        rw [if_neg h0]
      rw [hstep]
      obtain ⟨hret, hfull⟩ | hfound := ih (c + 1) (by omega) (by omega)
      · refine .inl ⟨hret, fun d hd hvd => ?_⟩
        by_cases hdc : d = c
        · rw [hdc]
          exact h0
        · exact hfull d (by omega) hvd
      · exact .inr hfound

/-- **`alloc_cluster`**: no cluster is free and nothing changes, or a free cluster is
marked and cleared. -/
theorem allocCluster_spec (h : Layout s) :
    (allocCluster s = .ok (0, s) ∧ Full s) ∨
    ∃ d s', Valid s d ∧ next s d = 0 ∧ allocCluster s = .ok (d, s') ∧
      Changes s s' (update (next s) d fat32EocMark)
        (update (cbyte s) d fun _ => 0) := by
  unfold allocCluster
  rw [h.clusterEnd, Nat.add_sub_cancel]
  obtain ⟨hret, hfull⟩ | hfound := allocLoop_spec h s.fat.totalClusters 2 (le_refl 2) (by omega)
  · exact .inl ⟨hret, fun c hc => hfull c hc.1 hc⟩
  · exact .inr hfound

end Alloc

end ExoCore.Fat
