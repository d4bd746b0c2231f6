/-
  ExoCore.Fat.Geometry — where an ACCEPTED IMAGE has its tables and clusters.

  `fat32_parse` checks that the sectors of the volume are in the image, and computes
  `first_data_sector` in 32 bits.  It does NOT check that the sum did not wrap, nor that
  a copy of the table has an entry for every cluster.  These two tests are all that is
  missing (`BootSector.Fits`): with them the boot sector, the copies of the table and the
  clusters are pairwise apart, and without them they are not.

  Main results:
    • `accepted_geometry` — the geometry of an accepted image, exactly;
    • `short_table_overlaps` — an accepted image in which a link is stored in a file.
-/
import ExoCore.Fat.Effects

namespace ExoCore.Fat

open ExoCore.Lib

/-! ## §1. What `fat32_parse` checks. -/

section Boot

variable {s : FsState} {size : ℕ}

theorem rd16_lt {off v : ℕ} (h : rd16 s off = .ok v) : v < 2 ^ 16 := by
  unfold rd16 at h
  split at h
  · cases h
    exact rdLE_lt s.data 2 off
  · cases h

theorem rd32_lt {off v : ℕ} (h : rd32 s off = .ok v) : v < 2 ^ 32 := by
  unfold rd32 at h
  split at h
  · cases h
    exact rdLE_lt s.data 4 off
  · cases h

variable {b : BootSector} {info : FatInfo}

/-- The first field: `bps`. -/
theorem readBootSector_bps (h : readBootSector s = .ok b) :
    13 ≤ s.size ∧ b.bps = rdLE s.data 11 2 := by
  obtain ⟨bps, hbps, h⟩ := bind_ok.mp h
  have hb : b.bps = bps := by
    iterate 10 obtain ⟨_, -, h⟩ := bind_ok.mp h
    cases h
    rfl
  unfold rd16 at hbps
  split at hbps
  · rename_i hhas
    cases hbps
    exact ⟨hhas.2, hb⟩
  · cases hbps

/-- The fields of the boot sector are 16 and 32 bits wide. -/
theorem readBootSector_lt (h : readBootSector s = .ok b) :
    b.bps < 2 ^ 16 ∧ b.total32 < 2 ^ 32 := by
  obtain ⟨bps, hbps, h⟩ := bind_ok.mp h
  obtain ⟨_, -, h⟩ := bind_ok.mp h
  obtain ⟨_, -, h⟩ := bind_ok.mp h
  obtain ⟨_, -, h⟩ := bind_ok.mp h
  obtain ⟨_, -, h⟩ := bind_ok.mp h
  obtain ⟨_, -, h⟩ := bind_ok.mp h
  obtain ⟨_, -, h⟩ := bind_ok.mp h
  obtain ⟨total, htotal, h⟩ := bind_ok.mp h
  obtain ⟨_, -, h⟩ := bind_ok.mp h
  obtain ⟨_, -, h⟩ := bind_ok.mp h
  obtain ⟨_, -, h⟩ := bind_ok.mp h
  cases h
  exact ⟨rd16_lt hbps, rd32_lt htotal⟩

section

variable (h : b.parse size = some info)
include h

/-- What `fat32_parse` stores, and what it has checked. -/
theorem BootSector.parse_some :
    info = ⟨b.bps, b.spc, b.reserved, b.fats, b.fat32, b.total32, b.rootCluster,
        (b.reserved + b.fats * b.fat32) % 2 ^ 32,
        (b.total32 - (b.reserved + b.fats * b.fat32) % 2 ^ 32) / b.spc⟩ ∧
      512 ≤ b.bps ∧ 0 < b.spc ∧ 0 < b.reserved ∧ 0 < b.fats ∧ 0 < b.fat32 ∧
      (b.reserved + b.fats * b.fat32) % 2 ^ 32 < b.total32 ∧ b.total32 * b.bps ≤ size ∧
      0 < info.totalClusters := by
  unfold BootSector.parse at h
  dsimp only at h
  split_ifs at h with hbad hfirst hsize hlabel
  cases h
  push Not at hbad hlabel
  obtain ⟨-, -, hbps, hspc, hres, hfats, -, -, -, hfat32, -⟩ := hbad
  exact ⟨rfl, hbps, Nat.pos_of_ne_zero hspc, Nat.pos_of_ne_zero hres, Nat.pos_of_ne_zero hfats,
    Nat.pos_of_ne_zero hfat32, not_le.mp hfirst, not_lt.mp hsize, Nat.pos_of_ne_zero hlabel.1⟩

/-- `(bps & (bps - 1)) == 0`. -/
theorem BootSector.parse_bps : b.bps &&& (b.bps - 1) = 0 := by
  unfold BootSector.parse at h
  split at h
  · cases h
  · rename_i hbad
    push Not at hbad
    exact hbad.2.1

theorem BootSector.parse_facts :
    info.bytesPerSector = b.bps ∧ info.totalSectors = b.total32 ∧ 512 ≤ b.bps ∧
      0 < info.sectorsPerCluster ∧ 0 < info.reservedSectors ∧ 0 < info.fatCount ∧
      info.firstDataSector + info.totalClusters * info.sectorsPerCluster ≤ b.total32 ∧
      b.total32 * b.bps ≤ size := by
  obtain ⟨rfl, hbps, hspc, hres, hfats, -, hfirst, hsize, -⟩ := BootSector.parse_some h
  have hdiv := Nat.div_mul_le_self
    (b.total32 - (b.reserved + b.fats * b.fat32) % 2 ^ 32) b.spc
  refine ⟨rfl, rfl, hbps, hspc, hres, hfats, ?_, hsize⟩
  dsimp only
  omega

end

/-- An accepted image has a boot sector that passed the tests. -/
theorem fat32Parse_some (h : fat32Parse s = .ok (some info)) :
    ∃ b, readBootSector s = .ok b ∧ b.parse s.size = some info := by
  unfold fat32Parse at h
  split at h
  · cases h
  · obtain ⟨_, -, h⟩ := bind_ok.mp h
    obtain ⟨_, -, h⟩ := bind_ok.mp h
    split at h
    · cases h
    · obtain ⟨b, hb, h⟩ := bind_ok.mp h
      exact ⟨b, hb, Except.ok.inj h⟩

/-- The mounted volume. -/
theorem fsMount_fat32 {data : Bytes} {present : Bool} (h : fsMount data present size = .ok s) (hmode : s.mode = .fat32) :
    s.present = true ∧ s.size = size ∧ (∀ k, (s.openFiles k).used = false) ∧
      ∃ b, readBootSector s = .ok b ∧ b.parse size = some s.fat := by
  unfold fsMount at h
  dsimp only at h
  cases present with
  | false =>
    cases h
    cases hmode
  | true =>
    obtain ⟨info, hparse, h⟩ := bind_ok.mp h
    cases info with
    | none =>
      cases h
      cases hmode
    | some fat =>
      cases h
      exact ⟨rfl, rfl, fun _ => rfl, fat32Parse_some hparse⟩

end Boot

/-! ## §2. The geometry. -/

/-- A write of file data: into a cluster, or all of it cleared. -/
inductive DataWrite (s : FsState) (c : ℕ) (s' : FsState) : Prop where
  | copy (o : ℕ) (l : List UInt8) (hl : o + l.length ≤ clusterSize s)
      (h : copyIn s (clusterOffset s c + o) l = .ok s')
  | clear (h : memset s (clusterOffset s c) 0 (clusterSize s) = .ok s')

/-- **A consistent geometry.** -/
structure Geometry (s : FsState) : Prop where
  /-- The copies of the table, in sectors. -/
  copies : ∀ i j, i < s.fat.fatCount → j < s.fat.fatCount → i ≠ j →
    Apart (s.fat.reservedSectors + i * s.fat.sectorsPerFat) s.fat.sectorsPerFat
      (s.fat.reservedSectors + j * s.fat.sectorsPerFat) s.fat.sectorsPerFat
  before : ∀ i, i < s.fat.fatCount →
    s.fat.reservedSectors + (i + 1) * s.fat.sectorsPerFat ≤ s.fat.firstDataSector
  entries : ∀ c i, Valid s c → i < s.fat.fatCount →
    tableStart s i ≤ fatEntryOffset s c i ∧
      fatEntryOffset s c i + 4 ≤ tableStart s i + tableSize s
  clusters : ∀ c d, Valid s c → Valid s d → c ≠ d →
    Apart (clusterOffset s c) (clusterSize s) (clusterOffset s d) (clusterSize s)
  inside : ∀ c, Valid s c → clusterOffset s c + clusterSize s ≤ s.size
  boot : ∀ c, Valid s c → Apart 0 s.fat.bytesPerSector (clusterOffset s c) (clusterSize s)
  tables : ∀ c i, Valid s c → i < s.fat.fatCount →
    Apart (tableStart s i) (tableSize s) (clusterOffset s c) (clusterSize s)
  /-- An update of the table never alters file data. -/
  fatSet : ∀ t, OnlyData s t → ∀ c v r t', Valid s c → fatSet t c v = .ok (r, t') →
    ∀ d k, Valid s d → k < clusterSize s → cbyte t' d k = cbyte t d k
  /-- A write of data never alters the table. -/
  write : ∀ t, OnlyData s t → ∀ c t', Valid s c → DataWrite t c t' →
    ∀ i x, i < s.fat.fatCount → x < tableSize s →
      t'.data (tableStart s i + x) = t.data (tableStart s i + x)

section Geometry

variable {s t t' : FsState} {c d k : ℕ}

theorem Arranged.fatSet_cbyte (h : Arranged s) (hc : Valid s c) {v : ℕ} {r : Bool}
    (hset : Fat.fatSet s c v = .ok (r, t')) (hd : Valid s d) : cbyte t' d k = cbyte s d k := by
  obtain ⟨t'', hret, hdata, -, hsame⟩ := fatSetLoop_spec c v s.fat.fatCount 0 s h hc.2 (by omega)
  have heq : t'' = t' := (Prod.mk.inj (Except.ok.inj (hret.symm.trans hset))).2
  subst heq
  unfold cbyte
  rw [hdata.clusterOffset]
  exact hsame _ fun j _ hj => h.cluster_entry hc.2 (by omega) hd k

/-- A write of data stays in the cluster. -/
theorem DataWrite.apart (h : DataWrite s c t) {a : ℕ}
    (ha : a < clusterOffset s c ∨ clusterOffset s c + clusterSize s ≤ a) : t.data a = s.data a := by
  cases h with
  | copy o l hl hcopy =>
    unfold copyIn at hcopy
    split at hcopy
    · cases hcopy
      exact putBytes_apart (by omega)
    · cases hcopy
  | clear hclear =>
    unfold memset at hclear
    split at hclear
    · cases hclear
      exact fillBytes_apart ha
    · cases hclear

/-- **An arranged volume has a consistent geometry.** -/
theorem Arranged.geometry (h : Arranged s) : Geometry s where
  copies := by
    intro i j _ _ hij
    unfold Apart
    rcases Nat.lt_or_gt_of_ne hij with hlt | hgt
    · have hle := Nat.mul_le_mul_right s.fat.sectorsPerFat (Nat.succ_le_of_lt hlt)
      rw [Nat.succ_mul] at hle
      omega
    · have hle := Nat.mul_le_mul_right s.fat.sectorsPerFat (Nat.succ_le_of_lt hgt)
      rw [Nat.succ_mul] at hle
      omega
  before := by
    intro i hi
    have hle : (i + 1) * s.fat.sectorsPerFat ≤ s.fat.fatCount * s.fat.sectorsPerFat :=
      Nat.mul_le_mul_right _ hi
    have hbefore := h.before
    omega
  entries := by
    intro c i hc _
    have hin := h.entry_inside hc.2
    rw [fatEntryOffset_eq]
    omega
  clusters := fun c d hc hd hne => h.cluster_apart hc hd hne
  inside := fun c hc => h.cluster_inside hc
  boot := by
    intro c hc
    -- the first sector is reserved
    have hfirst : 1 ≤ s.fat.firstDataSector :=
      le_trans h.reserved ((Nat.le_add_right _ _).trans h.before)
    have hle : 1 * s.fat.bytesPerSector ≤ dataStart s := Nat.mul_le_mul_right _ hfirst
    have hstart := h.dataStart_le hc
    exact .inl (by omega)
  tables := fun c i hc hi => .inl ((h.table_before hi).trans (h.dataStart_le hc))
  fatSet := by
    intro t ht c v r t' hc hset d k hd _
    exact (ht.arranged h).fatSet_cbyte (ht.valid.mpr hc) hset (ht.valid.mpr hd)
  write := by
    intro t ht c t' hc hwrite i x hi hx
    refine hwrite.apart (.inl ?_)
    have hbefore := h.table_before hi
    have hstart := h.dataStart_le hc
    rw [ht.clusterOffset]
    omega

end Geometry

/-! ## §3. Accepted images. -/

/-- **What is not checked**: the tables end within 32 bits, and have an entry for every cluster. -/
def BootSector.Fits (b : BootSector) : Prop :=
  b.reserved + b.fats * b.fat32 < 2 ^ 32 ∧
    ((b.total32 - (b.reserved + b.fats * b.fat32)) / b.spc + 2) * 4 ≤ b.fat32 * b.bps

/-- The tests of `fat32_parse` and the two missing ones arrange the volume. -/
theorem BootSector.Fits.arranged {s : FsState} {b : BootSector} {info : FatInfo} (hfits : b.Fits)
    (hpresent : s.present = true) (hb : readBootSector s = .ok b)
    (hparse : b.parse s.size = some info) : Arranged { s with fat := info } := by
  obtain ⟨hword, htable⟩ := hfits
  obtain ⟨hbps, htotal⟩ := readBootSector_lt hb
  obtain ⟨-, -, -, -, -, -, hend, hsize⟩ := BootSector.parse_facts hparse
  obtain ⟨rfl, h512, hspc, hres, hfats, hfat32, -, -, -⟩ := BootSector.parse_some hparse
  rw [Nat.mod_eq_of_lt hword] at hend
  have hsectors : b.fats * b.fat32 ≠ 0 := Nat.mul_ne_zero (by omega) (by omega)
  have hcount := Nat.div_le_self (b.total32 - (b.reserved + b.fats * b.fat32)) b.spc
  refine ⟨hpresent, ⟨h512, hbps⟩, hspc, hres, ?_, ?_, ?_, ?_, ?_⟩
  all_goals
    dsimp only
    rw [Nat.mod_eq_of_lt hword]
  · exact htable
  · exact (Nat.mul_le_mul_right _ hend).trans hsize
  · exact lt_of_le_of_lt hend htotal
  · omega

/-- **The geometry of an accepted image.** -/
theorem accepted_geometry {s : FsState} {b : BootSector} {info : FatInfo}
    (haccept : fat32Parse s = .ok (some info)) (hb : readBootSector s = .ok b) :
    Geometry { s with fat := info } ↔ b.Fits := by
  obtain ⟨b', hb', hparse⟩ := fat32Parse_some haccept
  have heq : b' = b := Except.ok.inj (hb'.symm.trans hb)
  subst heq
  constructor
  · intro h
    obtain ⟨hinfo, -, -, -, hfats, -, -, -, hcount⟩ := BootSector.parse_some hparse
    -- the last copy ends before the data, whose first sector is a 32-bit number
    have hword : b'.reserved + b'.fats * b'.fat32 < 2 ^ 32 := by
      have hlast := h.before (info.fatCount - 1) (by rw [hinfo]; exact Nat.sub_one_lt hfats.ne')
      rw [hinfo] at hlast
      dsimp only at hlast
      rw [Nat.sub_add_cancel hfats] at hlast
      exact lt_of_le_of_lt hlast (Nat.mod_lt _ (by decide))
    refine ⟨hword, ?_⟩
    -- the entry of the last cluster is in the first copy
    have hentry := (h.entries (info.totalClusters + 1) 0 ⟨by omega, Nat.lt_succ_self _⟩
      (by rw [hinfo]; exact hfats)).2
    rw [fatEntryOffset_eq] at hentry
    have hin : (info.totalClusters + 2) * 4 ≤ info.sectorsPerFat * info.bytesPerSector := by
      unfold tableSize at hentry
      dsimp only at hentry
      omega
    rw [hinfo] at hin
    dsimp only at hin
    rw [Nat.mod_eq_of_lt hword] at hin
    exact hin
  · intro hfits
    have hpresent : s.present = true := by
      unfold fat32Parse at haccept
      split at haccept
      · cases haccept
      · rename_i hrange
        exact (has_of_rangeOk (by simpa using hrange)).1
    exact (hfits.arranged hpresent hb hparse).geometry

/-- 202 sectors of 512 bytes, one per cluster: the boot sector and one copy of the table, of
`fat32` sectors. -/
def headerImage (fat32 : ℕ) : Bytes :=
  putBytes (putBytes (putBytes (putBytes (putBytes (putBytes (putBytes (putBytes (putBytes
    (fun _ => 0) 11 (leBytes 2 512)) 13 [1]) 14 (leBytes 2 1)) 16 [1]) 32 (leBytes 4 202))
    36 (leBytes 4 fat32)) 44 (leBytes 4 2)) 82 fat32Label) 510 [0x55, 0xAA]

/-- The image before `fat32_parse`. -/
def headerState (fat32 : ℕ) : FsState :=
  { data := headerImage fat32
    present := true
    size := 202 * 512
    mode := .raw
    fat := FatInfo.zero
    openFiles := fun _ => FsOpen.zero }

/-- Two sectors of table hold the entries of 199 clusters. -/
theorem accepted_geometry_two : ∃ info, fat32Parse (headerState 2) = .ok (some info) ∧
    Geometry { headerState 2 with fat := info } := by
  have haccept : fat32Parse (headerState 2) = .ok (some ⟨512, 1, 1, 1, 2, 202, 2, 3, 199⟩) := by
    decide +kernel
  have hb : readBootSector (headerState 2) =
      .ok ⟨512, 1, 1, 1, 0, 0, 0, 202, 2, 2, fat32Label⟩ := by
    decide +kernel
  exact ⟨_, haccept, (accepted_geometry haccept hb).mpr ⟨by decide, by decide⟩⟩

/-- **A table that is too short is accepted**: one sector has 128 entries for 200 clusters, and
the entry of cluster 130 is stored in the first cluster. -/
theorem short_table_overlaps : ∃ info t, fat32Parse (headerState 1) = .ok (some info) ∧
    Valid { headerState 1 with fat := info } 130 ∧ Valid { headerState 1 with fat := info } 2 ∧
    fatSet { headerState 1 with fat := info } 130 5 = .ok (true, t) ∧
    cbyte t 2 8 ≠ cbyte { headerState 1 with fat := info } 2 8 ∧
    ¬ Geometry { headerState 1 with fat := info } := by
  have haccept : fat32Parse (headerState 1) = .ok (some ⟨512, 1, 1, 1, 1, 202, 2, 2, 200⟩) := by
    decide +kernel
  have hvalid : Valid { headerState 1 with fat := ⟨512, 1, 1, 1, 1, 202, 2, 2, 200⟩ } 130 :=
    ⟨by decide, by decide⟩
  refine ⟨_, _, haccept, hvalid, ⟨by decide, by decide⟩, rfl, by decide +kernel, fun h => ?_⟩
  have hentry := (h.entries 130 0 hvalid (by decide)).2
  exact absurd hentry (by decide)

end ExoCore.Fat
