/-
  ExoCore.Fat.Image — the mounted image and the file allocation table of
  `kernel/fs.c`.

  `fs_data` is a store of `size` bytes that the driver reads and writes directly.
  EVERY access of the model is checked: outside the image it is the fault
  `image`, outside the first `len` bytes of the caller's buffer it is the fault
  `buffer`.  The tests the code makes itself (`range_ok`) are part of the model,
  the checks are not: a proof that they never fire is a proof about the code.

  The fields of the boot sector are 8, 16 and 32 bit wide, sectors and clusters
  are computed in 32 bits and byte offsets in 64; a sum that can wrap says so.
  A loop that need not end takes fuel and is the fault `hang` without it.
-/
import ExoCore.Lib.Bytes

namespace ExoCore.Fat

open ExoCore.Lib

/-! ## §1. The state. -/

/-- `fat32_info_t`. -/
structure FatInfo where
  bytesPerSector : ℕ
  sectorsPerCluster : ℕ
  reservedSectors : ℕ
  fatCount : ℕ
  sectorsPerFat : ℕ
  totalSectors : ℕ
  rootCluster : ℕ
  firstDataSector : ℕ
  totalClusters : ℕ
  deriving Repr, DecidableEq

/-- After `memset(&fat, 0, sizeof(fat))`. -/
def FatInfo.zero : FatInfo := ⟨0, 0, 0, 0, 0, 0, 0, 0, 0⟩

/-- `fs_open_t`. -/
structure FsOpen where
  used : Bool
  dirEntryOffset : ℕ
  firstCluster : ℕ
  size : ℕ
  pos : ℕ
  flags : ℕ
  deriving Repr, DecidableEq

/-- A slot after `memset(&open_files[fd], 0, sizeof(open_files[fd]))`. -/
def FsOpen.zero : FsOpen := ⟨false, 0, 0, 0, 0, 0⟩

/-- An index into `open_files` (`FS_MAX_OPEN` is 16). -/
abbrev Slot := Fin 16

/-- `fs_mode`. -/
inductive FsMode where
  | none
  | raw
  | fat32
  deriving Repr, DecidableEq

/-- The statics of `fs.c`. -/
structure FsState where
  data : Bytes
  /-- `fs_data` is not `NULL`. -/
  present : Bool
  size : ℕ
  mode : FsMode
  fat : FatInfo
  openFiles : Slot → FsOpen

/-- `open_files[fd] = o`. -/
def FsState.setOpen (s : FsState) (fd : Slot) (o : FsOpen) : FsState :=
  { s with openFiles := Function.update s.openFiles fd o }

/-! ## §2. Checked accesses. -/

/-- What the driver must not do. -/
inductive Fault where
  /-- An access outside the image. -/
  | image
  /-- A copy outside the first `len` bytes of the caller's buffer. -/
  | buffer
  /-- A loop that does not end. -/
  | hang
  deriving Repr, DecidableEq

/-- The `n` bytes at `off` are in the image. -/
def Has (s : FsState) (off n : ℕ) : Prop := s.present = true ∧ off + n ≤ s.size

instance (s : FsState) (off n : ℕ) : Decidable (Has s off n) :=
  inferInstanceAs (Decidable (_ ∧ _))

/-- `fs_data[off]`. -/
def rdByte (s : FsState) (off : ℕ) : Except Fault UInt8 :=
  if Has s off 1 then .ok (s.data off) else .error .image

/-- `rd16(fs_data + off)`. -/
def rd16 (s : FsState) (off : ℕ) : Except Fault ℕ :=
  if Has s off 2 then .ok (rdLE s.data off 2) else .error .image

/-- `rd32(fs_data + off)`. -/
def rd32 (s : FsState) (off : ℕ) : Except Fault ℕ :=
  if Has s off 4 then .ok (rdLE s.data off 4) else .error .image

/-- `wr16(fs_data + off, v)`. -/
def wr16 (s : FsState) (off v : ℕ) : Except Fault FsState :=
  if Has s off 2 then .ok { s with data := wrLE s.data off 2 v } else .error .image

/-- `wr32(fs_data + off, v)`. -/
def wr32 (s : FsState) (off v : ℕ) : Except Fault FsState :=
  if Has s off 4 then .ok { s with data := wrLE s.data off 4 v } else .error .image

/-- `memset(fs_data + off, b, n)`. -/
def memset (s : FsState) (off : ℕ) (b : UInt8) (n : ℕ) : Except Fault FsState :=
  if Has s off n then .ok { s with data := fillBytes s.data off n b } else .error .image

/-- `memcpy(fs_data + off, l, …)`. -/
def copyIn (s : FsState) (off : ℕ) (l : List UInt8) : Except Fault FsState :=
  if Has s off l.length then .ok { s with data := putBytes s.data off l } else .error .image

/-- `memcpy(…, fs_data + off, n)`. -/
def copyOut (s : FsState) (off n : ℕ) : Except Fault (List UInt8) :=
  if Has s off n then .ok (getBytes s.data off n) else .error .image

/-! ## §3. The boot sector. -/

/-- `range_ok`. -/
def rangeOk (s : FsState) (off len : ℕ) : Bool :=
  s.present && decide (off ≤ s.size) && decide (len ≤ s.size - off)

/-- The fields `fat32_parse` reads from the boot sector. -/
structure BootSector where
  bps : ℕ
  spc : ℕ
  reserved : ℕ
  fats : ℕ
  rootEntries : ℕ
  total16 : ℕ
  fat16 : ℕ
  total32 : ℕ
  fat32 : ℕ
  rootCluster : ℕ
  /-- `b[82] .. b[86]`. -/
  label : List UInt8
  deriving Repr, DecidableEq

def readBootSector (s : FsState) : Except Fault BootSector := do
  let bps ← rd16 s 11
  let spc ← rdByte s 13
  let reserved ← rd16 s 14
  let fats ← rdByte s 16
  let rootEntries ← rd16 s 17
  let total16 ← rd16 s 19
  let fat16 ← rd16 s 22
  let total32 ← rd32 s 32
  let fat32 ← rd32 s 36
  let rootCluster ← rd32 s 44
  let label ← copyOut s 82 5
  .ok ⟨bps, spc.toNat, reserved, fats.toNat, rootEntries, total16, fat16, total32, fat32,
    rootCluster, label⟩

/-- `FAT32`. -/
def fat32Label : List UInt8 := [0x46, 0x41, 0x54, 0x33, 0x32]

/-- The tests of `fat32_parse` on the fields, and what it stores. -/
def BootSector.parse (b : BootSector) (size : ℕ) : Option FatInfo :=
  if b.bps = 0 ∨ b.bps &&& (b.bps - 1) ≠ 0 ∨ b.bps < 512 ∨ b.spc = 0 ∨ b.reserved = 0 ∨
      b.fats = 0 ∨ b.rootEntries ≠ 0 ∨ b.total16 ≠ 0 ∨ b.fat16 ≠ 0 ∨ b.fat32 = 0 ∨
      b.rootCluster < 2 then none
  else
    let firstData := (b.reserved + b.fats * b.fat32) % 2 ^ 32
    if b.total32 ≤ firstData then none
    else if size < b.total32 * b.bps then none
    else
      let clusters := (b.total32 - firstData) / b.spc
      if clusters = 0 ∨ b.label ≠ fat32Label then none
      else some
        { bytesPerSector := b.bps
          sectorsPerCluster := b.spc
          reservedSectors := b.reserved
          fatCount := b.fats
          sectorsPerFat := b.fat32
          totalSectors := b.total32
          rootCluster := b.rootCluster
          firstDataSector := firstData
          totalClusters := clusters }

/-- `fat32_parse`: `none` for `-1`. -/
def fat32Parse (s : FsState) : Except Fault (Option FatInfo) :=
  if !rangeOk s 0 512 then .ok none
  else do
    let b510 ← rdByte s 510
    let b511 ← rdByte s 511
    if b510 ≠ 0x55 ∨ b511 ≠ 0xAA then .ok none
    else do
      let b ← readBootSector s
      .ok (b.parse s.size)

/-! ## §4. Offsets. -/

/-- `fat.total_clusters + 2`, in 32 bits. -/
def clusterEnd (s : FsState) : ℕ := (s.fat.totalClusters + 2) % 2 ^ 32

/-- `c >= 2 && c < fat.total_clusters + 2`. -/
def validCluster (s : FsState) (c : ℕ) : Bool := decide (2 ≤ c) && decide (c < clusterEnd s)

/-- `cluster_offset`: `fs_size` for a cluster that does not exist. -/
def clusterOffset (s : FsState) (c : ℕ) : ℕ :=
  if validCluster s c then
    (s.fat.firstDataSector + (c - 2) * s.fat.sectorsPerCluster) % 2 ^ 32 * s.fat.bytesPerSector
  else s.size

/-- `cluster_size`. -/
def clusterSize (s : FsState) : ℕ := s.fat.bytesPerSector * s.fat.sectorsPerCluster

/-- `fat_entry_offset`. -/
def fatEntryOffset (s : FsState) (c i : ℕ) : ℕ :=
  (s.fat.reservedSectors + i * s.fat.sectorsPerFat) * s.fat.bytesPerSector + c * 4

/-! ## §5. The table. -/

def fat32Eoc : ℕ := 0x0FFFFFF8
def fat32EocMark : ℕ := 0x0FFFFFFF

/-- `is_eoc`. -/
def isEoc (v : ℕ) : Bool := decide (fat32Eoc ≤ v)

/-- `fat_get`. -/
def fatGet (s : FsState) (c : ℕ) : Except Fault ℕ :=
  if !rangeOk s (fatEntryOffset s c 0) 4 then .ok fat32EocMark
  else do
    let v ← rd32 s (fatEntryOffset s c 0)
    .ok (v &&& 0x0FFFFFFF)

/-- The loop of `fat_set` over the copies `i, i + 1, …`, `n` of them. -/
def fatSetLoop (s : FsState) (c v i : ℕ) : ℕ → Except Fault (Bool × FsState)
  | 0 => .ok (true, s)
  | n + 1 =>
    if !rangeOk s (fatEntryOffset s c i) 4 then .ok (false, s)
    else do
      let s ← wr32 s (fatEntryOffset s c i) (v &&& 0x0FFFFFFF)
      fatSetLoop s c v (i + 1) n

/-- `fat_set`: `false` for `-1`. -/
def fatSet (s : FsState) (c v : ℕ) : Except Fault (Bool × FsState) :=
  fatSetLoop s c v 0 s.fat.fatCount

/-- Mark the free cluster `c` and clear it: the body of the loop of `alloc_cluster`. -/
def takeCluster (s : FsState) (c : ℕ) : Except Fault (ℕ × FsState) := do
  let (ok, s) ← fatSet s c fat32EocMark
  if !ok then .ok (0, s)
  else if !rangeOk s (clusterOffset s c) (clusterSize s) then .ok (0, s)
  else do
    let s ← memset s (clusterOffset s c) 0 (clusterSize s)
    .ok (c, s)

/-- The loop of `alloc_cluster` from cluster `c` on, over `n` clusters. -/
def allocLoop (s : FsState) (c : ℕ) : ℕ → Except Fault (ℕ × FsState)
  | 0 => .ok (0, s)
  | n + 1 => do
    let v ← fatGet s c
    if v = 0 then takeCluster s c else allocLoop s (c + 1) n

/-- `alloc_cluster`: `0` when there is none. -/
def allocCluster (s : FsState) : Except Fault (ℕ × FsState) := allocLoop s 2 (clusterEnd s - 2)

/-- `next = alloc_cluster(); if (!next || fat_set(cur, next) != 0) return 0`, with `0`
for the return. -/
def growChain (s : FsState) (cur : ℕ) : Except Fault (ℕ × FsState) := do
  let (next, s) ← allocCluster s
  if next = 0 then .ok (0, s)
  else do
    let (ok, s) ← fatSet s cur next
    .ok (if ok then next else 0, s)

/-- One turn of `chain_cluster`: the next cluster, `0` for `return 0`. -/
def nextCluster (s : FsState) (cur : ℕ) (grow : Bool) : Except Fault (ℕ × FsState) := do
  let v ← fatGet s cur
  if isEoc v then
    if grow then growChain s cur else .ok (0, s)
  else .ok (v, s)

/-- The loop of `chain_cluster`. -/
def chainLoop (s : FsState) (cur : ℕ) (grow : Bool) : ℕ → Except Fault (ℕ × FsState)
  | 0 => .ok (cur, s)
  | n + 1 => do
    let (next, s) ← nextCluster s cur grow
    if validCluster s next then chainLoop s next grow n else .ok (0, s)

/-- `chain_cluster`. -/
def chainCluster (s : FsState) (first index : ℕ) (grow : Bool) : Except Fault (ℕ × FsState) :=
  if first < 2 then .ok (0, s) else chainLoop s first grow index

/-- `free_chain`. -/
def freeChain : ℕ → FsState → ℕ → Except Fault FsState
  | 0, _, _ => .error .hang
  | fuel + 1, s, cur =>
    if validCluster s cur then do
      let next ← fatGet s cur
      let (_, s) ← fatSet s cur 0
      if isEoc next then .ok s else freeChain fuel s next
    else .ok s

end ExoCore.Fat
