/-
  ExoCore.Fat.Calls — the directory and the file calls of `kernel/fs.c`.

  The root directory is the chain of `root_cluster`, cut into slots of 32 bytes.
  Paths are the list of their characters; a `NULL` path is treated like the empty
  one, which `make_short_name` rejects too.  `none` stands for the answer `-1`.
-/
import ExoCore.Fat.Image
import Mathlib.Data.List.FinRange

namespace ExoCore.Fat

open ExoCore.Lib

/-! ## §1. Names. -/

/-- `upper_char`, on a byte. -/
def upperChar (c : UInt8) : UInt8 := if 0x61 ≤ c ∧ c ≤ 0x7A then c - 0x20 else c

/-- The characters `make_short_name` refuses. -/
def badChar (c : UInt8) : Bool :=
  c ≤ 0x20 || [0x22, 0x2A, 0x2B, 0x2C, 0x3A, 0x3B, 0x3C, 0x3D, 0x3E, 0x3F, 0x5B, 0x5C, 0x5D,
    0x7C].contains c

/-- The loop of `make_short_name`: the characters of the name and of the extension
stored so far. -/
def shortNameLoop : List UInt8 → List UInt8 → List UInt8 → Bool →
    Option (List UInt8 × List UInt8)
  | [], name, ext, _ => if name.length > 0 then some (name, ext) else none
  | c :: path, name, ext, inExt =>
    if c = 0x2F then none
    else if c = 0x2E then
      if inExt then none else shortNameLoop path name ext true
    else if badChar c then none
    else if !inExt then
      if name.length ≥ 8 then none else shortNameLoop path (name ++ [upperChar c]) ext inExt
    else
      if ext.length ≥ 3 then none else shortNameLoop path name (ext ++ [upperChar c]) inExt

/-- The blanks that are left of `memset(out, ' ', 11)`. -/
def padTo (n : ℕ) (l : List UInt8) : List UInt8 := l ++ List.replicate (n - l.length) 0x20

/-- `make_short_name`: the 11 bytes, `none` for `-1`. -/
def makeShortName (path : List UInt8) : Option (List UInt8) :=
  let path := path.dropWhile (· == 0x2F)
  if path = [] then none
  else (shortNameLoop path [] [] false).map fun (name, ext) => padTo 8 name ++ padTo 3 ext

/-! ## §2. The directory. -/

def attrDirectory : UInt8 := 0x10
def attrArchive : UInt8 := 0x20

/-- Where the scan of one cluster of the directory ends. -/
inductive Scan where
  /-- At a `0x00` slot: `return -1`. -/
  | stop (freeOff : ℕ)
  /-- At the entry: `return 0`. -/
  | found (entryOff freeOff : ℕ)
  /-- Past the last slot. -/
  | past (freeOff : ℕ)
  deriving Repr, DecidableEq

/-- `if (!*free_off) *free_off = (uint32_t)off`. -/
def noteFree (freeOff off : ℕ) : ℕ := if freeOff = 0 then off % 2 ^ 32 else freeOff

/-- The scan of `n` slots from the offset `off` on. -/
def scanSlots (s : FsState) (name : List UInt8) : ℕ → ℕ → ℕ → Except Fault Scan
  | 0, _, freeOff => .ok (.past freeOff)
  | n + 1, off, freeOff => do
    let e0 ← rdByte s off
    if e0 = 0x00 then .ok (.stop (noteFree freeOff off))
    else if e0 = 0xE5 then scanSlots s name n (off + 32) (noteFree freeOff off)
    else do
      let attr ← rdByte s (off + 11)
      if attr &&& 0x0F = 0x0F then scanSlots s name n (off + 32) freeOff
      else if attr &&& attrDirectory ≠ 0 then scanSlots s name n (off + 32) freeOff
      else do
        let e ← copyOut s off 11
        if e = name then .ok (.found (off % 2 ^ 32) freeOff)
        else scanSlots s name n (off + 32) freeOff

/-- The loop of `find_dir_entry` over the clusters of the directory. -/
def findLoop (s : FsState) (name : List UInt8) : ℕ → ℕ → ℕ → Except Fault (Option ℕ × ℕ)
  | 0, _, _ => .error .hang
  | fuel + 1, c, freeOff =>
    if validCluster s c then
      if !rangeOk s (clusterOffset s c) (clusterSize s) then .ok (none, freeOff)
      else do
        let scan ← scanSlots s name (clusterSize s / 32) (clusterOffset s c) freeOff
        match scan with
        | .stop freeOff => .ok (none, freeOff)
        | .found off freeOff => .ok (some off, freeOff)
        | .past freeOff => do
          let next ← fatGet s c
          if isEoc next then .ok (none, freeOff) else findLoop s name fuel next freeOff
    else .ok (none, freeOff)

/-- `find_dir_entry`: the offset of the entry, and the free slot noted on the way. -/
def findDirEntry (fuel : ℕ) (s : FsState) (name : List UInt8) : Except Fault (Option ℕ × ℕ) :=
  findLoop s name fuel s.fat.rootCluster 0

/-- `entry_first_cluster(fs_data + off)`. -/
def entryFirstCluster (s : FsState) (off : ℕ) : Except Fault ℕ := do
  let hi ← rd16 s (off + 20)
  let lo ← rd16 s (off + 26)
  .ok (hi * 2 ^ 16 + lo)

/-- `entry_set_first_cluster(fs_data + off, c)`. -/
def entrySetFirstCluster (s : FsState) (off c : ℕ) : Except Fault FsState := do
  let s ← wr16 s (off + 20) (c / 2 ^ 16 % 2 ^ 16)
  wr16 s (off + 26) (c % 2 ^ 16)

/-! ## §3. The calls. -/

/-- `fs_mount`; `present` says whether `storage` is not `NULL`. -/
def fsMount (data : Bytes) (present : Bool) (size : ℕ) : Except Fault FsState :=
  let s : FsState :=
    { data := data
      present := present
      size := size
      mode := if present then .raw else .none
      fat := FatInfo.zero
      openFiles := fun _ => FsOpen.zero }
  if present then do
    let info ← fat32Parse s
    match info with
    | some fat => .ok { s with fat := fat, mode := .fat32 }
    | none => .ok s
  else .ok s

def fsOWronly : ℕ := 0x02
def fsORdwr : ℕ := 0x03
def fsOCreat : ℕ := 0x10
def fsOTrunc : ℕ := 0x20
def fsOAppend : ℕ := 0x40

/-- `flags & mask`, as a condition. -/
def hasFlag (flags mask : ℕ) : Bool := flags &&& mask != 0

/-- `fs_open` on a new name: fill the free slot. -/
def createEntry (s : FsState) (name : List UInt8) (off : ℕ) : Except Fault FsState := do
  let s ← memset s off 0 32
  let s ← copyIn s off name
  let s ← copyIn s (off + 11) [attrArchive]
  let s ← wr32 s (off + 28) 0
  entrySetFirstCluster s off 0

/-- `if (first) free_chain(first)`. -/
def freeFirst (fuel : ℕ) (s : FsState) (first : ℕ) : Except Fault FsState :=
  if first ≠ 0 then freeChain fuel s first else .ok s

/-- `fs_open` with `FS_O_TRUNC` on an existing file. -/
def truncEntry (fuel : ℕ) (s : FsState) (off : ℕ) : Except Fault FsState := do
  let first ← entryFirstCluster s off
  let s ← freeFirst fuel s first
  let s ← entrySetFirstCluster s off 0
  wr32 s (off + 28) 0

/-- The entry `fs_open` works on: `none` for `return -1`. -/
def openEntry (fuel : ℕ) (s : FsState) (name : List UInt8) (flags : ℕ) :
    Except Fault (Option ℕ × FsState) := do
  let (found, freeOff) ← findDirEntry fuel s name
  match found with
  | none =>
    if !hasFlag flags fsOCreat ∨ freeOff = 0 then .ok (none, s)
    else do
      let s ← createEntry s name freeOff
      .ok (some freeOff, s)
  | some off =>
    if hasFlag flags fsOTrunc then do
      let s ← truncEntry fuel s off
      .ok (some off, s)
    else .ok (some off, s)

/-- The end of `fs_open`: the first unused slot. -/
def claimSlot (s : FsState) (off flags : ℕ) : Except Fault (Option Slot × FsState) :=
  match (List.finRange 16).find? fun fd => !(s.openFiles fd).used with
  | none => .ok (none, s)
  | some fd => do
    let first ← entryFirstCluster s off
    let size ← rd32 s (off + 28)
    .ok (some fd, s.setOpen fd
      { used := true
        dirEntryOffset := off
        firstCluster := first
        size := size
        pos := if hasFlag flags fsOAppend then size else 0
        flags := flags })

/-- `fs_open`. -/
def fsOpen (fuel : ℕ) (s : FsState) (path : List UInt8) (flags : ℕ) :
    Except Fault (Option Slot × FsState) :=
  if s.mode ≠ .fat32 then .ok (none, s)
  else
    match makeShortName path with
    | none => .ok (none, s)
    | some name => do
      let (entry, s) ← openEntry fuel s name flags
      match entry with
      | none => .ok (none, s)
      | some off => claimSlot s off flags

/-- `fd < 0 || fd >= FS_MAX_OPEN || !open_files[fd].used`. -/
def openSlot (s : FsState) (fd : ℤ) : Option Slot :=
  if h : 0 ≤ fd ∧ fd < 16 then
    let slot : Slot := ⟨fd.toNat, by omega⟩
    if (s.openFiles slot).used then some slot else none
  else none

/-- The size of the next copy: to the end of the cluster or of the request. -/
def chunkSize (s : FsState) (pos left : ℕ) : ℕ := min (clusterSize s - pos % clusterSize s) left

/-- The loop of `fs_read_fd`: `out` are the bytes copied so far, `cap` is the length
of the caller's buffer.  `chain_cluster` changes nothing when it does not grow. -/
def readLoop (s : FsState) (slot : Slot) (len cap : ℕ) :
    ℕ → FsOpen → List UInt8 → Except Fault (List UInt8 × FsState)
  | 0, _, _ => .error .hang
  | fuel + 1, f, out =>
    if out.length < len then do
      let (c, _) ← chainCluster s f.firstCluster (f.pos / clusterSize s % 2 ^ 32) false
      if c = 0 then .ok (out, s.setOpen slot f)
      else
        let off := add64 (clusterOffset s c) (f.pos % clusterSize s)
        let chunk := chunkSize s f.pos (len - out.length)
        if !rangeOk s off chunk then .ok (out, s.setOpen slot f)
        else do
          let bytes ← copyOut s off chunk
          let f := { f with pos := (f.pos + chunk) % 2 ^ 32 }
          if cap < out.length + chunk then .error .buffer
          else readLoop s slot len cap fuel f (out ++ bytes)
    else .ok (out, s.setOpen slot f)

/-- `fs_read_fd`; `buf` says whether the caller's pointer is not `NULL`. -/
def fsReadFd (fuel : ℕ) (s : FsState) (fd : ℤ) (buf : Bool) (len : ℕ) :
    Except Fault (Option (List UInt8) × FsState) :=
  if s.mode ≠ .fat32 then .ok (none, s)
  else
    match openSlot s fd with
    | none => .ok (none, s)
    | some slot =>
      let f := s.openFiles slot
      if !buf then .ok (none, s)
      else if f.size ≤ f.pos ∨ len = 0 then .ok (some [], s)
      else do
        let (out, s) ← readLoop s slot (min len (f.size - f.pos)) len fuel f []
        .ok (some out, s)

/-- `in + done`, `n` bytes, of the caller's buffer. -/
def slice (buf : List UInt8) (done n : ℕ) : Except Fault (List UInt8) :=
  if done + n ≤ buf.length then .ok ((buf.drop done).take n) else .error .buffer

/-- The loop of `fs_write_fd`, with `done` bytes written. -/
def writeLoop (buf : List UInt8) :
    ℕ → FsState → FsOpen → ℕ → Except Fault (ℕ × FsOpen × FsState)
  | 0, _, _, _ => .error .hang
  | fuel + 1, s, f, done =>
    if done < buf.length then do
      let (c, s) ← chainCluster s f.firstCluster (f.pos / clusterSize s % 2 ^ 32) true
      if c = 0 then .ok (done, f, s)
      else
        let off := add64 (clusterOffset s c) (f.pos % clusterSize s)
        let chunk := chunkSize s f.pos (buf.length - done)
        if !rangeOk s off chunk then .ok (done, f, s)
        else do
          let bytes ← slice buf done chunk
          let s ← copyIn s off bytes
          let pos := (f.pos + chunk) % 2 ^ 32
          writeLoop buf fuel s { f with pos := pos, size := max f.size pos } (done + chunk)
    else .ok (done, f, s)

/-- `if (!of->first_cluster) of->first_cluster = alloc_cluster()`, with `0` for the
`return -1` that follows. -/
def firstCluster (s : FsState) (f : FsOpen) : Except Fault (ℕ × FsState) :=
  if f.firstCluster = 0 then allocCluster s else .ok (f.firstCluster, s)

/-- `fs_write_fd` past its checks. -/
def writeFile (fuel : ℕ) (s : FsState) (slot : Slot) (buf : List UInt8) :
    Except Fault (Option ℕ × FsState) := do
  let f := s.openFiles slot
  let (first, s) ← firstCluster s f
  if first = 0 then .ok (none, s)
  else do
    let (done, f, s) ← writeLoop buf fuel s { f with firstCluster := first } 0
    let s ← entrySetFirstCluster s f.dirEntryOffset f.firstCluster
    let s ← wr32 s (f.dirEntryOffset + 28) f.size
    .ok (some done, s.setOpen slot f)

/-- `fs_write_fd` of the bytes `buf` (`none` for a `NULL` pointer). -/
def fsWriteFd (fuel : ℕ) (s : FsState) (fd : ℤ) (buf : Option (List UInt8)) :
    Except Fault (Option ℕ × FsState) :=
  if s.mode ≠ .fat32 then .ok (none, s)
  else
    match openSlot s fd with
    | none => .ok (none, s)
    | some slot =>
      match buf with
      | none => .ok (none, s)
      | some bytes =>
        let f := s.openFiles slot
        if !hasFlag f.flags fsOWronly ∧ f.flags &&& fsORdwr ≠ fsORdwr then .ok (none, s)
        else writeFile fuel s slot bytes

/-- The base of `fs_lseek_fd`: `FS_SEEK_SET`, `FS_SEEK_CUR`, `FS_SEEK_END`. -/
def seekBase (f : FsOpen) (whence : ℤ) : Option ℤ :=
  if whence = 0 then some 0
  else if whence = 1 then some f.pos
  else if whence = 2 then some f.size
  else none

/-- `fs_lseek_fd`. -/
def fsLseekFd (s : FsState) (fd offset whence : ℤ) : Option ℕ × FsState :=
  if s.mode ≠ .fat32 then (none, s)
  else
    match openSlot s fd with
    | none => (none, s)
    | some slot =>
      match seekBase (s.openFiles slot) whence with
      | none => (none, s)
      | some base =>
        let next := toLong (base + offset)
        if next < 0 then (none, s)
        else (some next.toNat,
          s.setOpen slot { s.openFiles slot with pos := next.toNat % 2 ^ 32 })

/-- `fs_close`. -/
def fsClose (s : FsState) (fd : ℤ) : Bool × FsState :=
  match openSlot s fd with
  | none => (false, s)
  | some slot => (true, s.setOpen slot FsOpen.zero)

/-- `fs_file_size`. -/
def fsFileSize (s : FsState) (fd : ℤ) : Option ℕ :=
  if s.mode ≠ .fat32 then none else (openSlot s fd).map fun slot => (s.openFiles slot).size

/-- The length `fs_read` and `fs_write` are left with: up to the end of the image. -/
def rawLen (s : FsState) (offset len : ℕ) : ℕ :=
  if s.size < add64 offset len then s.size - offset else len

/-- `fs_read`: the bytes copied; `buf` says whether the caller's pointer is not `NULL`. -/
def fsRead (s : FsState) (offset : ℕ) (buf : Bool) (len : ℕ) : Except Fault (List UInt8) :=
  if !buf ∨ !rangeOk s offset 0 then .ok [] else copyOut s offset (rawLen s offset len)

/-- `fs_write` of the bytes `data` (`none` for a `NULL` pointer). -/
def fsWrite (s : FsState) (offset : ℕ) (data : Option (List UInt8)) : Except Fault (ℕ × FsState) :=
  match data with
  | none => .ok (0, s)
  | some bytes =>
    if !rangeOk s offset 0 then .ok (0, s)
    else do
      let len := rawLen s offset bytes.length
      let s ← copyIn s offset (bytes.take len)
      .ok (len, s)

/-! ## §4. Runs. -/

/-- A file call. -/
inductive Op where
  | open (path : List UInt8) (flags : ℕ)
  | read (fd : ℤ) (buf : Bool) (len : ℕ)
  | write (fd : ℤ) (buf : Option (List UInt8))
  | lseek (fd offset whence : ℤ)
  | close (fd : ℤ)

/-- The answer of a call. -/
inductive Ret where
  /-- `-1`. -/
  | fail
  | done
  | fd (slot : Slot)
  | bytes (l : List UInt8)
  | count (n : ℕ)
  | pos (n : ℕ)
  deriving Repr, DecidableEq

/-- `-1`, or the value. -/
def Ret.ofOption {α : Type} (f : α → Ret) : Option α → Ret
  | none => .fail
  | some a => f a

/-- Perform a call. -/
def exec (fuel : ℕ) (s : FsState) : Op → Except Fault (Ret × FsState)
  | .open path flags => (fsOpen fuel s path flags).map (Prod.map (Ret.ofOption .fd) id)
  | .read fd buf len => (fsReadFd fuel s fd buf len).map (Prod.map (Ret.ofOption .bytes) id)
  | .write fd buf => (fsWriteFd fuel s fd buf).map (Prod.map (Ret.ofOption .count) id)
  | .lseek fd offset whence => .ok ((fsLseekFd s fd offset whence).map (Ret.ofOption .pos) id)
  | .close fd => .ok ((fsClose s fd).map (fun b => if b then .done else .fail) id)

end ExoCore.Fat
