/-
  ExoCore.Vfs.Ops — the operations of `kernel/vfs.c`.

  `none` and `false` stand for the answer `-1`.  An operation FAULTS when it
  would do what C leaves undefined or what stops the kernel: a copy outside a
  live buffer, a `mem_free` of something that is not a live allocation, or a
  doubling loop that never ends.

  `alloc` is the answer of the environment to `mem_alloc`: `NULL`, or a pointer
  with the bytes the new block happens to hold.
-/
import ExoCore.Vfs.State
import ExoCore.Lib.Word

namespace ExoCore.Vfs

open ExoCore.Lib

/-! ## §1. Buffers. -/

/-- What an operation must not do. -/
inductive Fault where
  /-- A copy outside a live buffer. -/
  | outOfBounds
  /-- `mem_free` of a pointer that is no live allocation, or with a size larger
  than the allocation. -/
  | badFree
  /-- A loop that never ends. -/
  | hang
  deriving Repr, DecidableEq

/-- The environment's answers to `mem_alloc(size)`. -/
abbrev Allocator := ℕ → Option (ℕ × Buf)

/-- `memcpy(buf, ptr + off, n)`. -/
def readBuf (s : VfsState) (ptr off n : ℕ) : Except Fault (List UInt8) :=
  if n = 0 then .ok []
  else
    match s.bufs ptr with
    | none => .error .outOfBounds
    | some b =>
      if off + n ≤ b.len then .ok ((List.range n).map fun i => b.byte (off + i))
      else .error .outOfBounds

/-- The bytes of `b` after `bytes` are stored at `off`. -/
def Buf.store (b : Buf) (off : ℕ) (bytes : List UInt8) : Buf :=
  { b with byte := fun i => if off ≤ i then (bytes[i - off]?).getD (b.byte i) else b.byte i }

/-- `memcpy(ptr + off, bytes, n)`. -/
def writeBuf (s : VfsState) (ptr off : ℕ) (bytes : List UInt8) : Except Fault VfsState :=
  if bytes = [] then .ok s
  else
    match s.bufs ptr with
    | none => .error .outOfBounds
    | some b =>
      if off + bytes.length ≤ b.len then
        .ok { s with bufs := Function.update s.bufs ptr (some (b.store off bytes)) }
      else .error .outOfBounds

/-- `mem_free(ptr, size)`. -/
def freeBuf (s : VfsState) (ptr size : ℕ) : Except Fault VfsState :=
  match s.bufs ptr with
  | none => .error .badFree
  | some b =>
    if b.len < size then .error .badFree
    else .ok { s with bufs := Function.update s.bufs ptr none }

/-- `while (cap < need) cap *= 2`. -/
def doubleUntil : ℕ → ℕ → ℕ → Option ℕ
  | 0, _, _ => none
  | fuel + 1, cap, need =>
    if cap < need then doubleUntil fuel (cap * 2 % 2 ^ 64) need else some cap

/-- The bytes `ensure_capacity` carries over: `if (node->data && node->size)`. -/
def oldBytes (s : VfsState) (node : VfsNode) : Except Fault (List UInt8) :=
  if node.data ≠ 0 ∧ node.size ≠ 0 then readBuf s node.data 0 node.size else .ok []

/-- `if (node->data) mem_free(node->data, node->capacity)`. -/
def freeData (s : VfsState) (node : VfsNode) : Except Fault VfsState :=
  if node.data ≠ 0 then freeBuf s node.data node.capacity else .ok s

/-- `ensure_capacity(&nodes[i], need)`: `false` when `mem_alloc` fails.  After 64
doublings a word is `0` and stays `0`, so 65 turns decide whether the loop ends. -/
def ensureCapacity (alloc : Allocator) (s : VfsState) (i : NodeId) (need : ℕ) :
    Except Fault (Bool × VfsState) :=
  let node := s.nodes i
  if need ≤ node.capacity then .ok (true, s)
  else
    match doubleUntil 65 (if node.capacity ≠ 0 then node.capacity else 64) need with
    | none => .error .hang
    | some cap =>
      match alloc cap with
      | none => .ok (false, s)
      | some (newData, b) => do
        let s := { s with bufs := Function.update s.bufs newData (some b) }
        let old ← oldBytes s node
        let s ← writeBuf s newData 0 old
        let s ← freeData s node
        .ok (true, s.setNode i { node with data := newData, capacity := cap })

/-! ## §2. The tree. -/

/-- `vfs_init`. -/
def vfsInit (s : VfsState) : Bool × VfsState :=
  let s : VfsState :=
    { s with
      nodes := fun _ => VfsNode.zero
      openFiles := fun _ => VfsOpen.zero
      nextInode := 1
      cwdNode := 0
      ready := true }
  match allocNode s .dir 0 [] with
  | some (root, s) => (decide (root = 0), s)
  | none => (false, s)

/-- `vfs_mkdir`. -/
def vfsMkdir (s : VfsState) (path : Str) : Bool × VfsState :=
  match resolveParent s path with
  | none => (false, s)
  | some (parent, leaf) =>
    if (findChild s parent leaf).isSome then (false, s)
    else
      match allocNode s .dir parent leaf with
      | none => (false, s)
      | some (_, s) => (true, s)

/-- The end of `vfs_unlink` and `vfs_rmdir`: release the buffer, clear the slot. -/
def dropNode (s : VfsState) (node : NodeId) : Except Fault (Bool × VfsState) := do
  let s ← freeData s (s.nodes node)
  .ok (true, s.setNode node VfsNode.zero)

/-- `vfs_unlink`. -/
def vfsUnlink (s : VfsState) (path : Str) : Except Fault (Bool × VfsState) :=
  match resolvePath s path with
  | none => .ok (false, s)
  | some node =>
    if node = 0 ∨ (s.nodes node).type = .dir ∨ childCount s node ≠ 0 then .ok (false, s)
    else dropNode s node

/-- `vfs_rename`. -/
def vfsRename (s : VfsState) (oldPath newPath : Str) : Bool × VfsState :=
  match resolvePath s oldPath with
  | none => (false, s)
  | some node =>
    if node = 0 then (false, s)
    else
      match resolveParent s newPath with
      | none => (false, s)
      | some (parent, leaf) =>
        if (findChild s parent leaf).isSome then (false, s)
        else (true, s.setNode node
          { s.nodes node with parent := parent, name := copyName leaf })

/-- `vfs_chdir`. -/
def vfsChdir (s : VfsState) (path : Str) : Bool × VfsState :=
  match resolvePath s path with
  | none => (false, s)
  | some node => if (s.nodes node).type ≠ .dir then (false, s) else (true, { s with cwdNode := node })

/-- `vfs_rmdir`. -/
def vfsRmdir (s : VfsState) (path : Str) : Except Fault (Bool × VfsState) :=
  match resolvePath s path with
  | none => .ok (false, s)
  | some node =>
    if node = 0 ∨ (s.nodes node).type ≠ .dir ∨ childCount s node ≠ 0 then .ok (false, s)
    else dropNode (if s.cwdNode = node then { s with cwdNode := 0 } else s) node

/-- `vfs_access`; `mode` is ignored. -/
def vfsAccess (s : VfsState) (path : Str) (_mode : ℤ) : Bool := (resolvePath s path).isSome

/-! ## §3. Descriptors. -/

def vfsOWronly : ℕ := 0x02
def vfsOCreat : ℕ := 0x10
def vfsOTrunc : ℕ := 0x20
def vfsOAppend : ℕ := 0x40

/-- `flags & mask`, as a condition. -/
def hasFlag (flags mask : ℕ) : Bool := flags &&& mask != 0

/-- `fd < 0 || fd >= VFS_MAX_OPEN || !open_files[fd].used` is the test every
descriptor call makes first. -/
def openSlot (s : VfsState) (fd : ℤ) : Option Slot :=
  if h : 0 ≤ fd ∧ fd < 32 then
    let slot : Slot := ⟨fd.toNat, by omega⟩
    if (s.openFiles slot).used then some slot else none
  else none

/-- The node `vfs_open` works on: the one the path names, or a new file. -/
def openNode (s : VfsState) (path : Str) (flags : ℕ) : Option (NodeId × VfsState) :=
  match resolvePath s path with
  | some node => some (node, s)
  | none =>
    if hasFlag flags vfsOCreat then
      match resolveParent s path with
      | none => none
      | some (parent, leaf) => allocNode s .file parent leaf
    else none

/-- The `VFS_O_TRUNC` step of `vfs_open`. -/
def truncate (alloc : Allocator) (s : VfsState) (node : NodeId) (flags : ℕ) :
    Except Fault VfsState :=
  if hasFlag flags vfsOTrunc ∧ (s.nodes node).type = .file then do
    let (ok, s) ← ensureCapacity alloc s node 0
    .ok (if ok then s.setNode node { s.nodes node with size := 0 } else s)
  else .ok s

/-- The end of `vfs_open`: the first unused slot. -/
def claimSlot (s : VfsState) (node : NodeId) (flags : ℕ) : Option Slot × VfsState :=
  match (List.finRange 32).find? fun fd => !(s.openFiles fd).used with
  | none => (none, s)
  | some fd => (some fd, s.setOpen fd
      { used := true
        node := node
        flags := flags
        offset := if hasFlag flags vfsOAppend then (s.nodes node).size else 0 })

/-- `vfs_open`. -/
def vfsOpen (alloc : Allocator) (s : VfsState) (path : Str) (flags : ℕ) :
    Except Fault (Option Slot × VfsState) :=
  match openNode s path flags with
  | none => .ok (none, s)
  | some (node, s) =>
    if (s.nodes node).type = .dir ∧
        hasFlag flags (vfsOWronly ||| vfsOCreat ||| vfsOTrunc ||| vfsOAppend) then
      .ok (none, s)
    else do
      let s ← truncate alloc s node flags
      .ok (claimSlot s node flags)

/-- `vfs_read`; `buf` says whether the caller's pointer is not `NULL`. -/
def vfsRead (s : VfsState) (fd : ℤ) (buf : Bool) (len : ℕ) :
    Except Fault (Option (List UInt8) × VfsState) :=
  match openSlot s fd with
  | none => .ok (none, s)
  | some slot =>
    let f := s.openFiles slot
    let node := s.nodes f.node
    if !buf ∨ node.type ≠ .file then .ok (none, s)
    else if node.size ≤ f.offset then .ok (some [], s)
    else do
      let len := if node.size < add64 f.offset len then node.size - f.offset else len
      let bytes ← readBuf s node.data f.offset len
      .ok (some bytes, s.setOpen slot { f with offset := add64 f.offset len })

/-- The cursor a write starts from: `VFS_O_APPEND` moves it to the end. -/
def seekAppend (s : VfsState) (slot : Slot) : VfsState :=
  let f := s.openFiles slot
  if hasFlag f.flags vfsOAppend then s.setOpen slot { f with offset := (s.nodes f.node).size }
  else s

/-- The end of `vfs_write`: move the cursor to `stop` and extend the file to it. -/
def advance (s : VfsState) (slot : Slot) (stop : ℕ) : VfsState :=
  let f := s.openFiles slot
  let s := s.setOpen slot { f with offset := stop }
  let node := s.nodes f.node
  if node.size < stop then s.setNode f.node { node with size := stop } else s

/-- `vfs_write` past its checks: `bytes` through `slot`, whose node is a file. -/
def writeFile (alloc : Allocator) (s : VfsState) (slot : Slot) (bytes : List UInt8) :
    Except Fault (Option ℕ × VfsState) := do
  let s := seekAppend s slot
  let f := s.openFiles slot
  let stop := add64 f.offset bytes.length
  let (ok, s) ← ensureCapacity alloc s f.node stop
  if ok then do
    let s ← writeBuf s (s.nodes f.node).data f.offset bytes
    .ok (some bytes.length, advance s slot stop)
  else .ok (none, s)

/-- `vfs_write` of the bytes `buf` (`none` for a `NULL` pointer). -/
def vfsWrite (alloc : Allocator) (s : VfsState) (fd : ℤ) (buf : Option (List UInt8)) :
    Except Fault (Option ℕ × VfsState) :=
  match openSlot s fd with
  | none => .ok (none, s)
  | some slot =>
    match buf with
    | none => .ok (none, s)
    | some bytes =>
      if (s.nodes (s.openFiles slot).node).type ≠ .file then .ok (none, s)
      else writeFile alloc s slot bytes

/-- The base of `vfs_lseek`: `VFS_SEEK_SET`, `VFS_SEEK_CUR`, `VFS_SEEK_END`. -/
def seekBase (s : VfsState) (slot : Slot) (whence : ℤ) : Option ℤ :=
  if whence = 0 then some 0
  else if whence = 1 then some (toLong (s.openFiles slot).offset)
  else if whence = 2 then some (toLong (s.nodes (s.openFiles slot).node).size)
  else none

/-- `vfs_lseek`. -/
def vfsLseek (s : VfsState) (fd : ℤ) (offset : ℤ) (whence : ℤ) : Option ℕ × VfsState :=
  match openSlot s fd with
  | none => (none, s)
  | some slot =>
    match seekBase s slot whence with
    | none => (none, s)
    | some base =>
      let next := toLong (base + offset)
      if next < 0 then (none, s)
      else (some next.toNat, s.setOpen slot { s.openFiles slot with offset := next.toNat })

/-- `vfs_close`. -/
def vfsClose (s : VfsState) (fd : ℤ) : Bool × VfsState :=
  match openSlot s fd with
  | none => (false, s)
  | some slot => (true, s.setOpen slot VfsOpen.zero)

/-! ## §4. Metadata. -/

/-- `vfs_stat_t`. -/
structure VfsStat where
  type : NodeType
  size : ℕ
  inode : ℕ
  children : ℕ
  deriving Repr, DecidableEq

/-- `vfs_dirent_t`. -/
structure VfsDirent where
  type : NodeType
  inode : ℕ
  size : ℕ
  name : Str
  deriving Repr, DecidableEq

/-- `fill_stat`. -/
def fillStat (s : VfsState) (node : NodeId) : Option VfsStat :=
  if !(s.nodes node).used then none
  else some
    { type := (s.nodes node).type
      size := (s.nodes node).size
      inode := (s.nodes node).inode
      children := if (s.nodes node).type = .dir then childCount s node else 0 }

/-- `vfs_stat`. -/
def vfsStat (s : VfsState) (path : Str) : Option VfsStat := (resolvePath s path).bind (fillStat s)

/-- `vfs_fstat`. -/
def vfsFstat (s : VfsState) (fd : ℤ) : Option VfsStat :=
  (openSlot s fd).bind fun slot => fillStat s (s.openFiles slot).node

/-- The loop of `vfs_getdents` over the slots, from position `index` among the
children and with `emitted` entries stored. -/
def getdentsLoop (s : VfsState) (dir : NodeId) (offset maxEnts : ℕ) :
    List NodeId → ℕ → ℕ → List VfsDirent
  | [], _, _ => []
  | i :: rest, index, emitted =>
    if emitted < maxEnts then
      if i = dir ∨ !(s.nodes i).used ∨ (s.nodes i).parent ≠ dir then
        getdentsLoop s dir offset maxEnts rest index emitted
      else if index < offset then getdentsLoop s dir offset maxEnts rest (index + 1) emitted
      else
        { type := (s.nodes i).type
          inode := (s.nodes i).inode
          size := (s.nodes i).size
          name := copyName (s.nodes i).name } ::
        getdentsLoop s dir offset maxEnts rest (index + 1) (emitted + 1)
    else []

/-- `vfs_getdents`; `buf` says whether the caller's pointer is not `NULL`. -/
def vfsGetdents (s : VfsState) (fd : ℤ) (buf : Bool) (maxEnts : ℕ) :
    Option (List VfsDirent) × VfsState :=
  match openSlot s fd with
  | none => (none, s)
  | some slot =>
    let f := s.openFiles slot
    if !buf ∨ (s.nodes f.node).type ≠ .dir then (none, s)
    else
      let ents := getdentsLoop s f.node f.offset maxEnts (List.finRange 64) 0 0
      (some ents, s.setOpen slot { f with offset := add64 f.offset ents.length })

/-- The loop of `build_path`: `tmp` is the path below `cur`, `none` for `return -1`.  Every
turn makes `tmp` longer, and it has to stay below `VFS_MAX_PATH`, which is 128. -/
def buildLoop (s : VfsState) (cur : NodeId) (tmp : Str) : Option Str :=
  if cur = 0 then some tmp
  else if 128 ≤ (s.nodes cur).name.length + tmp.length + 2 then none
  else buildLoop s (s.nodes cur).parent (slash :: ((s.nodes cur).name ++ tmp))
termination_by 128 - tmp.length
decreasing_by simp only [List.length_cons, List.length_append]; omega

/-- `build_path`: the string stored, `none` for `-1`. -/
def buildPath (s : VfsState) (node : NodeId) (buf : Bool) (len : ℕ) : Option Str :=
  if !buf ∨ len = 0 then none
  else if node = 0 then (if len < 2 then none else some [slash])
  else
    match buildLoop s node [] with
    | none => none
    | some tmp => if len < tmp.length + 1 then none else some tmp

/-- `vfs_getcwd`; `buf` says whether the caller's pointer is not `NULL`. -/
def vfsGetcwd (s : VfsState) (buf : Bool) (len : ℕ) : Option Str := buildPath s s.cwdNode buf len

end ExoCore.Vfs
