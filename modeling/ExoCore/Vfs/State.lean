/-
  ExoCore.Vfs.State — the node table and the path walkers of `kernel/vfs.c`.

  `nodes` and `open_files` are the two static tables; an index into them is a
  `Fin`.  Strings are the list of their characters, the terminator left out; a
  `NULL` path is treated like the empty one, which every caller rejects too.

  File data lives in BUFFERS: a `data` pointer names a live allocation (`0` is
  `NULL`), and `bufs` gives the bytes behind it.  `mem_alloc` and `mem_free` are
  taken by their contract, so a fresh buffer holds whatever bytes the allocator
  left in it.
-/
import Mathlib.Algebra.Order.Ring.Nat
import Mathlib.Data.List.FinRange
import Mathlib.Logic.Function.Basic

namespace ExoCore.Vfs

/-! ## §1. The state. -/

/-- `VFS_MAX_NAME`. -/
def vfsMaxName : ℕ := 31

/-- An index into `nodes` (`VFS_MAX_NODES` is 64). -/
abbrev NodeId := Fin 64

/-- There is a node `0`, the root. -/
scoped instance neZero_nodes : NeZero 64 := ⟨by decide⟩

/-- An index into `open_files` (`VFS_MAX_OPEN` is 32). -/
abbrev Slot := Fin 32

/-- The `type` of a node: `0` in a cleared slot, `VFS_TYPE_FILE`, `VFS_TYPE_DIR`. -/
inductive NodeType where
  | none
  | file
  | dir
  deriving Repr, DecidableEq

/-- `vfs_node_t`. -/
structure VfsNode where
  used : Bool
  inode : ℕ
  type : NodeType
  parent : NodeId
  name : List UInt8
  data : ℕ
  size : ℕ
  capacity : ℕ
  deriving Repr, DecidableEq

/-- A slot after `memset(&nodes[i], 0, sizeof(nodes[i]))`. -/
def VfsNode.zero : VfsNode :=
  { used := false, inode := 0, type := .none, parent := 0, name := [], data := 0, size := 0,
    capacity := 0 }

/-- `vfs_open_t`. -/
structure VfsOpen where
  used : Bool
  node : NodeId
  offset : ℕ
  flags : ℕ
  deriving Repr, DecidableEq

/-- A slot after `memset(&open_files[fd], 0, sizeof(open_files[fd]))`. -/
def VfsOpen.zero : VfsOpen := { used := false, node := 0, offset := 0, flags := 0 }

/-- A live allocation: its length and its bytes. -/
structure Buf where
  len : ℕ
  byte : ℕ → UInt8

/-- The statics of `vfs.c`, and the buffers the nodes point to. -/
structure VfsState where
  nodes : NodeId → VfsNode
  openFiles : Slot → VfsOpen
  nextInode : ℕ
  cwdNode : NodeId
  ready : Bool
  bufs : ℕ → Option Buf

/-- `nodes[i] = n`. -/
def VfsState.setNode (s : VfsState) (i : NodeId) (n : VfsNode) : VfsState :=
  { s with nodes := Function.update s.nodes i n }

/-- `open_files[fd] = o`. -/
def VfsState.setOpen (s : VfsState) (fd : Slot) (o : VfsOpen) : VfsState :=
  { s with openFiles := Function.update s.openFiles fd o }

/-! ## §2. Names and the node table. -/

/-- A path or a component of one. -/
abbrev Str := List UInt8

/-- `copy_name`: what `dst` holds afterwards.  A C string has no NUL inside, so
only the two length tests stop the loop. -/
def copyName (src : Str) : Str := src.take vfsMaxName

/-- `name_eq(name, seg, len)` for the `len` characters `seg`. -/
def nameEq : Str → Str → Bool
  | [], [] => true
  | a :: name, b :: seg => a == b && nameEq name seg
  | _, _ => false

/-- The first unused slot. -/
def freeNode (s : VfsState) : Option NodeId := (List.finRange 64).find? fun i => !(s.nodes i).used

/-- The node `alloc_node` fills a slot with. -/
def newNode (s : VfsState) (type : NodeType) (parent : NodeId) (name : Str) : VfsNode :=
  { VfsNode.zero with
    used := true
    inode := s.nextInode
    type := type
    parent := parent
    name := copyName name }

/-- `alloc_node`. -/
def allocNode (s : VfsState) (type : NodeType) (parent : NodeId) (name : Str) :
    Option (NodeId × VfsState) :=
  match freeNode s with
  | none => none
  | some i =>
    some (i, { s.setNode i (newNode s type parent name) with
      nextInode := (s.nextInode + 1) % 2 ^ 32 })

/-- The test of the loop of `find_child`. -/
def isChild (s : VfsState) (parent : NodeId) (seg : Str) (i : NodeId) : Bool :=
  (s.nodes i).used && (s.nodes i).parent == parent && nameEq (s.nodes i).name seg

/-- `find_child`: `none` for `-1`. -/
def findChild (s : VfsState) (parent : NodeId) (seg : Str) : Option NodeId :=
  if !(s.nodes parent).used || (s.nodes parent).type != .dir then none
  else (List.finRange 64).find? (isChild s parent seg)

/-- `child_count`. -/
def childCount (s : VfsState) (parent : NodeId) : ℕ :=
  ((List.finRange 64).filter fun i =>
    i != parent && (s.nodes i).used && (s.nodes i).parent == parent).length

/-! ## §3. Walking a path. -/

def slash : UInt8 := 0x2F

/-- The component `.`. -/
def dot : Str := [0x2E]

/-- The component `..`. -/
def dotdot : Str := [0x2E, 0x2E]

/-- `next_segment`: the component and the rest of the path. -/
def nextSegment (p : Str) : Str × Str :=
  let p := p.dropWhile (· == slash)
  (p.takeWhile (· != slash), p.dropWhile (· != slash))

/-- `node = nodes[node].parent`, except at the root. -/
def upFrom (s : VfsState) (node : NodeId) : NodeId := if node = 0 then 0 else (s.nodes node).parent

/-- One component of `resolve_path`. -/
def enter (s : VfsState) (node : NodeId) (seg : Str) : Option NodeId :=
  if seg = [] then some node
  else if seg = dot then some node
  else if seg = dotdot then some (upFrom s node)
  else findChild s node seg

/-- The loop of `resolve_path`: it ends when the rest of the path is empty, and
then handles the last component.  Every turn shortens the path, so its length is
enough fuel (`resolveLoop_eq`). -/
def resolveLoop (s : VfsState) : ℕ → Str → NodeId → Option NodeId
  | 0, _, node => some node
  | fuel + 1, p, node =>
    let (seg, rest) := nextSegment p
    match enter s node seg with
    | none => none
    | some node => if rest = [] then some node else resolveLoop s fuel rest node

/-- Where a walk starts: `(path[0] == '/') ? 0 : cwd_node`. -/
def startNode (s : VfsState) (path : Str) : NodeId := if path.head? = some slash then 0 else s.cwdNode

/-- `resolve_path`: `none` for `-1`. -/
def resolvePath (s : VfsState) (path : Str) : Option NodeId :=
  if !s.ready || path.isEmpty then none
  else resolveLoop s path.length path (startNode s path)

/-- The pending component `last` of `resolve_parent` is entered once a later one
is seen; it has to be a directory. -/
def enterLast (s : VfsState) (node : NodeId) : Option Str → Option NodeId
  | none => some node
  | some last =>
    if last = dotdot then some (upFrom s node)
    else
      match findChild s node last with
      | none => none
      | some n => if (s.nodes n).type = .dir then some n else none

/-- The loop of `resolve_parent` with the step after it: `.` is skipped only while
more of the path follows. -/
def parentLoop (s : VfsState) : ℕ → Str → NodeId → Option Str → Option (NodeId × Option Str)
  | 0, _, node, last => some (node, last)
  | fuel + 1, p, node, last =>
    let (seg, rest) := nextSegment p
    if rest = [] then
      if seg = [] then some (node, last)
      else (enterLast s node last).map fun node => (node, some seg)
    else if seg = [] ∨ seg = dot then parentLoop s fuel rest node last
    else
      match enterLast s node last with
      | none => none
      | some node => parentLoop s fuel rest node (some seg)

/-- `resolve_parent`: the directory and the leaf name. -/
def resolveParent (s : VfsState) (path : Str) : Option (NodeId × Str) :=
  if path = [] then none
  else
    match parentLoop s path.length path (startNode s path) none with
    | some (node, some last) =>
      if last = [] ∨ last = dot ∨ last = dotdot then none else some (node, last)
    | _ => none

end ExoCore.Vfs
