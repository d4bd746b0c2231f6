/-
  ExoCore.Vfs.Step — calls, runs, and WHAT A CALL CAN DO TO THE TREE.

  A run is any sequence of calls by any callers.  The invariants of the tree are
  not proved call by call: `exec_tree` says once that a call leaves the tree
  alone, adds one node, moves one node, removes one node or changes the current
  directory, and each invariant is then checked against these five.
-/
import ExoCore.Vfs.Ops
import ExoCore.Vfs.Walk
import ExoCore.Lib.Run

namespace ExoCore.Vfs

open ExoCore.Lib Function

/-! ## §1. Calls. -/

/-- A call of the interface. -/
inductive Op where
  | mkdir (path : Str)
  | unlink (path : Str)
  | rmdir (path : Str)
  | rename (oldPath newPath : Str)
  | chdir (path : Str)
  | access (path : Str) (mode : ℤ)
  | stat (path : Str)
  | open (path : Str) (flags : ℕ)
  | close (fd : ℤ)
  | read (fd : ℤ) (buf : Bool) (len : ℕ)
  | write (fd : ℤ) (buf : Option (List UInt8))
  | lseek (fd : ℤ) (offset : ℤ) (whence : ℤ)
  | fstat (fd : ℤ)
  | getdents (fd : ℤ) (buf : Bool) (maxEnts : ℕ)

/-- The calls that work at the cursor of a file. -/
def Op.OnCursor : Op → Prop
  | .read _ _ _ | .write _ _ | .lseek _ _ _ => True
  | _ => False

/-- The answer of a call. -/
inductive Ret where
  /-- `-1`. -/
  | fail
  | done
  | fd (slot : Slot)
  | bytes (l : List UInt8)
  | count (n : ℕ)
  | pos (n : ℕ)
  | stat (st : VfsStat)
  | dents (l : List VfsDirent)
  deriving Repr, DecidableEq

/-- `0` or `-1`. -/
def Ret.ofBool : Bool → Ret
  | true => .done
  | false => .fail

/-- `-1`, or the value. -/
def Ret.ofOption {α : Type} (f : α → Ret) : Option α → Ret
  | none => .fail
  | some a => f a

/-- Perform a call. -/
def exec (alloc : Allocator) (s : VfsState) : Op → Except Fault (Ret × VfsState)
  | .mkdir path => .ok ((vfsMkdir s path).map Ret.ofBool id)
  | .unlink path => (vfsUnlink s path).map (Prod.map Ret.ofBool id)
  | .rmdir path => (vfsRmdir s path).map (Prod.map Ret.ofBool id)
  | .rename oldPath newPath => .ok ((vfsRename s oldPath newPath).map Ret.ofBool id)
  | .chdir path => .ok ((vfsChdir s path).map Ret.ofBool id)
  | .access path mode => .ok (Ret.ofBool (vfsAccess s path mode), s)
  | .stat path => .ok (Ret.ofOption .stat (vfsStat s path), s)
  | .open path flags => (vfsOpen alloc s path flags).map (Prod.map (Ret.ofOption .fd) id)
  | .close fd => .ok ((vfsClose s fd).map Ret.ofBool id)
  | .read fd buf len => (vfsRead s fd buf len).map (Prod.map (Ret.ofOption .bytes) id)
  | .write fd buf => (vfsWrite alloc s fd buf).map (Prod.map (Ret.ofOption .count) id)
  | .lseek fd offset whence => .ok ((vfsLseek s fd offset whence).map (Ret.ofOption .pos) id)
  | .fstat fd => .ok (Ret.ofOption .stat (vfsFstat s fd), s)
  | .getdents fd buf maxEnts => .ok ((vfsGetdents s fd buf maxEnts).map (Ret.ofOption .dents) id)

/-- The contract of `mem_alloc`: `NULL`, or a block that is not live yet and has
at least the bytes asked for. -/
def AllocOk (alloc : Allocator) (s : VfsState) : Prop :=
  ∀ n p b, alloc n = some (p, b) → p ≠ 0 ∧ s.bufs p = none ∧ n ≤ b.len

/-- One call of a run: it meets `guard`, the allocator keeps its contract, and the
call returns. -/
structure Call (guard : VfsState → Op → Prop) (s : VfsState) (op : Op) (r : Ret)
    (s' : VfsState) : Prop where
  ok : guard s op
  ret : ∃ alloc, AllocOk alloc s ∧ exec alloc s op = .ok (r, s')

/-- One step of a run. -/
def Step (guard : VfsState → Op → Prop) (s s' : VfsState) : Prop := ∃ op r, Call guard s op r s'

/-- Any number of calls. -/
abbrev Run (guard : VfsState → Op → Prop) : VfsState → VfsState → Prop :=
  Relation.ReflTransGen (Step guard)

/-! ## §2. Buffers and the node table. -/

/-- What the tree is made of: a node without its file data. -/
structure Entry where
  used : Bool
  inode : ℕ
  type : NodeType
  parent : NodeId
  name : Str
  deriving DecidableEq

def VfsNode.entry (n : VfsNode) : Entry := ⟨n.used, n.inode, n.type, n.parent, n.name⟩

def VfsState.entry (s : VfsState) (i : NodeId) : Entry := (s.nodes i).entry

/-- Only buffers changed. -/
def OnlyBufs (s s' : VfsState) : Prop := ∃ bufs, s' = { s with bufs := bufs }

variable {s s' s'' : VfsState} {i : NodeId}

theorem writeBuf_onlyBufs {ptr off : ℕ} {bytes : List UInt8}
    (h : writeBuf s ptr off bytes = .ok s') : OnlyBufs s s' := by
  unfold writeBuf at h
  split at h
  · cases h
    exact ⟨s.bufs, rfl⟩
  · split at h
    · cases h
    · split at h
      · cases h
        exact ⟨_, rfl⟩
      · cases h

theorem freeBuf_onlyBufs {ptr size : ℕ} (h : freeBuf s ptr size = .ok s') :
    OnlyBufs s s' := by
  unfold freeBuf at h
  split at h
  · cases h
  · split at h
    · cases h
    · cases h
      exact ⟨_, rfl⟩

theorem freeData_onlyBufs {node : VfsNode} (h : freeData s node = .ok s') :
    OnlyBufs s s' := by
  unfold freeData at h
  split at h
  · exact freeBuf_onlyBufs h
  · cases h
    exact ⟨s.bufs, rfl⟩

theorem OnlyBufs.trans (h : OnlyBufs s s') (h' : OnlyBufs s' s'') :
    OnlyBufs s s'' := by
  obtain ⟨b, rfl⟩ := h
  obtain ⟨b', rfl⟩ := h'
  exact ⟨b', rfl⟩

/-- `ensure_capacity` changes buffers, and the data pointer and capacity of its
node. -/
theorem ensureCapacity_frame {alloc : Allocator} {need : ℕ}
    {ok : Bool} (h : ensureCapacity alloc s i need = .ok (ok, s')) :
    ∃ bufs data cap, s' = ({ s with bufs := bufs } : VfsState).setNode i
      { s.nodes i with data := data, capacity := cap } := by
  have hsame : s = ({ s with bufs := s.bufs } : VfsState).setNode i
      { s.nodes i with data := (s.nodes i).data, capacity := (s.nodes i).capacity } := by
    simp [VfsState.setNode]
  unfold ensureCapacity at h
  dsimp only at h
  split at h
  · cases h
    exact ⟨_, _, _, hsame⟩
  split at h
  · cases h
  split at h
  · cases h
    exact ⟨_, _, _, hsame⟩
  · simp only [bind_ok] at h
    obtain ⟨old, -, s₁, hw, s₂, hf, hret⟩ := h
    cases hret
    obtain ⟨b, hb⟩ := (writeBuf_onlyBufs hw).trans (freeData_onlyBufs hf)
    exact ⟨b, _, _, by rw [hb]⟩

theorem openSlot_some {fd : ℤ} {slot : Slot} (h : openSlot s fd = some slot) :
    fd = (slot.val : ℤ) ∧ (s.openFiles slot).used = true := by
  unfold openSlot at h
  split at h
  · rename_i hfd
    dsimp only at h
    split at h
    · rename_i hused
      cases h
      exact ⟨by simp [hfd.1], hused⟩
    · cases h
  · cases h

theorem openSlot_of_used {slot : Slot} (h : (s.openFiles slot).used = true) :
    openSlot s (slot.val : ℤ) = some slot := by
  have hlt := slot.isLt
  rw [openSlot, dif_pos (by omega)]
  simp [h]

/-- The cursor a write starts from. -/
def cursor (s : VfsState) (slot : Slot) : ℕ :=
  if hasFlag (s.openFiles slot).flags vfsOAppend then (s.nodes (s.openFiles slot).node).size
  else (s.openFiles slot).offset

section Write

variable (s : VfsState) (slot : Slot) (stop : ℕ)

theorem seekAppend_eq :
    seekAppend s slot = s.setOpen slot { s.openFiles slot with offset := cursor s slot } := by
  unfold seekAppend cursor
  dsimp only
  split
  · rfl
  · show s = s.setOpen slot (s.openFiles slot)
    unfold VfsState.setOpen
    rw [update_eq_self]

theorem seekAppend_nodes : (seekAppend s slot).nodes = s.nodes := by
  rw [seekAppend_eq]
  rfl

theorem seekAppend_slot :
    (seekAppend s slot).openFiles slot = { s.openFiles slot with offset := cursor s slot } := by
  rw [seekAppend_eq]
  exact update_self _ _ _

theorem seekAppend_bufs : (seekAppend s slot).bufs = s.bufs := by
  rw [seekAppend_eq]
  rfl

theorem AllocOk.seekAppend {s : VfsState} {alloc : Allocator} (ha : AllocOk alloc s) (slot : Slot) :
    AllocOk alloc (seekAppend s slot) := by
  unfold AllocOk
  rw [seekAppend_bufs]
  exact ha

/-- The size of the file becomes the larger of its size and `stop`. -/
theorem advance_eq :
    advance s slot stop = (s.setOpen slot { s.openFiles slot with offset := stop }).setNode
      (s.openFiles slot).node { s.nodes (s.openFiles slot).node with
        size := max (s.nodes (s.openFiles slot).node).size stop } := by
  by_cases hlt : (s.nodes (s.openFiles slot).node).size < stop
  · rw [max_eq_right (le_of_lt hlt)]
    exact if_pos hlt
  · rw [max_eq_left (not_lt.mp hlt)]
    refine (if_neg hlt).trans ?_
    simp [VfsState.setNode, VfsState.setOpen]

theorem advance_nodes : (advance s slot stop).nodes = update s.nodes (s.openFiles slot).node
    { s.nodes (s.openFiles slot).node with
      size := max (s.nodes (s.openFiles slot).node).size stop } :=
  congrArg VfsState.nodes (advance_eq s slot stop)

theorem advance_openFiles : (advance s slot stop).openFiles =
    update s.openFiles slot { s.openFiles slot with offset := stop } :=
  congrArg VfsState.openFiles (advance_eq s slot stop)

theorem advance_bufs : (advance s slot stop).bufs = s.bufs := by
  rw [advance_eq]
  rfl

end Write

/-- **`vfs_write`** past its checks changes buffers, the cursor of its slot, and the data of
the slot's file. -/
theorem writeFile_frame {alloc : Allocator} {slot : Slot} {bytes : List UInt8} {r : Option ℕ}
    (h : writeFile alloc s slot bytes = .ok (r, s')) :
    ∃ bufs o data cap n, s' =
      (({ s with bufs := bufs } : VfsState).setOpen slot { s.openFiles slot with offset := o }).setNode
        (s.openFiles slot).node { s.nodes (s.openFiles slot).node with
          data := data, capacity := cap, size := n } := by
  obtain ⟨⟨ok, s₁⟩, hcap, hret⟩ := bind_ok.mp h
  simp only [seekAppend_eq, VfsState.setOpen, update_self] at hcap hret
  obtain ⟨b, d, c, rfl⟩ := ensureCapacity_frame hcap
  cases ok with
  | false =>
    cases hret
    exact ⟨b, _, d, c, _, rfl⟩
  | true =>
    obtain ⟨s₂, hw, hret⟩ := bind_ok.mp hret
    cases hret
    obtain ⟨b', rfl⟩ := writeBuf_onlyBufs hw
    simp only [advance_eq, VfsState.setOpen, VfsState.setNode, update_self, update_idem]
    exact ⟨b', _, d, c, _, rfl⟩

/-- **`alloc_node`** takes the first free slot and the next inode number. -/
theorem allocNode_some {t : NodeType} {p : NodeId} {leaf : Str}
    (h : allocNode s t p leaf = some (i, s')) :
    freeNode s = some i ∧ s' = { s.setNode i (newNode s t p leaf) with
      nextInode := (s.nextInode + 1) % 2 ^ 32 } := by
  unfold allocNode at h
  split at h
  · cases h
  · rename_i j hj
    cases h
    exact ⟨hj, rfl⟩

/-- **Removing a node** clears its slot and changes buffers. -/
theorem dropNode_frame {b : Bool} (h : dropNode s i = .ok (b, s')) :
    ∃ bufs, s' = ({ s with bufs := bufs } : VfsState).setNode i VfsNode.zero := by
  obtain ⟨s₁, hf, hret⟩ := bind_ok.mp h
  cases hret
  obtain ⟨bufs, rfl⟩ := freeData_onlyBufs hf
  exact ⟨bufs, rfl⟩

/-! ## §3. What a call can do. -/

/-- The tree is the same. -/
structure SameTree (s s' : VfsState) : Prop where
  entry : s'.entry = s.entry
  cwdNode : s'.cwdNode = s.cwdNode
  ready : s'.ready = s.ready

/-- The first free slot `i` became a node of type `t` below `p`, named after `leaf`. -/
structure Adds (s s' : VfsState) (i : NodeId) (t : NodeType) (p : NodeId) (leaf : Str) : Prop where
  free : freeNode s = some i
  entry : s'.entry = update s.entry i ⟨true, s.nextInode, t, p, copyName leaf⟩
  cwdNode : s'.cwdNode = s.cwdNode
  ready : s'.ready = s.ready

/-- `node` was moved below `p` and renamed after `leaf`. -/
structure Moves (s s' : VfsState) (node p : NodeId) (leaf : Str) : Prop where
  entry : s'.entry =
    update s.entry node { s.entry node with parent := p, name := copyName leaf }
  cwdNode : s'.cwdNode = s.cwdNode
  ready : s'.ready = s.ready

/-- The slot of `node` was cleared; a removed current directory falls back to the
root. -/
structure Removes (s s' : VfsState) (node : NodeId) : Prop where
  notRoot : node ≠ 0
  childless : childCount s node = 0
  entry : s'.entry = update s.entry node VfsNode.zero.entry
  cwdNode : s'.cwdNode = s.cwdNode ∧ (s.nodes node).type ≠ .dir ∨
    s'.cwdNode = if s.cwdNode = node then 0 else s.cwdNode
  ready : s'.ready = s.ready

/-- **The five things a call can do to the tree.** -/
inductive TreeStep (s : VfsState) : Op → VfsState → Prop
  | same {op : Op} {s' : VfsState} (h : SameTree s s') : TreeStep s op s'
  | mkdir {path leaf : Str} {p i : NodeId} {s' : VfsState}
      (hpath : resolveParent s path = some (p, leaf)) (hnew : findChild s p leaf = none)
      (h : Adds s s' i .dir p leaf) : TreeStep s (.mkdir path) s'
  | create {path leaf : Str} {flags : ℕ} {p i : NodeId} {s' : VfsState}
      (hnone : resolvePath s path = none) (hcreat : hasFlag flags vfsOCreat = true)
      (hpath : resolveParent s path = some (p, leaf))
      (h : Adds s s' i .file p leaf) : TreeStep s (.open path flags) s'
  | rename {oldPath newPath leaf : Str} {node p : NodeId} {s' : VfsState}
      (hold : resolvePath s oldPath = some node) (hroot : node ≠ 0)
      (hpath : resolveParent s newPath = some (p, leaf)) (hnew : findChild s p leaf = none)
      (h : Moves s s' node p leaf) : TreeStep s (.rename oldPath newPath) s'
  | remove {op : Op} {path : Str} {node : NodeId} {s' : VfsState}
      (hop : op = .unlink path ∨ op = .rmdir path) (hpath : resolvePath s path = some node)
      (h : Removes s s' node) : TreeStep s op s'
  | chdir {path : Str} {node : NodeId} {s' : VfsState} (hpath : resolvePath s path = some node)
      (hdir : (s.nodes node).type = .dir) (hentry : s'.entry = s.entry)
      (hcwd : s'.cwdNode = node) (hready : s'.ready = s.ready) : TreeStep s (.chdir path) s'

theorem SameTree.refl (s : VfsState) : SameTree s s := ⟨rfl, rfl, rfl⟩

theorem SameTree.trans (h : SameTree s s') (h' : SameTree s' s'') :
    SameTree s s'' :=
  ⟨h'.entry.trans h.entry, h'.cwdNode.trans h.cwdNode, h'.ready.trans h.ready⟩

theorem entry_setNode (s : VfsState) (i : NodeId) (n : VfsNode) :
    (s.setNode i n).entry = update s.entry i n.entry := by
  funext j
  by_cases hj : j = i
  · subst hj
    simp [VfsState.entry, VfsState.setNode]
  · simp [VfsState.entry, VfsState.setNode, hj]

theorem moves_setNode (s : VfsState) (node p : NodeId) (leaf : Str) :
    Moves s (s.setNode node { s.nodes node with parent := p, name := copyName leaf }) node p leaf :=
  ⟨entry_setNode s node _, rfl, rfl⟩

/-- Rewriting file data keeps the tree. -/
theorem sameTree_setNode {n : VfsNode}
    (h : n.entry = (s.nodes i).entry) : SameTree s (s.setNode i n) := by
  refine ⟨?_, rfl, rfl⟩
  rw [entry_setNode, h]
  exact update_eq_self i s.entry

theorem sameTree_setOpen (s : VfsState) (fd : Slot) (o : VfsOpen) : SameTree s (s.setOpen fd o) :=
  ⟨rfl, rfl, rfl⟩

theorem allocNode_adds {t : NodeType} {p : NodeId} {leaf : Str}
    (h : allocNode s t p leaf = some (i, s')) : Adds s s' i t p leaf := by
  obtain ⟨hfree, rfl⟩ := allocNode_some h
  exact ⟨hfree, entry_setNode s i _, rfl, rfl⟩

theorem Adds.then_same {p : NodeId} {t : NodeType} {leaf : Str}
    (h : Adds s s' i t p leaf) (h' : SameTree s' s'') : Adds s s'' i t p leaf :=
  ⟨h.free, h'.entry.trans h.entry, h'.cwdNode.trans h.cwdNode, h'.ready.trans h.ready⟩

/-- Only the table of open files is touched. -/
theorem claimSlot_rest (s : VfsState) (node : NodeId) (flags : ℕ) :
    (claimSlot s node flags).2.nodes = s.nodes ∧ (claimSlot s node flags).2.bufs = s.bufs := by
  unfold claimSlot
  split <;> exact ⟨rfl, rfl⟩

theorem claimSlot_sameTree (s : VfsState) (node : NodeId) (flags : ℕ) :
    SameTree s (claimSlot s node flags).2 := by
  unfold claimSlot
  split
  · exact SameTree.refl s
  · exact sameTree_setOpen s _ _

section Calls

variable {alloc : Allocator} {s s' : VfsState}

variable {path : Str} {flags : ℕ} {b : Bool} {op : Op}

/-- The node `vfs_open` works on exists already, or is added. -/
theorem openNode_cases {node : NodeId}
    (h : openNode s path flags = some (node, s')) :
    (resolvePath s path = some node ∧ s' = s) ∨
      (resolvePath s path = none ∧ hasFlag flags vfsOCreat = true ∧
        ∃ p leaf, resolveParent s path = some (p, leaf) ∧
          allocNode s .file p leaf = some (node, s')) := by
  unfold openNode at h
  split at h
  · rename_i n hn
    cases h
    exact .inl ⟨hn, rfl⟩
  · rename_i hnone
    split at h
    · rename_i hcreat
      split at h
      · cases h
      · rename_i p leaf hpath
        exact .inr ⟨hnone, hcreat, p, leaf, hpath, h⟩
    · cases h

/-- The file as `vfs_open` leaves it before it looks for a slot. -/
def truncated (s : VfsState) (node : NodeId) (flags : ℕ) : VfsState :=
  if hasFlag flags vfsOTrunc ∧ (s.nodes node).type = .file
    then s.setNode node { s.nodes node with size := 0 } else s

theorem truncate_eq (alloc : Allocator) (s : VfsState) (i : NodeId) (flags : ℕ) :
    truncate alloc s i flags = .ok (truncated s i flags) := by
  unfold truncate truncated
  split
  · rw [ensureCapacity, if_pos (Nat.zero_le _)]
    rfl
  · rfl

theorem truncated_sameTree (s : VfsState) (node : NodeId) (flags : ℕ) :
    SameTree s (truncated s node flags) := by
  unfold truncated
  split
  · exact sameTree_setNode rfl
  · exact SameTree.refl s

/-- The ways through `vfs_open`: no node; a directory that may not be opened so; or a
search for a slot with the file ready. -/
theorem vfsOpen_cases {r : Option Slot}
    (h : vfsOpen alloc s path flags = .ok (r, s')) :
    (openNode s path flags = none ∧ r = none ∧ s' = s) ∨
      (∃ node, resolvePath s path = some node ∧ (s.nodes node).type = .dir ∧ r = none ∧ s' = s) ∨
      ∃ node s₁, openNode s path flags = some (node, s₁) ∧
        (r, s') = claimSlot (truncated s₁ node flags) node flags := by
  unfold vfsOpen at h
  split at h
  · rename_i hnone
    cases h
    exact .inl ⟨hnone, rfl, rfl⟩
  rename_i node s₁ hnode
  split at h
  · rename_i hdir
    cases h
    -- a node that was just created is a file
    obtain ⟨hpath, rfl⟩ | ⟨-, -, p, leaf, -, halloc⟩ := openNode_cases hnode
    · exact .inr (.inl ⟨node, hpath, hdir.1, rfl, rfl⟩)
    · obtain ⟨-, rfl⟩ := allocNode_some halloc
      have hfile := hdir.1
      simp [VfsState.setNode, newNode] at hfile
  · rw [truncate_eq] at h
    exact .inr (.inr ⟨node, s₁, hnode, (Except.ok.inj h).symm⟩)

/-- `vfs_open` always comes back: cutting a file needs no memory. -/
theorem vfsOpen_returns (alloc : Allocator) (s : VfsState) (path : Str) (flags : ℕ) :
    ∃ r s', vfsOpen alloc s path flags = .ok (r, s') := by
  unfold vfsOpen
  split
  · exact ⟨_, _, rfl⟩
  split
  · exact ⟨_, _, rfl⟩
  · rw [truncate_eq]
    exact ⟨_, _, rfl⟩

/-- A listing has at most one entry per slot, and none when it starts past the last. -/
theorem getdentsLoop_length (s : VfsState) (dir : NodeId) (offset maxEnts : ℕ) :
    ∀ (l : List NodeId) (index emitted : ℕ),
      (getdentsLoop s dir offset maxEnts l index emitted).length ≤ l.length ∧
        (getdentsLoop s dir offset maxEnts l index emitted).length ≤ index + l.length - offset := by
  intro l
  induction l with
  | nil => exact fun _ _ => ⟨Nat.zero_le _, Nat.zero_le _⟩
  | cons i rest ih =>
    intro index emitted
    rw [getdentsLoop, List.length_cons]
    split
    · split
      · have := ih index emitted
        omega
      · split
        · have := ih (index + 1) emitted
          omega
        · rw [List.length_cons]
          have := ih (index + 1) (emitted + 1)
          omega
    · exact ⟨Nat.zero_le _, Nat.zero_le _⟩

/-- The answers of a call that leaves the state as it is: a refusal, with its reason where a file or
a descriptor is to blame, a look, or a read at the end of the file. -/
def Idle (s : VfsState) : Op → Ret → Prop
  | .access _ _, _ | .stat _, _ => True
  | .fstat fd, r => r = Ret.ofOption .stat (vfsFstat s fd)
  | .close fd, r => r = .fail ∧ openSlot s fd = none
  | .read fd buf _, r =>
    (r = .fail ∧ (buf = false ∨
      ∀ k, openSlot s fd = some k → (s.nodes (s.openFiles k).node).type ≠ .file)) ∨
    (r = .bytes [] ∧ buf = true ∧ ∃ k, openSlot s fd = some k ∧
      (s.nodes (s.openFiles k).node).type = .file ∧
      (s.nodes (s.openFiles k).node).size ≤ (s.openFiles k).offset)
  | .write fd buf, r => r = .fail ∧ (buf = none ∨
      ∀ k, openSlot s fd = some k → (s.nodes (s.openFiles k).node).type ≠ .file)
  | .lseek fd offset whence, r => r = .fail ∧ ∀ k base, openSlot s fd = some k →
      seekBase s k whence = some base → toLong (base + offset) < 0
  | _, r => r = .fail

/-- **What a call that returns has done and answered.**  Every invariant of the development is
checked against these, not against the fourteen calls. -/
inductive Effect (alloc : Allocator) (s : VfsState) : Op → Ret → VfsState → Prop
  | none {op : Op} {r : Ret} (h : Idle s op r) : Effect alloc s op r s
  | mkdir {path leaf : Str} {p i : NodeId} {s' : VfsState}
      (hpath : resolveParent s path = some (p, leaf)) (hnew : findChild s p leaf = .none)
      (halloc : allocNode s .dir p leaf = some (i, s')) : Effect alloc s (.mkdir path) .done s'
  | unlink {path : Str} {node : NodeId} {b : Bool} {s' : VfsState}
      (hpath : resolvePath s path = some node) (hroot : node ≠ 0) (hfile : (s.nodes node).type ≠ .dir)
      (hleaf : childCount s node = 0) (hdrop : dropNode s node = .ok (b, s')) :
      Effect alloc s (.unlink path) (Ret.ofBool b) s'
  | rmdir {path : Str} {node : NodeId} {b : Bool} {s' : VfsState}
      (hpath : resolvePath s path = some node) (hroot : node ≠ 0) (hdir : (s.nodes node).type = .dir)
      (hleaf : childCount s node = 0)
      (hdrop : dropNode { s with cwdNode := if s.cwdNode = node then 0 else s.cwdNode } node =
        .ok (b, s')) : Effect alloc s (.rmdir path) (Ret.ofBool b) s'
  | rename {oldPath newPath leaf : Str} {node p : NodeId}
      (hold : resolvePath s oldPath = some node) (hroot : node ≠ 0)
      (hpath : resolveParent s newPath = some (p, leaf)) (hnew : findChild s p leaf = .none) :
      Effect alloc s (.rename oldPath newPath) .done
        (s.setNode node { s.nodes node with parent := p, name := copyName leaf })
  | chdir {path : Str} {node : NodeId} (hpath : resolvePath s path = some node)
      (hdir : (s.nodes node).type = .dir) :
      Effect alloc s (.chdir path) .done { s with cwdNode := node }
  | open {path : Str} {flags : ℕ} {node : NodeId} {s₁ : VfsState}
      (hnode : openNode s path flags = some (node, s₁)) :
      Effect alloc s (.open path flags)
        (Ret.ofOption .fd (claimSlot (truncated s₁ node flags) node flags).1)
        (claimSlot (truncated s₁ node flags) node flags).2
  | close {fd : ℤ} {k : Slot} (hk : openSlot s fd = some k) :
      Effect alloc s (.close fd) .done (s.setOpen k VfsOpen.zero)
  | read {fd : ℤ} {len : ℕ} {k : Slot} {l : List UInt8} (hk : openSlot s fd = some k)
      (hfile : (s.nodes (s.openFiles k).node).type = .file)
      (hin : (s.openFiles k).offset < (s.nodes (s.openFiles k).node).size)
      (hlen : l.length = if (s.nodes (s.openFiles k).node).size < add64 (s.openFiles k).offset len
        then (s.nodes (s.openFiles k).node).size - (s.openFiles k).offset else len)
      (hread : readBuf s (s.nodes (s.openFiles k).node).data (s.openFiles k).offset l.length =
        .ok l) :
      Effect alloc s (.read fd true len) (.bytes l)
        (s.setOpen k { s.openFiles k with offset := add64 (s.openFiles k).offset l.length })
  | lseek {fd offset whence base : ℤ} {k : Slot} (hk : openSlot s fd = some k)
      (hbase : seekBase s k whence = some base) (hpos : 0 ≤ toLong (base + offset)) :
      Effect alloc s (.lseek fd offset whence) (.pos (toLong (base + offset)).toNat)
        (s.setOpen k { s.openFiles k with offset := (toLong (base + offset)).toNat })
  | getdents {fd : ℤ} {maxEnts : ℕ} {k : Slot} {l : List VfsDirent} (hk : openSlot s fd = some k)
      (hdir : (s.nodes (s.openFiles k).node).type = .dir)
      (hl : l = getdentsLoop s (s.openFiles k).node (s.openFiles k).offset maxEnts
        (List.finRange 64) 0 0) :
      Effect alloc s (.getdents fd true maxEnts) (.dents l)
        (s.setOpen k { s.openFiles k with offset := add64 (s.openFiles k).offset l.length })
  | write {fd : ℤ} {k : Slot} {bytes : List UInt8} {r : Option ℕ} {s' : VfsState}
      (hk : openSlot s fd = some k) (hfile : (s.nodes (s.openFiles k).node).type = .file)
      (hwrite : writeFile alloc s k bytes = .ok (r, s')) :
      Effect alloc s (.write fd (some bytes)) (Ret.ofOption .count r) s'

section

variable (alloc : Allocator)

theorem vfsMkdir_effect (s : VfsState) (path : Str) :
    Effect alloc s (.mkdir path) (Ret.ofBool (vfsMkdir s path).1) (vfsMkdir s path).2 := by
  unfold vfsMkdir
  split
  · exact .none rfl
  rename_i p leaf hpath
  split
  · exact .none rfl
  rename_i hnew
  split
  · exact .none rfl
  · rename_i halloc
    exact .mkdir hpath (Option.not_isSome_iff_eq_none.mp hnew) halloc

theorem vfsUnlink_effect (h : vfsUnlink s path = .ok (b, s')) :
    Effect alloc s (.unlink path) (Ret.ofBool b) s' := by
  unfold vfsUnlink at h
  split at h
  · cases h
    exact .none rfl
  rename_i node hpath
  split at h
  · cases h
    exact .none rfl
  · rename_i hcond
    simp only [not_or, ne_eq, not_not] at hcond
    exact .unlink hpath hcond.1 hcond.2.1 hcond.2.2 h

/-- A removed current directory falls back to the root. -/
theorem leaveDir_eq (s : VfsState) (node : NodeId) :
    (if s.cwdNode = node then { s with cwdNode := 0 } else s : VfsState) =
      { s with cwdNode := if s.cwdNode = node then 0 else s.cwdNode } := by
  split <;> rfl

theorem vfsRmdir_effect (h : vfsRmdir s path = .ok (b, s')) :
    Effect alloc s (.rmdir path) (Ret.ofBool b) s' := by
  unfold vfsRmdir at h
  split at h
  · cases h
    exact .none rfl
  rename_i node hpath
  split at h
  · cases h
    exact .none rfl
  · rename_i hcond
    simp only [not_or, ne_eq, not_not] at hcond
    rw [leaveDir_eq] at h
    exact .rmdir hpath hcond.1 hcond.2.1 hcond.2.2 h

theorem vfsRename_effect (s : VfsState) (oldPath newPath : Str) :
    Effect alloc s (.rename oldPath newPath) (Ret.ofBool (vfsRename s oldPath newPath).1)
      (vfsRename s oldPath newPath).2 := by
  unfold vfsRename
  split
  · exact .none rfl
  rename_i node hold
  split
  · exact .none rfl
  rename_i hroot
  split
  · exact .none rfl
  rename_i p leaf hpath
  split
  · exact .none rfl
  · rename_i hnew
    exact .rename hold hroot hpath (Option.not_isSome_iff_eq_none.mp hnew)

theorem vfsChdir_effect (s : VfsState) (path : Str) :
    Effect alloc s (.chdir path) (Ret.ofBool (vfsChdir s path).1) (vfsChdir s path).2 := by
  unfold vfsChdir
  split
  · exact .none rfl
  rename_i node hpath
  split
  · exact .none rfl
  · rename_i hdir
    exact .chdir hpath (not_not.mp hdir)

theorem vfsOpen_effect {r : Option Slot} (h : vfsOpen alloc s path flags = .ok (r, s')) :
    Effect alloc s (.open path flags) (Ret.ofOption .fd r) s' := by
  obtain ⟨-, rfl, rfl⟩ | ⟨node, -, -, rfl, rfl⟩ | ⟨node, s₁, hnode, hclaim⟩ := vfsOpen_cases h
  · exact .none rfl
  · exact .none rfl
  · rw [show r = _ from congrArg Prod.fst hclaim, show s' = _ from congrArg Prod.snd hclaim]
    exact .open hnode

theorem vfsClose_effect (s : VfsState) (fd : ℤ) :
    Effect alloc s (.close fd) (Ret.ofBool (vfsClose s fd).1) (vfsClose s fd).2 := by
  unfold vfsClose
  split
  · exact .none ⟨rfl, ‹_›⟩
  · exact .close ‹_›

theorem readBuf_length {ptr off len : ℕ} {l : List UInt8} (h : readBuf s ptr off len = .ok l) :
    l.length = len := by
  unfold readBuf at h
  split at h
  · cases h
    exact Eq.symm ‹_›
  split at h
  · cases h
  split at h
  · cases h
    simp
  · cases h

theorem vfsRead_effect {fd : ℤ} {buf : Bool} {len : ℕ} {r : Option (List UInt8)}
    (h : vfsRead s fd buf len = .ok (r, s')) :
    Effect alloc s (.read fd buf len) (Ret.ofOption .bytes r) s' := by
  unfold vfsRead at h
  cases hk : openSlot s fd with
  | none =>
    rw [hk] at h
    cases h
    refine .none (.inl ⟨rfl, .inr fun k hk' => ?_⟩)
    cases hk.symm.trans hk'
  | some k =>
    rw [hk] at h
    dsimp only at h
    split at h
    · rename_i hcond
      cases h
      refine .none (.inl ⟨rfl, hcond.imp (fun hb => by simpa using hb) fun hne j hj => ?_⟩)
      cases hk.symm.trans hj
      exact hne
    rename_i hcond
    simp only [Bool.not_eq_true', not_or, Bool.not_eq_false, ne_eq, not_not] at hcond
    obtain ⟨rfl, hfile⟩ := hcond
    split at h
    · cases h
      exact .none (.inr ⟨rfl, rfl, k, hk, hfile, ‹_›⟩)
    · obtain ⟨l, hread, hret⟩ := bind_ok.mp h
      cases hret
      have hlen := readBuf_length hread
      rw [← hlen] at hread ⊢
      exact .read hk hfile (not_le.mp ‹_›) hlen hread

theorem vfsLseek_effect (s : VfsState) (fd offset whence : ℤ) :
    Effect alloc s (.lseek fd offset whence) (Ret.ofOption .pos (vfsLseek s fd offset whence).1)
      (vfsLseek s fd offset whence).2 := by
  unfold vfsLseek
  split
  · exact .none ⟨rfl, fun k base hk => by simp_all⟩
  rename_i slot hk
  split
  · exact .none ⟨rfl, fun k base hk => by simp_all⟩
  rename_i base hbase
  dsimp only
  split
  · exact .none ⟨rfl, fun k base hk hb => by grind⟩
  · exact .lseek hk hbase (not_lt.mp ‹_›)

theorem vfsGetdents_effect (s : VfsState) (fd : ℤ) (buf : Bool) (maxEnts : ℕ) :
    Effect alloc s (.getdents fd buf maxEnts)
      (Ret.ofOption .dents (vfsGetdents s fd buf maxEnts).1) (vfsGetdents s fd buf maxEnts).2 := by
  unfold vfsGetdents
  split
  · exact .none rfl
  rename_i slot hk
  dsimp only
  split
  · exact .none rfl
  · rename_i hcond
    simp only [Bool.not_eq_true', not_or, Bool.not_eq_false, ne_eq, not_not] at hcond
    rw [hcond.1]
    exact .getdents hk hcond.2 rfl

theorem vfsWrite_effect {fd : ℤ} {buf : Option (List UInt8)} {r : Option ℕ}
    (h : vfsWrite alloc s fd buf = .ok (r, s')) :
    Effect alloc s (.write fd buf) (Ret.ofOption .count r) s' := by
  unfold vfsWrite at h
  split at h
  · cases h
    exact .none ⟨rfl, .inr fun k hk => by simp_all⟩
  rename_i slot hk
  split at h
  · cases h
    exact .none ⟨rfl, .inl rfl⟩
  split at h
  · cases h
    exact .none ⟨rfl, .inr fun k hk => by simp_all⟩
  · rename_i hfile
    exact .write hk (not_not.mp hfile) h

end

theorem exec_effect {r : Ret} (h : exec alloc s op = .ok (r, s')) : Effect alloc s op r s' := by
  cases op with
  | mkdir path =>
    cases h
    exact vfsMkdir_effect alloc s path
  | unlink path =>
    obtain ⟨⟨b, t⟩, hret, heq⟩ := map_ok.mp h
    cases heq
    exact vfsUnlink_effect alloc hret
  | rmdir path =>
    obtain ⟨⟨b, t⟩, hret, heq⟩ := map_ok.mp h
    cases heq
    exact vfsRmdir_effect alloc hret
  | rename oldPath newPath =>
    cases h
    exact vfsRename_effect alloc s oldPath newPath
  | chdir path =>
    cases h
    exact vfsChdir_effect alloc s path
  | access path mode =>
    cases h
    exact .none trivial
  | stat path =>
    cases h
    exact .none trivial
  | «open» path flags =>
    obtain ⟨⟨o, t⟩, hret, heq⟩ := map_ok.mp h
    cases heq
    exact vfsOpen_effect alloc hret
  | close fd =>
    cases h
    exact vfsClose_effect alloc s fd
  | read fd buf len =>
    obtain ⟨⟨o, t⟩, hret, heq⟩ := map_ok.mp h
    cases heq
    exact vfsRead_effect alloc hret
  | write fd buf =>
    obtain ⟨⟨o, t⟩, hret, heq⟩ := map_ok.mp h
    cases heq
    exact vfsWrite_effect alloc hret
  | lseek fd offset whence =>
    cases h
    exact vfsLseek_effect alloc s fd offset whence
  | fstat fd =>
    cases h
    exact .none rfl
  | getdents fd buf maxEnts =>
    cases h
    exact vfsGetdents_effect alloc s fd buf maxEnts

/-! ## §4. The tree. -/

theorem dropNode_removes {node : NodeId} (h : dropNode s node = .ok (b, s')) :
    s'.entry = update s.entry node VfsNode.zero.entry ∧ s'.cwdNode = s.cwdNode ∧
      s'.ready = s.ready := by
  obtain ⟨bufs, rfl⟩ := dropNode_frame h
  exact ⟨entry_setNode _ node _, rfl, rfl⟩

theorem writeFile_sameTree {slot : Slot} {bytes : List UInt8} {r : Option ℕ}
    (h : writeFile alloc s slot bytes = .ok (r, s')) : SameTree s s' := by
  obtain ⟨b, o, d, c, n, rfl⟩ := writeFile_frame h
  refine ⟨?_, rfl, rfl⟩
  rw [entry_setNode]
  exact update_eq_self _ s.entry

/-- **What a call can do to the tree.** -/
theorem Effect.tree {r : Ret} (h : Effect alloc s op r s') : TreeStep s op s' := by
  cases h with
  | none _ => exact .same (SameTree.refl s)
  | mkdir hpath hnew halloc => exact .mkdir hpath hnew (allocNode_adds halloc)
  | unlink hpath hroot hfile hleaf hdrop =>
    obtain ⟨hentry, hcwd, hready⟩ := dropNode_removes hdrop
    exact .remove (.inl rfl) hpath ⟨hroot, hleaf, hentry, .inl ⟨hcwd, hfile⟩, hready⟩
  | rmdir hpath hroot _ hleaf hdrop =>
    obtain ⟨hentry, hcwd, hready⟩ := dropNode_removes hdrop
    exact .remove (.inr rfl) hpath ⟨hroot, hleaf, hentry, .inr hcwd, hready⟩
  | rename hold hroot hpath hnew =>
    exact .rename hold hroot hpath hnew (moves_setNode s _ _ _)
  | chdir hpath hdir => exact .chdir hpath hdir rfl rfl rfl
  | @«open» path flags node s₁ hnode =>
    -- whatever follows the choice of the node keeps the tree
    have hrest := (truncated_sameTree s₁ node flags).trans (claimSlot_sameTree _ node flags)
    rcases openNode_cases hnode with ⟨-, rfl⟩ | ⟨hnone, hcreat, p, leaf, hpath, halloc⟩
    · exact .same hrest
    · exact .create hnone hcreat hpath ((allocNode_adds halloc).then_same hrest)
  | close | read | lseek | getdents => exact .same (sameTree_setOpen s _ _)
  | write _ _ hwrite => exact .same (writeFile_sameTree hwrite)

theorem exec_tree {r : Ret} (h : exec alloc s op = .ok (r, s')) : TreeStep s op s' :=
  (exec_effect h).tree

end Calls

end ExoCore.Vfs
