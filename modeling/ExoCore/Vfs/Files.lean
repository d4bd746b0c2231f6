/-
  ExoCore.Vfs.Files — files are BYTE ARRAYS WITH CURSORS.

  The abstract model knows no buffers and no capacities: a file is a size and the
  last byte written at each position since it was created or truncated, and a
  descriptor is a cursor on a file.  `AStep` says what a call may answer and do.

  Main results:
    • `Related.effect` — what a call of the code did and answered is one step of the
      abstract model;
    • `Effect.frame` — it leaves every file alone that it does not target;
    • `files_refine` — every run of the code is a run of the abstract model.
-/
import ExoCore.Vfs.Ownership

namespace ExoCore.Vfs

open ExoCore.Lib Function List

/-! ## §1. The abstract model. -/

/-- A file as its users see it. -/
structure AFile where
  size : ℕ
  /-- The last byte written at a position since the file was created or truncated. -/
  written : ℕ → Option UInt8

/-- A new or truncated file. -/
def AFile.empty : AFile := ⟨0, fun _ => none⟩

/-- Store `bytes` at `c`. -/
def AFile.write (f : AFile) (c : ℕ) (bytes : List UInt8) : AFile where
  size := max f.size (c + bytes.length)
  written := fun p => if c ≤ p ∧ p < c + bytes.length then bytes[p - c]? else f.written p

/-- `l` is an answer to a read of `len` bytes at `c`: as many bytes as there are,
and at every position that was written the byte written last. -/
structure AFile.Reads (f : AFile) (c len : ℕ) (l : List UInt8) : Prop where
  length : l.length = min len (f.size - c)
  byte : ∀ k b, k < l.length → f.written (c + k) = some b → l[k]? = some b

/-- A descriptor. -/
structure ADesc where
  node : NodeId
  cursor : ℕ
  append : Bool

/-- Where a write starts. -/
def ADesc.start (d : ADesc) (f : AFile) : ℕ := if d.append then f.size else d.cursor

/-- Files by node, descriptors by slot; directories are no files. -/
structure AState where
  file : NodeId → Option AFile
  desc : Slot → Option ADesc

namespace AState

/-- After `vfs_init`. -/
def init : AState := ⟨fun _ => none, fun _ => none⟩

def setFile (a : AState) (n : NodeId) (f : Option AFile) : AState :=
  { a with file := update a.file n f }

def setDesc (a : AState) (k : Slot) (d : Option ADesc) : AState :=
  { a with desc := update a.desc k d }

/-- `fd` is the open slot `k`. -/
def Open (a : AState) (fd : ℤ) (k : Slot) (d : ADesc) : Prop :=
  fd = (k.val : ℤ) ∧ a.desc k = some d

/-- `fd` is no open slot. -/
def Closed (a : AState) (fd : ℤ) : Prop := ∀ k : Slot, fd = (k.val : ℤ) → a.desc k = none

/-- No descriptor is on `n`. -/
def Unopened (a : AState) (n : NodeId) : Prop := ∀ k d, a.desc k = some d → d.node ≠ n

/-- The size of a file, `0` for a directory. -/
def sizeOf (a : AState) (n : NodeId) : ℕ := ((a.file n).map AFile.size).getD 0

/-- The three bases of a seek. -/
def seekBase (a : AState) (d : ADesc) (whence : ℤ) : Option ℤ :=
  if whence = 0 then some 0
  else if whence = 1 then some (toLong d.cursor)
  else if whence = 2 then some (toLong (a.sizeOf d.node))
  else none

end AState

/-- What `open` does to the files before it looks for a descriptor. -/
inductive AOpen (a : AState) (flags : ℕ) (n : NodeId) : AState → Prop
  /-- The node exists and is kept. -/
  | keep (h : hasFlag flags vfsOTrunc = false ∨ a.file n = none) : AOpen a flags n a
  /-- The file exists and is truncated. -/
  | trunc {f : AFile} (h : hasFlag flags vfsOTrunc = true) (hf : a.file n = some f) :
      AOpen a flags n (a.setFile n (some .empty))
  /-- The file is new. -/
  | create (h : hasFlag flags vfsOCreat = true) (hf : a.file n = none) (hn : a.Unopened n) :
      AOpen a flags n (a.setFile n (some .empty))

/-- A call that touches neither files nor descriptors, whatever it answers. -/
def Op.IsTree : Op → Prop
  | .mkdir _ | .rmdir _ | .rename _ _ | .chdir _ | .access _ _ | .stat _ | .fstat _ => True
  | _ => False

/-- **One call of the abstract model.** -/
inductive AStep (a : AState) : Op × Ret → AState → Prop
  | tree {op : Op} {r : Ret} (h : op.IsTree) : AStep a (op, r) a
  | unlinkFail {path : Str} : AStep a (.unlink path, .fail) a
  | unlink {path : Str} {n : NodeId} (hn : a.Unopened n) :
      AStep a (.unlink path, .done) (a.setFile n none)
  /-- The path names nothing that can be opened. -/
  | openNone {path : Str} {flags : ℕ} : AStep a (.open path flags, .fail) a
  /-- No descriptor is left; what happened to the file stays. -/
  | openFull {path : Str} {flags : ℕ} {n : NodeId} {a₁ : AState} (h : AOpen a flags n a₁)
      (hfull : ∀ k, a.desc k ≠ none) : AStep a (.open path flags, .fail) a₁
  | open {path : Str} {flags : ℕ} {n : NodeId} {a₁ : AState} {k : Slot} (h : AOpen a flags n a₁)
      (hk : a.desc k = none) :
      AStep a (.open path flags, .fd k) (a₁.setDesc k (some
        ⟨n, if hasFlag flags vfsOAppend then a₁.sizeOf n else 0, hasFlag flags vfsOAppend⟩))
  | closeFail {fd : ℤ} (h : a.Closed fd) : AStep a (.close fd, .fail) a
  | close {fd : ℤ} {k : Slot} {d : ADesc} (h : a.Open fd k d) :
      AStep a (.close fd, .done) (a.setDesc k none)
  | readFail {fd : ℤ} {buf : Bool} {len : ℕ}
      (h : a.Closed fd ∨ buf = false ∨ ∃ k d, a.Open fd k d ∧ a.file d.node = none) :
      AStep a (.read fd buf len, .fail) a
  | read {fd : ℤ} {len : ℕ} {k : Slot} {d : ADesc} {f : AFile} {l : List UInt8}
      (h : a.Open fd k d) (hf : a.file d.node = some f) (hl : f.Reads d.cursor len l) :
      AStep a (.read fd true len, .bytes l)
        (a.setDesc k (some { d with cursor := d.cursor + l.length }))
  | writeFail {fd : ℤ} {buf : Option (List UInt8)}
      (h : a.Closed fd ∨ buf = none ∨ ∃ k d, a.Open fd k d ∧ a.file d.node = none) :
      AStep a (.write fd buf, .fail) a
  /-- No memory: the cursor of an appending descriptor is at the end already. -/
  | noMemory {fd : ℤ} {bytes : List UInt8} {k : Slot} {d : ADesc} {f : AFile}
      (h : a.Open fd k d) (hf : a.file d.node = some f) :
      AStep a (.write fd (some bytes), .fail) (a.setDesc k (some { d with cursor := d.start f }))
  | write {fd : ℤ} {bytes : List UInt8} {k : Slot} {d : ADesc} {f : AFile}
      (h : a.Open fd k d) (hf : a.file d.node = some f) :
      AStep a (.write fd (some bytes), .count bytes.length)
        ((a.setFile d.node (some (f.write (d.start f) bytes))).setDesc k
          (some { d with cursor := d.start f + bytes.length }))
  | lseekFail {fd offset whence : ℤ}
      (h : a.Closed fd ∨ ∃ k d, a.Open fd k d ∧
        ∀ base, a.seekBase d whence = some base → toLong (base + offset) < 0) :
      AStep a (.lseek fd offset whence, .fail) a
  | lseek {fd offset whence base : ℤ} {k : Slot} {d : ADesc} {n : ℕ} (h : a.Open fd k d)
      (hb : a.seekBase d whence = some base) (hn : toLong (base + offset) = n) :
      AStep a (.lseek fd offset whence, .pos n) (a.setDesc k (some { d with cursor := n }))
  | getdentsFail {fd : ℤ} {buf : Bool} {maxEnts : ℕ} : AStep a (.getdents fd buf maxEnts, .fail) a
  | getdents {fd : ℤ} {maxEnts : ℕ} {k : Slot} {d : ADesc} {l : List VfsDirent}
      (h : a.Open fd k d) (hf : a.file d.node = none) :
      AStep a (.getdents fd true maxEnts, .dents l)
        (a.setDesc k (some { d with cursor := add64 d.cursor l.length }))

/-! ## §2. The relation. -/

/-- A descriptor of the code. -/
def VfsOpen.desc (o : VfsOpen) : ADesc := ⟨o.node, o.offset, hasFlag o.flags vfsOAppend⟩

/-- The slot `i` and the abstract file in it. -/
def FileRef (s : VfsState) (i : NodeId) : Option AFile → Prop
  | none => (s.nodes i).type ≠ .file ∧ (s.nodes i).size = 0
  | some f => (s.nodes i).type = .file ∧ (s.nodes i).size = f.size ∧
      ∀ p b, f.written p = some b → p < f.size ∧ byteAt s i p = b

/-- **The code's state stands for an abstract state.** -/
structure Refines (s : VfsState) (a : AState) : Prop where
  file : ∀ i, FileRef s i (a.file i)
  desc : ∀ k, a.desc k = if (s.openFiles k).used then some (s.openFiles k).desc else none
  /-- No descriptor is on a removed node. -/
  live : ∀ k, (s.openFiles k).used = true → (s.entry (s.openFiles k).node).used = true

theorem setFile_self (a : AState) (i : NodeId) : a.setFile i (a.file i) = a := by
  unfold AState.setFile
  rw [update_eq_self]

theorem setDesc_self {a : AState} {k : Slot} {d : ADesc} (h : a.desc k = some d) :
    a.setDesc k (some d) = a := by
  unfold AState.setDesc
  rw [← h, update_eq_self]

section Relation

variable {s s' : VfsState} {a : AState} {i : NodeId} {k : Slot} {fd : ℤ}

theorem FileRef.congr {o : Option AFile} (h : FileRef s i o)
    (htype : (s'.nodes i).type = (s.nodes i).type) (hsize : (s'.nodes i).size = (s.nodes i).size)
    (hbyte : ∀ p, p < (s.nodes i).size → byteAt s' i p = byteAt s i p) : FileRef s' i o := by
  cases o with
  | none =>
    show (s'.nodes i).type ≠ .file ∧ (s'.nodes i).size = 0
    rw [htype, hsize]
    exact h
  | some f =>
    obtain ⟨h1, h2, h3⟩ := h
    refine ⟨htype.trans h1, hsize.trans h2, ?_⟩
    intro p b hp
    obtain ⟨hlt, hb⟩ := h3 p b hp
    exact ⟨hlt, (hbyte p (by omega)).trans hb⟩

section

variable (h : Refines s a)
include h

theorem Refines.open_of_slot (hk : openSlot s fd = some k) : a.Open fd k (s.openFiles k).desc := by
  obtain ⟨hfd, hused⟩ := openSlot_some hk
  refine ⟨hfd, ?_⟩
  rw [h.desc k, if_pos hused]

theorem Refines.closed_of_slot (hk : openSlot s fd = none) : a.Closed fd := by
  intro k hfd
  have hunused : (s.openFiles k).used ≠ true := by
    intro hused
    rw [hfd, openSlot_of_used hused] at hk
    cases hk
  rw [h.desc k, if_neg hunused]

/-- A node that no open slot is on. -/
theorem Refines.unopened {n : NodeId}
    (hn : ∀ k, (s.openFiles k).used = true → (s.openFiles k).node ≠ n) : a.Unopened n := by
  intro k d hd
  rw [h.desc k] at hd
  split at hd
  · rename_i hused
    cases hd
    exact hn k hused
  · cases hd

theorem Refines.file_none (ht : (s.nodes i).type ≠ .file) : a.file i = none := by
  have hi := h.file i
  cases hf : a.file i with
  | none => rfl
  | some f =>
    rw [hf] at hi
    exact absurd hi.1 ht

theorem Refines.file_some (ht : (s.nodes i).type = .file) :
    ∃ f, a.file i = some f ∧ (s.nodes i).size = f.size ∧
      ∀ p b, f.written p = some b → p < f.size ∧ byteAt s i p = b := by
  have hi := h.file i
  cases hf : a.file i with
  | none =>
    rw [hf] at hi
    exact absurd ht hi.1
  | some f =>
    rw [hf] at hi
    exact ⟨f, rfl, hi.2⟩

theorem Refines.sizeOf (i : NodeId) : a.sizeOf i = (s.nodes i).size := by
  have hi := h.file i
  unfold AState.sizeOf
  cases hf : a.file i with
  | none =>
    rw [hf] at hi
    exact hi.2.symm
  | some f =>
    rw [hf] at hi
    exact hi.2.1.symm

/-- The relation reads nodes, buffers and descriptors. -/
theorem Refines.congr (hn : s'.nodes = s.nodes) (hb : s'.bufs = s.bufs)
    (ho : s'.openFiles = s.openFiles) : Refines s' a := by
  refine ⟨?_, ?_, ?_⟩
  · intro i
    refine (h.file i).congr (by rw [hn]) (by rw [hn]) ?_
    intro p _
    unfold byteAt
    rw [hn, hb]
  · rw [ho]
    exact h.desc
  · intro k hk
    rw [ho] at hk ⊢
    unfold VfsState.entry
    rw [hn]
    exact h.live k hk

/-- A change to one slot of the node table. -/
theorem Refines.setFile (ho : Backed s) (ht : Touches s s' i) {o : Option AFile}
    (hi : FileRef s' i o) (hopen : s'.openFiles = s.openFiles)
    (hlive : (s.nodes i).used = true →
      (∃ k, (s.openFiles k).used = true ∧ (s.openFiles k).node = i) → (s'.nodes i).used = true) :
    Refines s' (a.setFile i o) := by
  refine ⟨?_, ?_, ?_⟩
  · refine (forall_update_iff a.file (FileRef s')).mpr ⟨hi, fun j hj => ?_⟩
    exact (h.file j).congr (by rw [ht.nodes j hj]) (ht.size hj) fun p hp => ht.byteAt ho hj hp
  · rw [hopen]
    exact h.desc
  · intro k hk
    rw [hopen] at hk ⊢
    have hlive' := h.live k hk
    by_cases hki : (s.openFiles k).node = i
    · rw [hki] at hlive' ⊢
      exact hlive hlive' ⟨k, hk, hki⟩
    · show ((s'.nodes _).entry).used = true
      rw [ht.nodes _ hki]
      exact hlive'

/-- One slot is rewritten and keeps its buffer. -/
theorem Refines.setNode (ho : Backed s) {x : VfsNode} {o : Option AFile}
    (hi : FileRef (s.setNode i x) i o) (hdata : x.data = (s.nodes i).data)
    (hused : x.used = (s.nodes i).used) : Refines (s.setNode i x) (a.setFile i o) := by
  refine h.setFile ho (touches_setNode s hdata) hi rfl fun hu _ => ?_
  show (update s.nodes i x i).used = true
  rw [update_self, hused, hu]

/-- A slot of the descriptor table changes. -/
theorem Refines.setSlot {o : VfsOpen} (hlive : o.used = true → (s.entry o.node).used = true) :
    Refines (s.setOpen k o) (a.setDesc k (if o.used then some o.desc else none)) := by
  refine ⟨h.file, fun j => ?_, ?_⟩
  · show update a.desc k _ j = if (update s.openFiles k o j).used then
      some (update s.openFiles k o j).desc else none
    by_cases hj : j = k
    · rw [hj, update_self, update_self]
    · rw [update_of_ne hj, update_of_ne hj]
      exact h.desc j
  · exact (forall_update_iff s.openFiles fun _ q => q.used = true → (s.entry q.node).used = true).mpr
      ⟨hlive, fun j _ => h.live j⟩

/-- A slot is filled or moved. -/
theorem Refines.setOpen {o : VfsOpen} (hused : o.used = true)
    (hlive : (s.entry o.node).used = true) :
    Refines (s.setOpen k o) (a.setDesc k (some o.desc)) := by
  have hset := h.setSlot (k := k) fun _ => hlive
  rwa [if_pos hused] at hset

end

end Relation

/-! ## §3. One call. -/

/-- A file keeps its size and its bytes, those never written included. -/
def SameFile (s s' : VfsState) (m : NodeId) : Prop :=
  (s.nodes m).type = .file → (s'.nodes m).type = .file ∧ (s'.nodes m).size = (s.nodes m).size ∧
    ∀ p, p < (s.nodes m).size → byteAt s' m p = byteAt s m p

/-- The file a call works on, if it is one that changes files. -/
def Targets (s : VfsState) (op : Op) (m : NodeId) : Prop :=
  match op with
  | .write fd _ => ∃ k, openSlot s fd = some k ∧ (s.openFiles k).node = m
  | .open path flags => hasFlag flags vfsOTrunc = true ∧ resolvePath s path = some m
  | .unlink path => resolvePath s path = some m
  | _ => False

/-- The condition on a call: positions stay below `2^63` (for a write, from the
cursor it starts at), and no node with an open descriptor is removed. -/
def Quiet (s : VfsState) : Op → Prop
  | .unlink path | .rmdir path => ∀ n, resolvePath s path = some n →
      ∀ k, (s.openFiles k).used = true → (s.openFiles k).node ≠ n
  | .read fd _ len => ∀ k, openSlot s fd = some k → (s.openFiles k).offset + len < 2 ^ 63
  | .write fd (some bytes) => ∀ k, openSlot s fd = some k → cursor s k + bytes.length < 2 ^ 63
  | _ => True

/-- What is true of a state and the abstract state it stands for. -/
structure Related (s : VfsState) (a : AState) : Prop where
  bounded : Bounded s
  wf : Wf s
  refines : Refines s a

section Frame

variable {s s' s'' : VfsState} {i m : NodeId}

theorem sameFile_of_eq (hn : s'.nodes = s.nodes) (hb : s'.bufs = s.bufs) (m : NodeId) :
    SameFile s s' m := by
  intro ht
  refine ⟨by rw [hn]; exact ht, by rw [hn], ?_⟩
  intro p _
  unfold byteAt
  rw [hn, hb]

theorem SameFile.trans (h : SameFile s s' m) (h' : SameFile s' s'' m) : SameFile s s'' m := by
  intro ht
  obtain ⟨h1, h2, h3⟩ := h ht
  obtain ⟨h4, h5, h6⟩ := h' h1
  refine ⟨h4, h5.trans h2, fun p hp => ?_⟩
  rw [h6 p (by rw [h2]; exact hp), h3 p hp]

/-- Slot `i` changed, and held no file or keeps it. -/
theorem Touches.sameFile (h : Touches s s' i) (ho : Backed s) (hm : m = i → SameFile s s' m) :
    SameFile s s' m := by
  by_cases hmi : m = i
  · exact hm hmi
  · intro ht
    refine ⟨by rw [h.nodes m hmi]; exact ht, h.size hmi, ?_⟩
    intro p hp
    exact h.byteAt ho hmi hp

theorem sameFile_of_type (h : (s.nodes m).type ≠ .file) : SameFile s s' m := fun ht => absurd ht h

/-- A new name and a new directory for a node. -/
theorem byteAt_rename (s : VfsState) (i p : NodeId) (name : Str) (q : ℕ) :
    byteAt (s.setNode i { s.nodes i with parent := p, name := name }) i q = byteAt s i q := by
  simp [byteAt, VfsState.setNode]

end Frame

section Effects

variable {alloc : Allocator} {s s' : VfsState} {a : AState} {i n p : NodeId} {t : NodeType}
  {leaf path : Str} {flags : ℕ} {fd : ℤ} {k : Slot} {c : ℕ} {bytes : List UInt8} {f : AFile}

section

variable (h : Related s a)
include h

/-- A free slot holds no file and is not open. -/
theorem Related.free (hi : (s.entry i).used = false) :
    (s.nodes i).type ≠ .file ∧
      ∀ k, (s.openFiles k).used = true → (s.openFiles k).node ≠ i := by
  constructor
  · intro ht
    have hnone : (s.nodes i).type = .none := h.wf.cleared i hi
    rw [ht] at hnone
    cases hnone
  · intro k hk hki
    have hlive := h.refines.live k hk
    rw [hki, hi] at hlive
    cases hlive

/-- A new node. -/
theorem Related.created (halloc : allocNode s t p leaf = some (i, s')) :
    (s.nodes i).type ≠ .file ∧ a.file i = none ∧ a.Unopened i ∧ (s'.entry i).used = true ∧
      Refines s' (a.setFile i (if t = .file then some .empty else none)) := by
  obtain ⟨-, htouch, hnew, hopen⟩ := h.bounded.allocNode halloc
  have hfree := h.free (freeNode_unused (allocNode_adds halloc).free)
  have hused : (s'.nodes i).used = true := by
    rw [hnew]
    rfl
  refine ⟨hfree.1, h.refines.file_none hfree.1, h.refines.unopened hfree.2, hused,
    h.refines.setFile h.bounded.toBacked htouch ?_ hopen fun _ _ => hused⟩
  split
  · refine ⟨?_, ?_, fun _ _ hp => by cases hp⟩
    · rw [hnew]
      assumption
    · rw [hnew]
      rfl
  · show (s'.nodes i).type ≠ .file ∧ (s'.nodes i).size = 0
    rw [hnew]
    exact ⟨‹_›, rfl⟩

/-- A descriptor that is open on no file. -/
theorem Related.noFile
    (hno : ∀ k, openSlot s fd = some k → (s.nodes (s.openFiles k).node).type ≠ .file) :
    a.Closed fd ∨ ∃ k d, a.Open fd k d ∧ a.file d.node = none := by
  cases hk : openSlot s fd with
  | none => exact .inl (h.refines.closed_of_slot hk)
  | some k => exact .inr ⟨k, _, h.refines.open_of_slot hk, h.refines.file_none (hno k hk)⟩

theorem Related.seekBase (whence : ℤ) :
    a.seekBase (s.openFiles k).desc whence = Vfs.seekBase s k whence := by
  unfold AState.seekBase Vfs.seekBase
  rw [h.refines.sizeOf]
  rfl

/-- **A call that leaves the state as it is.** -/
theorem Related.idle {op : Op} {r : Ret} (hidle : Idle s op r) : AStep a (op, r) a := by
  cases op with
  | unlink path =>
    cases hidle
    exact .unlinkFail
  | «open» path flags =>
    cases hidle
    exact .openNone
  | close fd =>
    obtain ⟨rfl, hk⟩ := hidle
    exact .closeFail (h.refines.closed_of_slot hk)
  | read fd buf len =>
    obtain ⟨rfl, hno⟩ | ⟨rfl, rfl, k, hk, hfile, hend⟩ := hidle
    · obtain hbuf | hno := hno
      · exact .readFail (.inr (.inl hbuf))
      · exact .readFail ((h.noFile hno).imp_right .inr)
    · -- at the end of the file nothing is read, and the cursor stays
      have hopen := h.refines.open_of_slot hk
      obtain ⟨f, hf, hsize, -⟩ := h.refines.file_some hfile
      have hread : f.Reads (s.openFiles k).offset len [] :=
        ⟨by simp [← hsize, hend], fun j _ hj => absurd hj (Nat.not_lt_zero j)⟩
      have hstep : AStep a (.read fd true len, .bytes [])
          (a.setDesc k (some (s.openFiles k).desc)) := .read hopen hf hread
      rwa [setDesc_self hopen.2] at hstep
  | write fd buf =>
    obtain ⟨rfl, hbuf | hno⟩ := hidle
    · exact .writeFail (.inr (.inl hbuf))
    · exact .writeFail ((h.noFile hno).imp_right .inr)
  | lseek fd offset whence =>
    obtain ⟨rfl, hneg⟩ := hidle
    cases hk : openSlot s fd with
    | none => exact .lseekFail (.inl (h.refines.closed_of_slot hk))
    | some k =>
      refine .lseekFail (.inr ⟨k, _, h.refines.open_of_slot hk, fun base hbase => ?_⟩)
      rw [h.seekBase] at hbase
      exact hneg k base hk hbase
  | getdents fd buf maxEnts =>
    cases hidle
    exact .getdentsFail
  | _ => exact .tree trivial

/-- Moving the cursor of an open slot. -/
theorem Related.move (hk : openSlot s fd = some k) (c : ℕ) :
    Refines (s.setOpen k { s.openFiles k with offset := c })
      (a.setDesc k (some { (s.openFiles k).desc with cursor := c })) := by
  have hused := (openSlot_some hk).2
  exact h.refines.setOpen hused (h.refines.live k hused)

/-- **`vfs_read`** before the end of the file. -/
theorem Related.read {len : ℕ} {l : List UInt8} (hk : openSlot s fd = some k)
    (hfile : (s.nodes (s.openFiles k).node).type = .file)
    (hin : (s.openFiles k).offset < (s.nodes (s.openFiles k).node).size)
    (hlen : l.length = if (s.nodes (s.openFiles k).node).size < add64 (s.openFiles k).offset len
      then (s.nodes (s.openFiles k).node).size - (s.openFiles k).offset else len)
    (hread : readBuf s (s.nodes (s.openFiles k).node).data (s.openFiles k).offset l.length = .ok l)
    (hq : (s.openFiles k).offset + len < 2 ^ 63) :
    AStep a (.read fd true len, .bytes l) (a.setDesc k
      (some { (s.openFiles k).desc with cursor := add64 (s.openFiles k).offset l.length })) := by
  obtain ⟨f, hf, hsize, hwritten⟩ := h.refines.file_some hfile
  rw [add64_of_lt (by omega)] at hlen
  -- the length the code computes is the smaller of `len` and what is left
  have hmin : l.length = min len (f.size - (s.openFiles k).offset) := by
    rw [hlen]
    split <;> omega
  rw [add64_of_lt (by omega)]
  refine .read (h.refines.open_of_slot hk) hf ⟨hmin, fun j b hj hb => ?_⟩
  rw [h.bounded.readBuf (by omega)] at hread
  rw [← Except.ok.inj hread, getElem?_map, getElem?_range hj, ← (hwritten _ b hb).2]
  rfl

end

/-- Clearing a slot that is not open. -/
theorem Refines.drop (h : Refines s a) (ho : Backed s)
    (hn : ∀ k, (s.openFiles k).used = true → (s.openFiles k).node ≠ n) :
    Refines ((dropBuf s (s.nodes n).data).setNode n VfsNode.zero) (a.setFile n none) := by
  have hself : ((dropBuf s (s.nodes n).data).setNode n VfsNode.zero).nodes n = VfsNode.zero :=
    update_self ..
  refine h.setFile ho (ho.touches_drop n) ?_ (dropBuf_openFiles s _) ?_
  · show (_ : VfsNode).type ≠ .file ∧ (_ : VfsNode).size = 0
    rw [hself]
    exact ⟨nofun, rfl⟩
  · intro _ hopen
    obtain ⟨k, hk, hkn⟩ := hopen
    exact absurd hkn (hn k hk)

/-- The `VFS_O_TRUNC` step of `vfs_open`. -/
theorem Refines.truncated (h : Refines s a) (ho : Backed s) (n : NodeId) (flags : ℕ) :
    Refines (truncated s n flags) (if hasFlag flags vfsOTrunc ∧ (s.nodes n).type = .file
      then a.setFile n (some .empty) else a) := by
  unfold Vfs.truncated
  split
  · rename_i htrunc
    have hself : (s.setNode n { s.nodes n with size := 0 }).nodes n = { s.nodes n with size := 0 } :=
      update_self ..
    have hempty : FileRef (s.setNode n { s.nodes n with size := 0 }) n (some .empty) := by
      refine ⟨?_, ?_, fun _ _ hp => by cases hp⟩
      · rw [hself]
        exact htrunc.2
      · rw [hself]
        rfl
    exact h.setNode ho hempty rfl rfl
  · exact h

/-- The node `vfs_open` works on. -/
theorem Related.open (h : Related s a) (hnode : openNode s path flags = some (n, s')) :
    ∃ a₁, AOpen a flags n a₁ ∧ a₁.desc = a.desc ∧ Refines (truncated s' n flags) a₁ ∧
      ((truncated s' n flags).entry n).used = true := by
  rw [(truncated_sameTree s' n flags).entry]
  obtain ⟨hpath, rfl⟩ | ⟨-, hcreat, p, leaf, -, halloc⟩ := openNode_cases hnode
  · have hused := h.wf.resolvePath hpath
    have href := h.refines.truncated h.bounded.toBacked n flags
    by_cases htrunc : hasFlag flags vfsOTrunc = true ∧ (s'.nodes n).type = .file
    · rw [if_pos htrunc] at href
      obtain ⟨f, hf, -⟩ := h.refines.file_some htrunc.2
      exact ⟨_, .trunc htrunc.1 hf, rfl, href, hused⟩
    · rw [if_neg htrunc] at href
      refine ⟨a, .keep ?_, rfl, href, hused⟩
      by_cases hflag : hasFlag flags vfsOTrunc = true
      · exact .inr (h.refines.file_none fun hfile => htrunc ⟨hflag, hfile⟩)
      · exact .inl (by simpa using hflag)
  · -- a new file is empty with and without `VFS_O_TRUNC`
    obtain ⟨-, hnone, hun, hused, href⟩ := h.created halloc
    have htrunc := href.truncated (h.bounded.allocNode halloc).1.toBacked n flags
    rw [if_pos rfl, AState.setFile, AState.setFile, update_idem, ite_self] at htrunc
    exact ⟨_, .create hcreat hnone hun, rfl, htrunc, hused⟩

/-- The search for a descriptor at the end of `vfs_open`. -/
theorem Refines.claimSlot {a₁ : AState} (h : Refines s a₁) (hopen : AOpen a flags n a₁)
    (hdesc : a₁.desc = a.desc) (hn : (s.entry n).used = true) (path : Str) :
    ∃ a', AStep a (.open path flags, Ret.ofOption .fd (claimSlot s n flags).1) a' ∧
      Refines (claimSlot s n flags).2 a' := by
  unfold Vfs.claimSlot
  split
  · rename_i hfull
    refine ⟨a₁, .openFull hopen ?_, h⟩
    intro k
    have hused : (s.openFiles k).used = true := by
      simpa using find?_eq_none.mp hfull k (mem_finRange k)
    rw [← hdesc, h.desc k, if_pos hused]
    exact Option.some_ne_none _
  · rename_i k hk
    have hunused : (s.openFiles k).used = false := by simpa using find?_some hk
    refine ⟨_, .open hopen ?_, ?_⟩
    · rw [← hdesc, h.desc k, if_neg (by rw [hunused]; exact Bool.false_ne_true)]
    · rw [h.sizeOf]
      exact h.setOpen rfl hn

/-- The abstract file after the bytes are stored. -/
theorem Written.fileRef (h : Written s s' k n c bytes) (hbound : c + bytes.length < 2 ^ 64)
    (htype : (s'.nodes n).type = .file) (hsize : (s.nodes n).size = f.size)
    (hwritten : ∀ p b, f.written p = some b → p < f.size ∧ Vfs.byteAt s n p = b) :
    FileRef s' n (some (f.write c bytes)) := by
  refine ⟨htype, ?_, ?_⟩
  · rw [h.size, hsize, add64_of_lt hbound]
    rfl
  · intro p b hp
    show p < max f.size (c + bytes.length) ∧ _
    by_cases hin : c ≤ p ∧ p < c + bytes.length
    · have hb : bytes[p - c]? = some b := by
        rw [← hp]
        exact (if_pos hin).symm
      rw [h.byteAt p (.inr hin), stored, if_pos hin, hb]
      exact ⟨by omega, rfl⟩
    · have hb : f.written p = some b := by
        rw [← hp]
        exact (if_neg hin).symm
      obtain ⟨hlt, hbyte⟩ := hwritten p b hb
      rw [h.byteAt p (.inl (by omega)), stored, if_neg hin]
      exact ⟨by omega, hbyte⟩

/-- **`vfs_write`** that stores its bytes: the file first, then the cursor. -/
theorem Related.written (h : Related s a) (hk : openSlot s fd = some k)
    (hfile : (s.nodes (s.openFiles k).node).type = .file) (hf : a.file (s.openFiles k).node = some f)
    (hbound : c + bytes.length < 2 ^ 63) (htree : s'.entry = s.entry)
    (hw : Written s s' k (s.openFiles k).node c bytes) :
    Refines s' ((a.setFile (s.openFiles k).node (some (f.write c bytes))).setDesc k
      (some { (s.openFiles k).desc with cursor := c + bytes.length })) := by
  have hused := (openSlot_some hk).2
  have hlive := h.refines.live k hused
  rw [← htree] at hlive
  obtain ⟨g, hg, hsize, hwritten⟩ := h.refines.file_some hfile
  cases hf.symm.trans hg
  have htype : (s'.nodes (s.openFiles k).node).type = .file :=
    (congrArg Entry.type (congrFun htree (s.openFiles k).node)).trans hfile
  -- the new files, still with the old descriptor table
  have htouch : Touches s { s' with openFiles := s.openFiles } (s.openFiles k).node :=
    hw.touches.trans (touches_of_eq rfl rfl)
  have hfiles : Refines { s' with openFiles := s.openFiles }
      (a.setFile (s.openFiles k).node (some (f.write c bytes))) :=
    h.refines.setFile h.bounded.toBacked htouch (hw.fileRef (by omega) htype hsize hwritten) rfl
      fun _ _ => hlive
  have hs' : s' = ({ s' with openFiles := s.openFiles } : VfsState).setOpen k
      { s.openFiles k with offset := c + bytes.length } := by
    show s' = { s' with openFiles := update s.openFiles k _ }
    rw [← add64_of_lt (by omega), ← hw.openFiles]
  rw [hs']
  exact hfiles.setOpen hused hlive

/-- **One call of the code** is a call of the abstract model. -/
theorem Related.effect (h : Related s a) (ha : AllocOk alloc s) {op : Op} {r : Ret}
    (hq : Quiet s op) (he : Effect alloc s op r s') : ∃ a', AStep a (op, r) a' ∧ Refines s' a' := by
  have hback := h.bounded.toBacked
  cases he with
  | none hidle => exact ⟨a, h.idle hidle, h.refines⟩
  | mkdir _ _ halloc =>
    obtain ⟨-, hnone, -, -, href⟩ := h.created halloc
    rw [if_neg (fun h => by cases h), ← hnone, setFile_self] at href
    exact ⟨a, .tree trivial, href⟩
  | @unlink _ n _ _ hpath _ _ _ hdrop =>
    rw [hback.dropNode n] at hdrop
    cases hdrop
    exact ⟨_, .unlink (h.refines.unopened (hq n hpath)), h.refines.drop hback (hq n hpath)⟩
  | @rmdir _ n _ _ hpath _ hdir _ hdrop =>
    -- no file depends on the current directory
    generalize (if s.cwdNode = n then 0 else s.cwdNode) = c at hdrop
    have hback' : Backed { s with cwdNode := c } := hback.congr rfl rfl
    have hmoved : Refines { s with cwdNode := c } a := h.refines.congr rfl rfl rfl
    rw [hback'.dropNode n] at hdrop
    cases hdrop
    have href := hmoved.drop hback' (hq n hpath)
    rw [← h.refines.file_none (i := n) (by simp [hdir]), setFile_self] at href
    exact ⟨a, .tree trivial, href⟩
  | @rename _ _ leaf n p _ _ _ _ =>
    have hi : FileRef (s.setNode n _) n _ := (h.refines.file n).congr (by simp [VfsState.setNode])
      (by simp [VfsState.setNode]) fun q _ => byteAt_rename s n p (copyName leaf) q
    have href := h.refines.setNode hback hi rfl rfl
    rw [setFile_self] at href
    exact ⟨a, .tree trivial, href⟩
  | chdir _ _ => exact ⟨a, .tree trivial, h.refines.congr rfl rfl rfl⟩
  | «open» hnode =>
    obtain ⟨a₁, hopen, hdesc, href, hused⟩ := h.open hnode
    exact href.claimSlot hopen hdesc hused _
  | close hk => exact ⟨_, .close (h.refines.open_of_slot hk), h.refines.setSlot fun h => by cases h⟩
  | read hk hfile hin hlen hread =>
    exact ⟨_, h.read hk hfile hin hlen hread (hq _ hk), h.move hk _⟩
  | lseek hk hbase hpos =>
    exact ⟨_, .lseek (h.refines.open_of_slot hk) ((h.seekBase _).trans hbase)
      (Int.toNat_of_nonneg hpos).symm, h.move hk _⟩
  | @getdents _ _ k _ hk hdir _ =>
    have hnone : a.file (s.openFiles k).node = none := h.refines.file_none (by simp [hdir])
    exact ⟨_, .getdents (h.refines.open_of_slot hk) hnone, h.move hk _⟩
  | @write _ k bytes _ _ hk hfile hwrite =>
    have hopen := h.refines.open_of_slot hk
    obtain ⟨f, hf, hsize, -⟩ := h.refines.file_some hfile
    have hstart : (s.openFiles k).desc.start f = cursor s k := by
      unfold cursor ADesc.start
      rw [hsize]
      rfl
    obtain ⟨rfl, rfl⟩ | ⟨rfl, hw⟩ := writeFile_returns h.bounded ha hfile hwrite
    · refine ⟨_, .noMemory hopen hf, ?_⟩
      rw [hstart, seekAppend_eq]
      exact h.move hk _
    · refine ⟨_, .write hopen hf, ?_⟩
      rw [hstart]
      exact h.written hk hfile hf (hq k hk) (writeFile_sameTree hwrite).entry hw

/-- **A call changes no file but its target**, and a failed write not even that. -/
theorem Effect.frame {op : Op} {r : Ret} {m : NodeId} (he : Effect alloc s op r s')
    (h : Related s a) (ha : AllocOk alloc s)
    (hm : Targets s op m → (∃ fd buf, op = .write fd buf) ∧ r = .fail) : SameFile s s' m := by
  have hback := h.bounded.toBacked
  cases he with
  | none | chdir | close | read | lseek | getdents => exact sameFile_of_eq rfl rfl m
  | mkdir _ _ halloc =>
    refine (h.bounded.allocNode halloc).2.1.sameFile hback fun hmi => ?_
    exact sameFile_of_type (hmi ▸ (h.created halloc).1)
  | @unlink _ n _ _ hpath _ _ _ hdrop =>
    rw [hback.dropNode n] at hdrop
    cases hdrop
    refine (hback.touches_drop n).sameFile hback fun hmn => ?_
    obtain ⟨⟨_, _, hop⟩, -⟩ := hm (hmn ▸ hpath)
    cases hop
  | @rmdir _ n _ _ _ _ hdir _ hdrop =>
    generalize (if s.cwdNode = n then 0 else s.cwdNode) = c at hdrop
    have hback' : Backed { s with cwdNode := c } := hback.congr rfl rfl
    rw [hback'.dropNode n] at hdrop
    cases hdrop
    refine SameFile.trans (sameFile_of_eq rfl rfl m)
      ((hback'.touches_drop n).sameFile hback' fun hmn => sameFile_of_type ?_)
    simp [hmn, hdir]
  | @rename _ _ leaf n p _ _ _ _ =>
    refine Touches.sameFile (i := n) (touches_setNode s ?_) hback fun hmn ht => ?_
    · rfl
    subst hmn
    refine ⟨?_, ?_, fun q _ => byteAt_rename s m p (copyName leaf) q⟩
    · simpa [VfsState.setNode] using ht
    · simp [VfsState.setNode]
  | @«open» path flags n t hnode =>
    obtain ⟨hb₁, ht₁⟩ := h.bounded.openNode hnode
    obtain ⟨hn, hb⟩ := claimSlot_rest (truncated t n flags) n flags
    refine SameFile.trans ?_ (sameFile_of_eq hn hb m)
    refine (ht₁.trans (hb₁.truncated n flags).2).sameFile hback fun hmn => ?_
    subst hmn
    obtain ⟨hpath, rfl⟩ | ⟨-, -, p, leaf, -, halloc⟩ := openNode_cases hnode
    · by_cases htrunc : hasFlag flags vfsOTrunc = true
      · obtain ⟨⟨_, _, hop⟩, -⟩ := hm ⟨htrunc, hpath⟩
        cases hop
      · rw [truncated, if_neg fun hcond => htrunc hcond.1]
        exact sameFile_of_eq rfl rfl m
    · exact sameFile_of_type (h.created halloc).1
  | @write _ k _ _ _ hk hfile hwrite =>
    obtain ⟨-, rfl⟩ | ⟨rfl, hw⟩ := writeFile_returns h.bounded ha hfile hwrite
    · exact sameFile_of_eq (seekAppend_nodes s k) (seekAppend_bufs s k) m
    · refine hw.touches.sameFile hback fun hmn => ?_
      cases (hm ⟨k, hk, hmn.symm⟩).2

end Effects

/-! ## §4. Every run. -/

section Runs

variable {alloc : Allocator} {s s' : VfsState} {a : AState}

/-- **One call returns.** -/
theorem Related.returns (h : Related s a) (ha : AllocOk alloc s) {op : Op} (hq : Quiet s op) :
    ∃ r s', exec alloc s op = .ok (r, s') := by
  have hwrite : WriteOk s op := by
    cases op with
    | write fd buf =>
      cases buf with
      | none => trivial
      | some bytes => exact hq
    | _ => trivial
  obtain ⟨x, hret⟩ | ⟨⟨fd, buf, len, rfl⟩, -⟩ := h.bounded.exec_returns ha hwrite
  · exact ⟨_, _, hret⟩
  · have hlen : ∀ k, openSlot s fd = some k → len ≤ 2 ^ 63 := fun k hk => by
      have : (s.openFiles k).offset + len < 2 ^ 63 := hq k hk
      omega
    obtain ⟨x, hret⟩ := h.bounded.read_returns fd buf hlen
    exact ⟨_, _, map_ok.mpr ⟨x, hret, rfl⟩⟩

/-- A call of a run, with its answer. -/
def Event (s : VfsState) (e : Op × Ret) (s' : VfsState) : Prop := Call Quiet s e.1 e.2 s'

/-- The step of the simulation. -/
theorem Related.step (h : Related s a) {e : Op × Ret} (he : Event s e s') :
    ∃ a', AStep a e a' ∧ Related s' a' := by
  obtain ⟨hq, alloc, ha, hexec⟩ := he
  obtain ⟨a', hstep, href⟩ := h.effect ha hq (exec_effect hexec)
  exact ⟨a', hstep, ((exec_effect hexec).bounded ha h.bounded).1, (exec_tree hexec).wf h.wf, href⟩

/-- After `vfs_init` there is no file and no descriptor. -/
theorem related_init (s₀ : VfsState) : Related (vfsInit s₀).2 AState.init := by
  refine ⟨vfsInit_bounded s₀, vfsInit_wf s₀, ⟨?_, ?_, ?_⟩⟩
  · intro i
    obtain ⟨-, -, hsize, htype⟩ := vfsInit_node s₀ i
    exact ⟨htype, hsize⟩
  · intro k
    rfl
  · intro k hk
    cases hk

/-- **VFS files are byte arrays with cursors.**  Every run of calls and answers from
`vfs_init` is a run of the abstract model; and any further call returns, is a call
of the abstract model, leaves the size and the bytes of every file but its target
as they are, and when it is a write that fails, those of every file. -/
theorem files_refine {s₀ s : VfsState} {tr : List (Op × Ret)}
    (hrun : Trace Event (vfsInit s₀).2 tr s) :
    ∃ a, Trace AStep AState.init tr a ∧ Refines s a ∧
      ∀ alloc op, AllocOk alloc s → Quiet s op → ∃ r s', exec alloc s op = .ok (r, s') ∧
        (∃ a', AStep a (op, r) a' ∧ Refines s' a') ∧
        (∀ m, ¬ Targets s op m → SameFile s s' m) ∧
        (∀ fd buf, op = .write fd buf → r = .fail → ∀ m, SameFile s s' m) := by
  obtain ⟨a, htrace, hrel⟩ := hrun.simulate Related (related_init s₀) fun h he => h.step he
  refine ⟨a, htrace, hrel.refines, ?_⟩
  intro alloc op ha hq
  obtain ⟨r, s', hret⟩ := hrel.returns ha hq
  have heffect := exec_effect hret
  refine ⟨r, s', hret, hrel.effect ha hq heffect, ?_, ?_⟩
  · intro m hm
    exact heffect.frame hrel ha fun htarget => absurd htarget hm
  · intro fd buf hop hfail m
    exact heffect.frame hrel ha fun _ => ⟨⟨fd, buf, hop⟩, hfail⟩

/-- The state after `open /a`. -/
abbrev afterOpen : VfsState := after noMemory (vfsInit blank).2 (.open pathA rdwrCreat)

theorem files_refine_write :
    ∃ a s', Trace AStep AState.init [(.open pathA rdwrCreat, .fd 0)] a ∧ Refines afterOpen a ∧
      exec oneBlock afterOpen (.write 0 (some [0x78])) = .ok (.count 1, s') ∧
      ∃ a', AStep a (.write 0 (some [0x78]), .count 1) a' ∧ Refines s' a' := by
  have hcall : Event (vfsInit blank).2 (.open pathA rdwrCreat, .fd 0) afterOpen :=
    ⟨trivial, noMemory, noMemory_ok _, exec_of_answer (by decide +kernel)⟩
  obtain ⟨a, htrace, href, hnext⟩ := files_refine (.snoc .nil hcall)
  obtain ⟨r, s', hret, hstep, -⟩ := hnext oneBlock (.write 0 (some [0x78])) (oneBlock_ok rfl) (by
    intro k hk
    have hk0 : openSlot afterOpen 0 = some 0 := by decide +kernel
    rw [hk0] at hk
    cases hk
    decide +kernel)
  have hcount : answer oneBlock afterOpen (.write 0 (some [0x78])) = some (.count 1) := by
    decide +kernel
  cases hret.symm.trans (exec_of_answer hcount)
  exact ⟨a, _, htrace, href, hret, hstep⟩

end Runs

end ExoCore.Vfs
