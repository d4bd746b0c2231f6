/-
  ExoCore.Vfs.Tree — the node table as a TREE.

    * `Wf` — the structural invariant: the root and the current directory are
      used directories, and so is the parent of every used node; every call keeps
      it (`TreeStep.wf`);
    * `tree_of_run` — in a run without a rename into the moved directory's own
      subtree every used node leads to the root;
    * `tree_breaks` — `mkdir /a` and `rename /a /a/b` make node 1 its own parent.
-/
import ExoCore.Vfs.Step
import ExoCore.Lib.Forest

namespace ExoCore.Vfs

open ExoCore.Lib Function List

/-! ## §1. What the lookups return. -/

/-- `i` is a used directory. -/
def IsDir (s : VfsState) (i : NodeId) : Prop :=
  (s.entry i).used = true ∧ (s.entry i).type = .dir

theorem nameEq_iff {name seg : Str} : nameEq name seg = true ↔ name = seg := by
  induction name generalizing seg with
  | nil => cases seg <;> simp [nameEq]
  | cons a name ih => cases seg <;> simp [nameEq, ih]

section Lookup

variable {s : VfsState} {p c : NodeId} {seg : Str}

theorem isChild_iff : isChild s p seg c = true ↔
    (s.entry c).used = true ∧ (s.entry c).parent = p ∧ (s.entry c).name = seg := by
  unfold isChild
  rw [Bool.and_eq_true, Bool.and_eq_true, beq_iff_eq, nameEq_iff, and_assoc]
  rfl

theorem findChild_dir (h : IsDir s p) :
    findChild s p seg = (List.finRange 64).find? (isChild s p seg) := by
  rw [findChild, if_neg]
  have h1 : (s.nodes p).used = true := h.1
  have h2 : (s.nodes p).type = .dir := h.2
  simp [h1, h2]

theorem findChild_some (h : findChild s p seg = some c) :
    IsDir s p ∧ (s.entry c).used = true ∧ (s.entry c).parent = p ∧ (s.entry c).name = seg := by
  unfold findChild at h
  split at h
  · cases h
  · rename_i hdir
    simp only [Bool.or_eq_true, Bool.not_eq_true', bne_iff_ne, not_or, Bool.not_eq_false,
      ne_eq, not_not] at hdir
    exact ⟨hdir, isChild_iff.mp (find?_some h)⟩

theorem findChild_none (hdir : IsDir s p) (h : findChild s p seg = none) :
    ∀ i, (s.entry i).used = true → (s.entry i).parent = p → (s.entry i).name ≠ seg := by
  intro i hu hp hn
  rw [findChild_dir hdir] at h
  exact find?_eq_none.mp h i (mem_finRange i) (isChild_iff.mpr ⟨hu, hp, hn⟩)

theorem childCount_zero {n : NodeId} (h : childCount s n = 0) :
    ∀ i, i ≠ n → (s.entry i).used = true → (s.entry i).parent ≠ n := by
  intro i hin hu hp
  have hmem : i ∈ (List.finRange 64).filter fun i =>
      i != n && (s.nodes i).used && (s.nodes i).parent == n := by
    refine mem_filter.mpr ⟨mem_finRange i, ?_⟩
    have h1 : (s.nodes i).used = true := hu
    have h2 : (s.nodes i).parent = n := hp
    simp [hin, h1, h2]
  rw [length_eq_zero_iff.mp h] at hmem
  cases hmem

theorem freeNode_unused {i : NodeId} (h : freeNode s = some i) : (s.entry i).used = false := by
  have hi := find?_some h
  show (s.nodes i).used = false
  simpa using hi

end Lookup

/-! ## §2. The structural invariant. -/

/-- **The node table is well formed.** -/
structure Wf (s : VfsState) : Prop where
  ready : s.ready = true
  root : IsDir s 0
  rootParent : (s.entry 0).parent = 0
  rootName : (s.entry 0).name = []
  cwd : IsDir s s.cwdNode
  parent : ∀ i, (s.entry i).used = true → IsDir s (s.entry i).parent
  named : ∀ i, i ≠ 0 → (s.entry i).used = true → (s.entry i).name ≠ []
  cleared : ∀ i, (s.entry i).used = false → (s.entry i).type = .none

section Walks

variable {s : VfsState} {node n : NodeId} {path : Str}
variable (h : Wf s)
include h

theorem Wf.upFrom (hn : (s.entry node).used = true) : IsDir s (upFrom s node) := by
  unfold Vfs.upFrom
  split
  · exact h.root
  · exact h.parent node hn

theorem Wf.startNode (path : Str) : IsDir s (startNode s path) := by
  unfold Vfs.startNode
  split
  · exact h.root
  · exact h.cwd

theorem Wf.enter {c : Str} (hn : (s.entry node).used = true) (he : enter s node c = some n) :
    (s.entry n).used = true := by
  unfold Vfs.enter at he
  split at he
  · cases he
    exact hn
  split at he
  · cases he
    exact hn
  split at he
  · cases he
    exact (h.upFrom hn).1
  · exact (findChild_some he).2.1

theorem Wf.walk {cs : List Str} (hn : (s.entry node).used = true) (hw : walk s node cs = some n) :
    (s.entry n).used = true := by
  induction cs generalizing node with
  | nil =>
    cases hw
    exact hn
  | cons c cs ih =>
    rw [walk_cons] at hw
    obtain ⟨m, hm, hw⟩ := Option.bind_eq_some_iff.mp hw
    exact ih (h.enter hn hm) hw

theorem Wf.walkDirs {cs : List Str} (hn : IsDir s node) (hw : walkDirs s node cs = some n) :
    IsDir s n := by
  induction cs generalizing node with
  | nil =>
    cases hw
    exact hn
  | cons c cs ih =>
    rw [walkDirs_cons] at hw
    obtain ⟨m, hm, hw⟩ := Option.bind_eq_some_iff.mp hw
    refine ih ?_ hw
    rcases enterLast_some hm with ⟨-, rfl⟩ | ⟨-, hf, hd⟩
    · exact h.upFrom hn.1
    · exact ⟨(findChild_some hf).2.1, hd⟩

/-- `resolve_path` returns used nodes. -/
theorem Wf.resolvePath (hr : resolvePath s path = some n) : (s.entry n).used = true := by
  have hpath : path ≠ [] := by
    rintro rfl
    simp [Vfs.resolvePath] at hr
  rw [resolvePath_eq h.ready hpath] at hr
  exact h.walk (h.startNode path).1 hr

/-- `resolve_parent` returns used directories. -/
theorem Wf.resolveParent {leaf : Str} (hr : resolveParent s path = some (n, leaf)) : IsDir s n := by
  obtain ⟨-, init, -, hw⟩ := resolveParent_spec hr
  exact h.walkDirs (h.startNode path) hw

end Walks

theorem copyName_ne_nil {leaf : Str} (h : leaf ≠ []) : copyName leaf ≠ [] := by
  cases leaf with
  | nil => exact absurd rfl h
  | cons c l => simp [copyName, vfsMaxName]

section Keeps

variable {s s' : VfsState}

variable {i node p : NodeId} {leaf : Str}

/-- Entries that agree on being a used directory. -/
theorem isDir_congr (h : s'.entry i = s.entry i) : IsDir s' i ↔ IsDir s i := by
  unfold IsDir
  rw [h]

/-- The same entries, and a current directory that is one. -/
theorem Wf.of_entry (hw : Wf s) (hready : s'.ready = s.ready) (hentry : s'.entry = s.entry)
    (hcwd : IsDir s s'.cwdNode) : Wf s' := by
  have hd : ∀ i, IsDir s' i ↔ IsDir s i := fun i => isDir_congr (congrFun hentry i)
  refine ⟨hready.trans hw.ready, (hd 0).mpr hw.root, ?_, ?_, (hd _).mpr hcwd, ?_, ?_, ?_⟩
  · rw [hentry]
    exact hw.rootParent
  · rw [hentry]
    exact hw.rootName
  · intro i hi
    rw [hentry] at hi ⊢
    exact (hd _).mpr (hw.parent i hi)
  · intro i hi hu
    rw [hentry] at hu ⊢
    exact hw.named i hi hu
  · intro i hu
    rw [hentry] at hu ⊢
    exact hw.cleared i hu

theorem SameTree.wf (h : SameTree s s') (hw : Wf s) : Wf s' := by
  refine hw.of_entry h.ready h.entry ?_
  rw [h.cwdNode]
  exact hw.cwd

theorem Moves.kept (h : Moves s s' node p leaf) (q : NodeId) : (s'.entry q).used = (s.entry q).used ∧
    (s'.entry q).type = (s.entry q).type ∧ (s'.entry q).inode = (s.entry q).inode := by
  rw [h.entry]
  by_cases hq : q = node
  · rw [hq, update_self]
    exact ⟨rfl, rfl, rfl⟩
  · rw [update_of_ne hq]
    exact ⟨rfl, rfl, rfl⟩

/-- Entry `i` became `e`, under the name `leaf`, and directories stay directories. -/
structure Placed (s s' : VfsState) (i : NodeId) (e : Entry) (leaf : Str) : Prop where
  entry : s'.entry = update s.entry i e
  used : e.used = true
  name : e.name = copyName leaf
  isDir : ∀ q, IsDir s q → IsDir s' q
  cwdNode : s'.cwdNode = s.cwdNode
  ready : s'.ready = s.ready

theorem Adds.fresh {t : NodeType} (h : Adds s s' i t p leaf) : (s.entry i).used ≠ true := by
  rw [freeNode_unused h.free]
  exact Bool.false_ne_true

theorem Adds.placed {t : NodeType} (h : Adds s s' i t p leaf) :
    Placed s s' i ⟨true, s.nextInode, t, p, copyName leaf⟩ leaf := by
  refine ⟨h.entry, rfl, rfl, fun q hq => (isDir_congr ?_).mpr hq, h.cwdNode, h.ready⟩
  rw [h.entry, update_of_ne]
  rintro rfl
  exact h.fresh hq.1

theorem Moves.placed (h : Moves s s' node p leaf) (hused : (s.entry node).used = true) :
    Placed s s' node { s.entry node with parent := p, name := copyName leaf } leaf := by
  refine ⟨h.entry, hused, rfl, fun q hq => ?_, h.cwdNode, h.ready⟩
  rw [IsDir, (h.kept q).1, (h.kept q).2.1]
  exact hq

/-- What is still in use after a slot was cleared is as it was. -/
theorem kept_of_cleared (h : s'.entry = update s.entry node VfsNode.zero.entry) {j : NodeId}
    (hj : (s'.entry j).used = true) : s'.entry j = s.entry j := by
  obtain ⟨hnode, hother⟩ := eq_update_iff.mp h
  refine hother j ?_
  rintro rfl
  rw [hnode] at hj
  cases hj

/-- The rule for a step that rewrites the entry of `i`. -/
theorem Wf.setEntry {e : Entry} (hw : Wf s) (hready : s'.ready = s.ready)
    (hentry : s'.entry = update s.entry i e) (hi : i ≠ 0) (hroot : IsDir s' 0)
    (hcwd : IsDir s' s'.cwdNode)
    (hparent : ∀ j, j ≠ i → (s.entry j).used = true → IsDir s' (s.entry j).parent)
    (hnew : e.used = true → IsDir s' e.parent ∧ e.name ≠ [])
    (hcleared : e.used = false → e.type = .none) : Wf s' := by
  obtain ⟨hself, hold⟩ := eq_update_iff.mp hentry
  have h0 := hold 0 hi.symm
  refine ⟨hready.trans hw.ready, hroot, ?_, ?_, hcwd, ?_, ?_, ?_⟩
  · rw [h0]
    exact hw.rootParent
  · rw [h0]
    exact hw.rootName
  · intro j hj
    by_cases hji : j = i
    · rw [hji, hself] at hj ⊢
      exact (hnew hj).1
    · rw [hold j hji] at hj ⊢
      exact hparent j hji hj
  · intro j hj0 hj
    by_cases hji : j = i
    · rw [hji, hself] at hj ⊢
      exact (hnew hj).2
    · rw [hold j hji] at hj ⊢
      exact hw.named j hj0 hj
  · intro j hj
    by_cases hji : j = i
    · rw [hji, hself] at hj ⊢
      exact hcleared hj
    · rw [hold j hji] at hj ⊢
      exact hw.cleared j hj

/-- A node below a directory. -/
theorem Placed.wf {e : Entry} (h : Placed s s' i e leaf) (hw : Wf s) (hroot : i ≠ 0)
    (hp : IsDir s e.parent) (hleaf : leaf ≠ []) : Wf s' := by
  refine hw.setEntry h.ready h.entry hroot (h.isDir 0 hw.root) ?_
    (fun j _ hj => h.isDir _ (hw.parent j hj)) (fun _ => ⟨h.isDir _ hp, ?_⟩)
    fun hu => absurd (hu.symm.trans h.used) Bool.false_ne_true
  · rw [h.cwdNode]
    exact h.isDir _ hw.cwd
  · rw [h.name]
    exact copyName_ne_nil hleaf

theorem Adds.wf {t : NodeType} (h : Adds s s' i t p leaf) (hw : Wf s)
    (hp : IsDir s p) (hleaf : leaf ≠ []) : Wf s' := by
  refine h.placed.wf hw ?_ hp hleaf
  rintro rfl
  exact h.fresh hw.root.1

/-- Clearing the slot of a node without children. -/
theorem Removes.wf (h : Removes s s' node) (hw : Wf s) : Wf s' := by
  have hd : ∀ j, j ≠ node → IsDir s j → IsDir s' j := by
    intro j hj hdir
    refine (isDir_congr ?_).mpr hdir
    rw [h.entry, update_of_ne hj]
  have hroot := hd 0 (Ne.symm h.notRoot) hw.root
  refine hw.setEntry h.ready h.entry h.notRoot hroot ?_
    (fun j hj hu => hd _ (childCount_zero h.childless j hj hu) (hw.parent j hu)) nofun fun _ => rfl
  -- a file was never the current directory, a removed directory no longer is
  rcases h.cwdNode with ⟨hc, hfile⟩ | hc
  · rw [hc]
    refine hd _ ?_ hw.cwd
    rintro rfl
    exact hfile hw.cwd.2
  · rw [hc]
    split
    · exact hroot
    · rename_i hcn
      exact hd _ hcn hw.cwd

/-- **Every call keeps the node table well formed.** -/
theorem TreeStep.wf {op : Op} (h : TreeStep s op s') (hw : Wf s) : Wf s' := by
  cases h with
  | same h => exact h.wf hw
  | mkdir hpath _ h => exact h.wf hw (hw.resolveParent hpath) (resolveParent_spec hpath).1.1
  | create _ _ hpath h => exact h.wf hw (hw.resolveParent hpath) (resolveParent_spec hpath).1.1
  | rename hold hroot hpath _ h =>
    exact (h.placed (hw.resolvePath hold)).wf hw hroot (hw.resolveParent hpath)
      (resolveParent_spec hpath).1.1
  | remove _ _ h => exact h.wf hw
  | chdir hpath hdir hentry hcwd hready =>
    -- the tree is the same but for the current directory
    refine hw.of_entry hready hentry ?_
    rw [hcwd]
    exact ⟨hw.resolvePath hpath, hdir⟩

/-- `vfs_init` leaves the root alone in the table. -/
theorem vfsInit_entry (s : VfsState) : (vfsInit s).2.entry =
    update (fun _ => VfsNode.zero.entry) 0 ⟨true, 1, .dir, 0, []⟩ :=
  entry_setNode _ _ _

/-- Only the root is in use. -/
theorem vfsInit_used {s : VfsState} {i : NodeId} (h : ((vfsInit s).2.entry i).used = true) : i = 0 := by
  by_contra hi
  rw [vfsInit_entry, update_of_ne hi] at h
  cases h

theorem vfsInit_wf (s : VfsState) : Wf (vfsInit s).2 := by
  have h0 : (vfsInit s).2.entry 0 = ⟨true, 1, .dir, 0, []⟩ := by
    rw [vfsInit_entry, update_self]
  have hroot : IsDir (vfsInit s).2 0 := by
    unfold IsDir
    rw [h0]
    exact ⟨rfl, rfl⟩
  refine ⟨rfl, hroot, ?_, ?_, hroot, ?_, ?_, ?_⟩
  · rw [h0]
  · rw [h0]
  · intro i hi
    rw [vfsInit_used hi, h0]
    exact hroot
  · exact fun i hi0 hi => absurd (vfsInit_used hi) hi0
  · intro i hi
    have hi0 : i ≠ 0 := by
      rintro rfl
      rw [h0] at hi
      cases hi
    rw [vfsInit_entry, update_of_ne hi0]
    rfl

/-- **The node table is well formed in every state of every run.** -/
theorem wf_of_run {guard : VfsState → Op → Prop} {s₀ : VfsState}
    (hrun : Run guard (vfsInit s₀).2 s) : Wf s := by
  refine inv_of_run Wf hrun (vfsInit_wf s₀) ?_
  rintro a b hw ⟨op, r, -, alloc, -, hexec⟩
  exact (exec_tree hexec).wf hw

end Keeps

/-! ## §3. Every node leads to the root. -/

/-- `nodes[i].parent`. -/
def parentOf (s : VfsState) (i : NodeId) : NodeId := (s.entry i).parent

/-- A rename does not put a node below itself: the moved node is not on the way
from the target directory to the root. -/
def RenameOk (s : VfsState) : Op → Prop
  | .rename oldPath newPath => ∀ node p leaf, resolvePath s oldPath = some node →
      resolveParent s newPath = some (p, leaf) → ∀ k, (parentOf s)^[k] p ≠ node
  | _ => True

section Rooted

variable {s s' : VfsState}

variable {i : NodeId}

theorem Wf.chain_used (hw : Wf s) (hi : (s.entry i).used = true) (k : ℕ) :
    (s.entry ((parentOf s)^[k] i)).used = true := by
  induction k generalizing i with
  | zero => exact hi
  | succ k ih => exact ih (hw.parent i hi).1

/-- The parent pointers after one pointer was rewritten. -/
theorem parentOf_update {e : Entry} (h : s'.entry = update s.entry i e) :
    parentOf s' = update (parentOf s) i e.parent := by
  funext j
  by_cases hj : j = i
  · subst hj
    simp [parentOf, h]
  · simp [parentOf, h, hj]

/-- Every used node leads to the root. -/
def AllRooted (s : VfsState) : Prop :=
  ∀ i, (s.entry i).used = true → Rooted (parentOf s) 0 i

theorem Placed.rooted {e : Entry} {leaf : Str} (h : Placed s s' i e leaf) (hp : IsDir s e.parent)
    (hav : ∀ k, (parentOf s)^[k] e.parent ≠ i) (hr : AllRooted s) : AllRooted s' := by
  have hi : Rooted (update (parentOf s) i e.parent) 0 i := by
    apply Rooted.of_parent
    rw [update_self]
    exact (hr _ hp.1).avoid hav
  intro j hj
  rw [parentOf_update h.entry]
  by_cases hji : j = i
  · rw [hji]
    exact hi
  · rw [h.entry, update_of_ne hji] at hj
    exact (hr j hj).update fun _ _ => hi

theorem Adds.rooted {p : NodeId} {t : NodeType} {leaf : Str} (h : Adds s s' i t p leaf)
    (hw : Wf s) (hp : IsDir s p) (hr : AllRooted s) : AllRooted s' := by
  refine h.placed.rooted hp (fun k hk => h.fresh ?_) hr
  -- the chain of `p` runs through used nodes, the slot was free
  rw [← hk]
  exact hw.chain_used hp.1 k

theorem Removes.rooted {node : NodeId} (h : Removes s s' node) (hr : AllRooted s) :
    AllRooted s' := by
  intro j hj
  rw [kept_of_cleared h.entry hj] at hj
  rw [parentOf_update h.entry]
  -- a cleared slot points to the root
  exact (hr j hj).update fun _ _ => ⟨1, update_self _ _ _⟩

theorem TreeStep.rooted {op : Op} (h : TreeStep s op s') (hok : RenameOk s op) (hw : Wf s)
    (hr : AllRooted s) : AllRooted s' := by
  cases h with
  | same h =>
    intro i hi
    rw [h.entry] at hi
    rw [show parentOf s' = parentOf s from funext fun j => congrArg _ (congrFun h.entry j)]
    exact hr i hi
  | mkdir hpath _ h => exact h.rooted hw (hw.resolveParent hpath) hr
  | create _ _ hpath h => exact h.rooted hw (hw.resolveParent hpath) hr
  | rename hold _ hpath _ h =>
    exact (h.placed (hw.resolvePath hold)).rooted (hw.resolveParent hpath)
      (hok _ _ _ hold hpath) hr
  | remove _ _ h => exact h.rooted hr
  | chdir _ _ hentry _ _ =>
    intro i hi
    rw [hentry] at hi
    rw [show parentOf s' = parentOf s from funext fun j => congrArg _ (congrFun hentry j)]
    exact hr i hi

theorem vfsInit_rooted (s : VfsState) : AllRooted (vfsInit s).2 := by
  intro i hi
  rw [vfsInit_used hi]
  exact Rooted.self

/-- **The tree stays a tree**: in a run whose renames do not put a node below
itself, following parent links from a used node passes through used nodes and
arrives at the root. -/
theorem tree_of_run {s₀ s : VfsState} (hrun : Run RenameOk (vfsInit s₀).2 s) :
    ∀ i, (s.nodes i).used = true →
      ∃ k, (parentOf s)^[k] i = 0 ∧ ∀ j, (s.nodes ((parentOf s)^[j] i)).used = true := by
  have hall : Wf s ∧ AllRooted s := by
    refine inv_of_run (fun s => Wf s ∧ AllRooted s) hrun ⟨vfsInit_wf s₀, vfsInit_rooted s₀⟩ ?_
    rintro a b ⟨hw, hr⟩ ⟨op, r, hok, alloc, -, hexec⟩
    have hstep := exec_tree hexec
    exact ⟨hstep.wf hw, hstep.rooted hok hw hr⟩
  intro i hi
  obtain ⟨k, hk⟩ := hall.2 i hi
  exact ⟨k, hk, hall.1.chain_used hi⟩

end Rooted

/-! ## §4. A rename that breaks the tree. -/

/-- A state before `vfs_init`. -/
def blank : VfsState where
  nodes := fun _ => VfsNode.zero
  openFiles := fun _ => VfsOpen.zero
  nextInode := 1
  cwdNode := 0
  ready := false
  bufs := fun _ => none

/-- An allocator that has no memory. -/
def noMemory : Allocator := fun _ => none

theorem noMemory_ok (s : VfsState) : AllocOk noMemory s := by
  intro n p b h
  cases h

/-- An allocator with one block of 256 zero bytes. -/
def oneBlock : Allocator := fun n => if n ≤ 256 then some (1, ⟨256, fun _ => 0⟩) else none

variable {s : VfsState}

theorem oneBlock_ok (h : s.bufs 1 = none) : AllocOk oneBlock s := by
  intro n p b hn
  unfold oneBlock at hn
  split at hn
  · cases hn
    exact ⟨by decide, h, by assumption⟩
  · cases hn

/-- A call that needs no memory, as a step. -/
theorem step_of_exec {guard : VfsState → Op → Prop} {s' : VfsState} (op : Op) {r : Ret}
    (hok : guard s op) (h : exec noMemory s op = .ok (r, s')) : Step guard s s' :=
  ⟨op, r, hok, noMemory, noMemory_ok s, h⟩

/-- The state after a call. -/
def after (alloc : Allocator) (s : VfsState) (op : Op) : VfsState :=
  match exec alloc s op with
  | .ok (_, s') => s'
  | .error _ => s

/-- The answer of a call, when it returns. -/
def answer (alloc : Allocator) (s : VfsState) (op : Op) : Option Ret :=
  match exec alloc s op with
  | .ok (r, _) => some r
  | .error _ => none

theorem exec_of_answer {alloc : Allocator} {op : Op} {r : Ret}
    (h : answer alloc s op = some r) : exec alloc s op = .ok (r, after alloc s op) := by
  unfold answer at h
  unfold after
  cases hx : exec alloc s op with
  | error e => simp [hx] at h
  | ok x =>
    obtain ⟨r', s'⟩ := x
    simp only [hx, Option.some.injEq] at h
    rw [h]

/-- `VFS_O_RDWR | VFS_O_CREAT`. -/
def rdwrCreat : ℕ := 0x13

/-- `/a`, `/b` and `/a/b`. -/
def pathA : Str := [0x2F, 0x61]
def pathB : Str := [0x2F, 0x62]
def pathAB : Str := [0x2F, 0x61, 0x2F, 0x62]

theorem tree_of_run_mkdir :
    ((vfsMkdir (vfsInit blank).2 pathA).2.nodes 1).used = true ∧
      ∃ k, (parentOf (vfsMkdir (vfsInit blank).2 pathA).2)^[k] 1 = 0 ∧
        ∀ j, ((vfsMkdir (vfsInit blank).2 pathA).2.nodes
          ((parentOf (vfsMkdir (vfsInit blank).2 pathA).2)^[j] 1)).used = true := by
  have hused : ((vfsMkdir (vfsInit blank).2 pathA).2.nodes 1).used = true := by decide +kernel
  exact ⟨hused, tree_of_run (.single (step_of_exec (.mkdir pathA) trivial rfl)) 1 hused⟩

/-- **`mkdir /a`, then `rename /a /a/b`**: node 1 becomes its own parent, and no
number of parent links leads from it to the root. -/
theorem tree_breaks :
    ∃ s i, Run (fun _ _ => True) (vfsInit blank).2 s ∧ (s.nodes i).used = true ∧
      ∀ k, (parentOf s)^[k] i ≠ 0 := by
  refine ⟨(vfsRename (vfsMkdir (vfsInit blank).2 pathA).2 pathA pathAB).2, 1, ?_, ?_, ?_⟩
  · exact .tail (.single (step_of_exec (.mkdir pathA) trivial rfl))
      (step_of_exec (.rename pathA pathAB) trivial rfl)
  · decide +kernel
  · have hself : parentOf (vfsRename (vfsMkdir (vfsInit blank).2 pathA).2 pathA pathAB).2 1 = 1 := by
      decide +kernel
    intro k
    rw [iterate_fixed hself]
    decide

end ExoCore.Vfs
