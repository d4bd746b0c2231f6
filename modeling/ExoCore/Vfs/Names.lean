/-
  ExoCore.Vfs.Names — sibling names are UNIQUE, and what was just created is
  found under its path.

  `copy_name` stores at most 31 characters, `name_eq` compares the whole
  component.  For leaves of at most 31 characters the two agree and both laws
  hold (`names_of_run`); for longer ones a second `mkdir` of the same path
  succeeds and makes a twin (`names_clash`).
-/
import ExoCore.Lib.Tables
import ExoCore.Vfs.Tree

namespace ExoCore.Vfs

open ExoCore.Lib Function List

/-! ## §1. Unique names. -/

/-- A name that `copy_name` does not cut. -/
def Fits (leaf : Str) : Prop := leaf.length ≤ vfsMaxName

instance (leaf : Str) : Decidable (Fits leaf) := inferInstanceAs (Decidable (_ ≤ _))

/-- The leaf a call would store fits. -/
def LeafOk (s : VfsState) : Op → Prop
  | .mkdir path => ∀ p leaf, resolveParent s path = some (p, leaf) → Fits leaf
  | .open path flags => hasFlag flags vfsOCreat = true → resolvePath s path = none →
      ∀ p leaf, resolveParent s path = some (p, leaf) → Fits leaf
  | .rename _ newPath => ∀ p leaf, resolveParent s newPath = some (p, leaf) → Fits leaf
  | _ => True

theorem copyName_fits {leaf : Str} (h : Fits leaf) : copyName leaf = leaf :=
  take_of_length_le h

/-- Used siblings have different names. -/
def UniqueNames (s : VfsState) : Prop :=
  ∀ i j, i ≠ j → (s.entry i).used = true → (s.entry j).used = true →
    (s.entry i).parent = (s.entry j).parent → (s.entry i).name ≠ (s.entry j).name

section Unique

variable {s s' : VfsState}

/-- Writing one entry keeps names unique when no used sibling has its name. -/
theorem UniqueNames.update {i : NodeId} {e : Entry} (h : UniqueNames s)
    (hentry : s'.entry = update s.entry i e)
    (hnew : e.used = true → ∀ j, j ≠ i → (s.entry j).used = true → (s.entry j).parent = e.parent →
      (s.entry j).name ≠ e.name) : UniqueNames s' := by
  obtain ⟨hi, hold⟩ := eq_update_iff.mp hentry
  intro a b hab ha hb hpar
  by_cases hai : a = i
  · have hbi : b ≠ i := fun hbi => hab (hai.trans hbi.symm)
    rw [hai, hi] at ha hpar ⊢
    rw [hold b hbi] at hb hpar ⊢
    exact fun heq => hnew ha b hbi hb hpar.symm heq.symm
  · rw [hold a hai] at ha hpar ⊢
    by_cases hbi : b = i
    · rw [hbi, hi] at hb hpar ⊢
      exact hnew hb a hai ha hpar
    · rw [hold b hbi] at hb hpar ⊢
      exact h a b hab ha hb hpar

/-- An entry under a leaf that no sibling has. -/
theorem Placed.unique {i : NodeId} {e : Entry} {leaf : Str} (h : Placed s s' i e leaf)
    (hu : UniqueNames s) (hp : IsDir s e.parent) (hnone : findChild s e.parent leaf = none)
    (hfit : Fits leaf) : UniqueNames s' := by
  refine hu.update h.entry fun _ j _ hj hpar => ?_
  rw [h.name, copyName_fits hfit]
  exact findChild_none hp hnone j hj hpar

theorem uniqueNames_congr (h : s'.entry = s.entry) (hu : UniqueNames s) : UniqueNames s' := by
  unfold UniqueNames
  rw [h]
  exact hu

/-- **A call whose leaf fits keeps names unique.** -/
theorem TreeStep.unique {op : Op} (h : TreeStep s op s') (hok : LeafOk s op) (hw : Wf s)
    (hu : UniqueNames s) : UniqueNames s' := by
  cases h with
  | same h => exact uniqueNames_congr h.entry hu
  | mkdir hpath hnew h =>
    exact h.placed.unique hu (hw.resolveParent hpath) hnew (hok _ _ hpath)
  | create hnone hcreat hpath h =>
    -- `vfs_open` does not look the leaf up again: `resolve_path` just did
    have hnew := hnone
    rw [resolvePath_of_parent hw.ready hpath] at hnew
    exact h.placed.unique hu (hw.resolveParent hpath) hnew (hok hcreat hnone _ _ hpath)
  | rename hold _ hpath hnew h =>
    exact (h.placed (hw.resolvePath hold)).unique hu (hw.resolveParent hpath) hnew (hok _ _ hpath)
  | remove _ _ h =>
    refine hu.update h.entry fun hused => ?_
    cases hused
  | chdir _ _ hentry _ _ => exact uniqueNames_congr hentry hu

theorem vfsInit_unique (s : VfsState) : UniqueNames (vfsInit s).2 := by
  intro i j hij hi hj
  exact absurd ((vfsInit_used hi).trans (vfsInit_used hj).symm) hij

end Unique

/-! ## §2. The walk after one entry changed. -/

/-- Absolute and free of `..`. -/
def Direct (path : Str) : Prop := path.head? = some slash ∧ dotdot ∉ components path

theorem Direct.startNode {s : VfsState} {path : Str} (h : Direct path) : startNode s path = 0 :=
  if_pos h.1

section Walk

variable {s s' : VfsState}

/-- **Transport of a walk**: if the directories that were found are still found,
the walk through them ends where it did. -/
theorem walk_transport {cs : List Str} {node n : NodeId}
    (hcs : ∀ c ∈ cs, c ≠ [] ∧ c ≠ dot ∧ c ≠ dotdot)
    (hfind : ∀ q c m, findChild s q c = some m → (s.nodes m).type = .dir →
      findChild s' q c = some m)
    (h : walkDirs s node cs = some n) : walk s' node cs = some n := by
  induction cs generalizing node with
  | nil => exact h
  | cons c cs ih =>
    rw [walkDirs_cons] at h
    obtain ⟨m, hm, h⟩ := Option.bind_eq_some_iff.mp h
    obtain ⟨h0, h1, h2⟩ := hcs c (by simp)
    rcases enterLast_some hm with ⟨hc, -⟩ | ⟨-, hf, hd⟩
    · exact absurd hc h2
    · rw [walk_cons, enter_name h0 h1 h2, hfind _ _ _ hf hd]
      exact ih (fun c hc => hcs c (by simp [hc])) h

variable {leaf path : Str} {i p : NodeId}

/-- A node that was put below `p` under the name `leaf` is found by the path that
named `p` and `leaf`. -/
theorem resolvePath_placed (hready : s'.ready = true)
    (hdirect : Direct path) (hpath : resolveParent s path = some (p, leaf))
    (hfind : ∀ q c m, findChild s q c = some m → (s.nodes m).type = .dir →
      findChild s' q c = some m)
    (hleaf : findChild s' p leaf = some i) : resolvePath s' path = some i := by
  obtain ⟨⟨h0, h1, h2⟩, init, hinit, hwalk⟩ := resolveParent_spec hpath
  rw [hdirect.startNode] at hwalk
  have hcs : ∀ c ∈ init, c ≠ [] ∧ c ≠ dot ∧ c ≠ dotdot := by
    intro c hc
    have hmem : c ∈ plain path := by simp [hinit, hc]
    obtain ⟨hc0, hc1, -⟩ := mem_plain hmem
    exact ⟨hc0, hc1, fun hdd => hdirect.2 (hdd ▸ mem_of_mem_filter hmem)⟩
  rw [resolvePath_eq hready (resolveParent_path_ne hpath), hdirect.startNode, hinit, walk_append,
    walk_transport hcs hfind hwalk]
  show walk s' p [leaf] = some i
  rw [walk_singleton, enter_name h0 h1 h2, hleaf]

/-- A node under an unused name: the lookups of other nodes still succeed, and it is found. -/
theorem Placed.found {e : Entry} (h : Placed s s' i e leaf) (hp : IsDir s e.parent)
    (hnone : findChild s e.parent leaf = none) (hfit : Fits leaf) :
    (∀ q c m, findChild s q c = some m → m ≠ i → findChild s' q c = some m) ∧
      findChild s' e.parent leaf = some i := by
  obtain ⟨hi, hold⟩ := eq_update_iff.mp h.entry
  have hname := h.name.trans (copyName_fits hfit)
  have hiff : ∀ q c j, j ≠ i → (isChild s' q c j = true ↔ isChild s q c j = true) := by
    intro q c j hj
    rw [isChild_iff, isChild_iff, hold j hj]
  refine ⟨?_, ?_⟩
  · intro q c m hm hmi
    have hq := (findChild_some hm).1
    rw [findChild_dir hq] at hm
    rw [findChild_dir (h.isDir q hq)]
    refine find?_of_imp hm ?_ ((hiff q c m hmi).mpr (find?_some hm))
    intro j hj
    by_cases hji : j = i
    · -- `i` answers to `leaf` below its parent only, where nothing was found before
      rw [hji, isChild_iff, hi, hname] at hj
      rw [findChild_dir hp, hj.2.1, hj.2.2, hm] at hnone
      cases hnone
    · exact (hiff q c j hji).mp hj
  · rw [findChild_dir (h.isDir _ hp)]
    refine find?_finRange_unique ?_ fun j hj => ?_
    · rw [isChild_iff, hi]
      exact ⟨h.used, rfl, hname⟩
    · by_contra hji
      rw [findChild_dir hp] at hnone
      exact find?_eq_none.mp hnone j (mem_finRange j) ((hiff _ leaf j hji).mp hj)

/-- The directories on the way are other nodes than the one that was put there. -/
theorem Placed.visible {e : Entry} (h : Placed s s' i e leaf) (hw : Wf s) (hnot : ¬IsDir s i)
    (hdirect : Direct path) (hpath : resolveParent s path = some (e.parent, leaf))
    (hnone : findChild s e.parent leaf = none) (hfit : Fits leaf) : resolvePath s' path = some i := by
  obtain ⟨hfind, hleaf⟩ := h.found (hw.resolveParent hpath) hnone hfit
  refine resolvePath_placed (h.ready.trans hw.ready) hdirect hpath ?_ hleaf
  intro q c m hm hd
  refine hfind q c m hm ?_
  rintro rfl
  exact hnot ⟨(findChild_some hm).2.1, hd⟩

/-- The walkers read the tree only. -/
theorem SameTree.enter (h : SameTree s s') (node : NodeId) (c : Str) :
    enter s' node c = enter s node c := by
  have hentry : ∀ i, s'.entry i = s.entry i := congrFun h.entry
  have hchild : ∀ q c, isChild s' q c = isChild s q c := by
    intro q c
    funext i
    rw [Bool.eq_iff_iff, isChild_iff, isChild_iff, hentry i]
  have hfind : findChild s' node c = findChild s node c := by
    have hu : (s'.nodes node).used = (s.nodes node).used := congrArg Entry.used (hentry node)
    have ht : (s'.nodes node).type = (s.nodes node).type := congrArg Entry.type (hentry node)
    rw [findChild, findChild, hu, ht, hchild]
  have hup : Vfs.upFrom s' node = Vfs.upFrom s node := by
    have hp : (s'.nodes node).parent = (s.nodes node).parent := congrArg Entry.parent (hentry node)
    rw [Vfs.upFrom, Vfs.upFrom, hp]
  rw [Vfs.enter, Vfs.enter, hfind, hup]

theorem SameTree.resolvePath (h : SameTree s s') (path : Str) (hready : s.ready = true) :
    resolvePath s' path = resolvePath s path := by
  by_cases hpath : path = []
  · rw [hpath]
    simp [Vfs.resolvePath]
  · have hstart : Vfs.startNode s' path = Vfs.startNode s path := by
      rw [Vfs.startNode, Vfs.startNode, h.cwdNode]
    have henter : Vfs.enter s' = Vfs.enter s := funext fun n => funext fun c => h.enter n c
    rw [resolvePath_eq (h.ready.trans hready) hpath, resolvePath_eq hready hpath, hstart]
    unfold Vfs.walk
    rw [henter]

end Walk

/-! ## §3. Creation is visible. -/

section Visible

variable {alloc : Allocator} {s s' : VfsState} {path : Str}

theorem vfsMkdir_visible (hw : Wf s) (hdirect : Direct path) (hok : LeafOk s (.mkdir path))
    (h : vfsMkdir s path = (true, s')) :
    ∃ i, (s.nodes i).used = false ∧ (s'.nodes i).used = true ∧ resolvePath s' path = some i := by
  unfold vfsMkdir at h
  split at h
  · cases h
  rename_i p leaf hpath
  split at h
  · cases h
  rename_i hnew
  split at h
  · cases h
  rename_i i t halloc
  cases h
  have hadds := allocNode_adds halloc
  have hi : (s'.entry i).used = true := by
    rw [hadds.entry, update_self]
  exact ⟨i, freeNode_unused hadds.free, hi, hadds.placed.visible hw (fun hd => hadds.fresh hd.1)
    hdirect hpath (Option.not_isSome_iff_eq_none.mp hnew) (hok _ _ hpath)⟩

theorem vfsRename_visible {oldPath : Str} {node : NodeId} (hw : Wf s) (hdirect : Direct path)
    (hok : LeafOk s (.rename oldPath path)) (hold : resolvePath s oldPath = some node)
    (hfile : (s.nodes node).type ≠ .dir) (h : vfsRename s oldPath path = (true, s')) :
    resolvePath s' path = some node := by
  have hused := hw.resolvePath hold
  unfold vfsRename at h
  rw [hold] at h
  dsimp only at h
  split at h
  · cases h
  split at h
  · cases h
  rename_i p leaf hpath
  split at h
  · cases h
  rename_i hnew
  cases h
  exact ((moves_setNode s node p leaf).placed hused).visible hw (fun hd => hfile hd.2) hdirect hpath
    (Option.not_isSome_iff_eq_none.mp hnew) (hok _ _ hpath)

theorem claimSlot_node {node : NodeId} {flags : ℕ} {fd : Slot}
    (h : claimSlot s node flags = (some fd, s')) : (s'.openFiles fd).node = node := by
  unfold claimSlot at h
  split at h
  · cases h
  · cases h
    simp [VfsState.setOpen]

theorem vfsOpen_visible {flags : ℕ} {fd : Slot} (hw : Wf s) (hdirect : Direct path)
    (hok : LeafOk s (.open path flags)) (h : vfsOpen alloc s path flags = .ok (some fd, s')) :
    (resolvePath s path = some (s'.openFiles fd).node ∨
        (s.nodes (s'.openFiles fd).node).used = false) ∧
      resolvePath s' path = some (s'.openFiles fd).node := by
  obtain ⟨-, hr, -⟩ | ⟨node, -, -, hr, -⟩ | ⟨node, s₁, hnode, hclaim⟩ := vfsOpen_cases h
  · cases hr
  · cases hr
  have hrest : SameTree s₁ s' := by
    have h₃ := claimSlot_sameTree (truncated s₁ node flags) node flags
    rw [← hclaim] at h₃
    exact (truncated_sameTree s₁ node flags).trans h₃
  rw [claimSlot_node hclaim.symm]
  rcases openNode_cases hnode with ⟨hfound, rfl⟩ | ⟨hnone, hcreat, p, leaf, hpath, halloc⟩
  · refine ⟨.inl hfound, ?_⟩
    rw [hrest.resolvePath path hw.ready]
    exact hfound
  · have hadds := (allocNode_adds halloc).then_same hrest
    refine ⟨.inr (freeNode_unused hadds.free),
      hadds.placed.visible hw (fun hd => hadds.fresh hd.1) hdirect hpath ?_
        (hok hcreat hnone _ _ hpath)⟩
    rw [← resolvePath_of_parent hw.ready hpath]
    exact hnone

end Visible

/-- **Unique names, visible creation**: in every state of a run whose leaves fit,
used siblings have different names, and after a successful `mkdir`, `open` or
`rename` of a file with such a leaf the path leads to the node made, opened or
moved. -/
theorem names_of_run {s₀ s : VfsState} (hrun : Run LeafOk (vfsInit s₀).2 s) :
    (∀ i j, i ≠ j → (s.nodes i).used = true → (s.nodes j).used = true →
      (s.nodes i).parent = (s.nodes j).parent → (s.nodes i).name ≠ (s.nodes j).name) ∧
    (∀ path s', Direct path → LeafOk s (.mkdir path) → vfsMkdir s path = (true, s') →
      ∃ i, (s.nodes i).used = false ∧ (s'.nodes i).used = true ∧ resolvePath s' path = some i) ∧
    (∀ alloc path flags fd s', Direct path → LeafOk s (.open path flags) →
      hasFlag flags vfsOCreat = true → vfsOpen alloc s path flags = .ok (some fd, s') →
      (resolvePath s path = some (s'.openFiles fd).node ∨
          (s.nodes (s'.openFiles fd).node).used = false) ∧
        resolvePath s' path = some (s'.openFiles fd).node) ∧
    (∀ oldPath path node s', Direct path → LeafOk s (.rename oldPath path) →
      resolvePath s oldPath = some node → (s.nodes node).type ≠ .dir →
      vfsRename s oldPath path = (true, s') → resolvePath s' path = some node) := by
  have hw := wf_of_run hrun
  have hunique : Wf s ∧ UniqueNames s := by
    refine inv_of_run (fun s => Wf s ∧ UniqueNames s) hrun ⟨vfsInit_wf s₀, vfsInit_unique s₀⟩ ?_
    rintro a b ⟨hw, hu⟩ ⟨op, r, hok, alloc, -, hexec⟩
    have hstep := exec_tree hexec
    exact ⟨hstep.wf hw, hstep.unique hok hw hu⟩
  refine ⟨hunique.2, ?_, ?_, ?_⟩
  · intro path s' hdirect hok h
    exact vfsMkdir_visible hw hdirect hok h
  · intro alloc path flags fd s' hdirect hok _ h
    exact vfsOpen_visible hw hdirect hok h
  · intro oldPath path node s' hdirect hok hold hfile h
    exact vfsRename_visible hw hdirect hok hold hfile h

theorem names_of_run_mkdir :
    ∃ i, ((vfsMkdir (vfsInit blank).2 pathA).2.nodes i).used = false ∧
      ((vfsMkdir (vfsMkdir (vfsInit blank).2 pathA).2 pathAB).2.nodes i).used = true ∧
      resolvePath (vfsMkdir (vfsMkdir (vfsInit blank).2 pathA).2 pathAB).2 pathAB = some i := by
  have hrun : Run LeafOk (vfsInit blank).2 (vfsMkdir (vfsInit blank).2 pathA).2 := by
    refine .single (step_of_exec (.mkdir pathA) ?_ rfl)
    intro p leaf h
    cases (show resolveParent (vfsInit blank).2 pathA = some (0, [0x61]) by decide +kernel).symm.trans h
    decide
  refine (names_of_run hrun).2.1 pathAB _ ⟨rfl, by decide⟩ ?_ (Prod.ext ?_ rfl)
  · intro p leaf h
    cases (show resolveParent (vfsMkdir (vfsInit blank).2 pathA).2 pathAB = some (1, [0x62]) by
      decide +kernel).symm.trans h
    decide
  · decide +kernel

/-- `/` and 32 times `a`. -/
def pathLong : Str := slash :: List.replicate 32 0x61

/-- **The same `mkdir` twice** with a leaf of 32 characters: the name is stored
with 31, the second lookup compares 32 and finds nothing, and two siblings end
up with the same name. -/
theorem names_clash :
    ∃ s i j, Run (fun _ _ => True) (vfsInit blank).2 s ∧ i ≠ j ∧ (s.nodes i).used = true ∧
      (s.nodes j).used = true ∧ (s.nodes i).parent = (s.nodes j).parent ∧
      (s.nodes i).name = (s.nodes j).name := by
  refine ⟨(vfsMkdir (vfsMkdir (vfsInit blank).2 pathLong).2 pathLong).2, 1, 2, ?_, by decide,
    ?_, ?_, ?_, ?_⟩
  · exact .tail (.single (step_of_exec (.mkdir pathLong) trivial rfl))
      (step_of_exec (.mkdir pathLong) trivial rfl)
  all_goals decide +kernel

end ExoCore.Vfs
