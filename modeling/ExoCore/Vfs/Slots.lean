/-
  ExoCore.Vfs.Slots — what the calls do to the OPEN-FILE TABLE.

    * `Effect.slotsSame` — reading, writing and seeking open, close and move no slot;
    * `vfsClose_slots` — one slot is cleared;
    * `vfsOpen_slots` — one unused slot is taken, or none;
    * `vfsOpen_failed` — what a call of `vfs_open` that answers `-1` has done: nothing,
      unless the table of open files was full and the file was created or truncated
      before that was noticed.
-/
import ExoCore.Vfs.Buffers
import ExoCore.Vfs.Tree

namespace ExoCore.Vfs

open ExoCore.Lib Function

/-! ## §1. Reading, writing, seeking, closing. -/

/-- The same slots are open, on the same nodes. -/
def SlotsSame (s s' : VfsState) : Prop :=
  ∀ k, (s'.openFiles k).used = (s.openFiles k).used ∧ (s'.openFiles k).node = (s.openFiles k).node

section Slots

variable {s s' : VfsState}

theorem SlotsSame.refl (s : VfsState) : SlotsSame s s := fun _ => ⟨rfl, rfl⟩

theorem SlotsSame.of_eq (h : s'.openFiles = s.openFiles) : SlotsSame s s' := by
  intro k
  rw [h]
  exact ⟨rfl, rfl⟩

/-- Moving a cursor. -/
theorem slotsSame_setOpen (s : VfsState) (k : Slot) (c : ℕ) :
    SlotsSame s (s.setOpen k { s.openFiles k with offset := c }) := by
  intro j
  by_cases hj : j = k
  · subst hj
    simp [VfsState.setOpen]
  · simp [VfsState.setOpen, hj]

variable {alloc : Allocator}

theorem writeFile_slots {slot : Slot} {bytes : List UInt8} {r : Option ℕ}
    (h : writeFile alloc s slot bytes = .ok (r, s')) : SlotsSame s s' := by
  obtain ⟨b, o, d, c, n, rfl⟩ := writeFile_frame h
  exact slotsSame_setOpen s slot o

/-- **Reading, writing and seeking** open and close no slot. -/
theorem Effect.slotsSame {op : Op} {r : Ret} (h : Effect alloc s op r s')
    (hop : op.OnCursor) : SlotsSame s s' := by
  cases h with
  | none => exact SlotsSame.refl s
  | read | lseek => exact slotsSame_setOpen s _ _
  | write _ _ hwrite => exact writeFile_slots hwrite
  | _ => exact absurd hop id

/-- `vfs_close(fd)` leaves slot `fd` unused and every other slot as it is. -/
theorem vfsClose_slots (s : VfsState) (fd : ℤ) (k : Slot) :
    ((k.val : ℤ) = fd → ((vfsClose s fd).2.openFiles k).used = false) ∧
      ((k.val : ℤ) ≠ fd → (vfsClose s fd).2.openFiles k = s.openFiles k) := by
  unfold vfsClose
  split
  · rename_i hnone
    refine ⟨fun hk => ?_, fun _ => rfl⟩
    by_contra hused
    have hused : (s.openFiles k).used = true := by simpa using hused
    rw [← hk, openSlot_of_used hused] at hnone
    cases hnone
  · rename_i slot hslot
    obtain ⟨hfd, -⟩ := openSlot_some hslot
    refine ⟨fun hk => ?_, fun hk => ?_⟩
    · have hks : k = slot := Fin.ext (by omega)
      rw [hks]
      simp [VfsState.setOpen, VfsOpen.zero]
    · have hks : k ≠ slot := fun he => hk (by rw [he, hfd])
      simp [VfsState.setOpen, hks]

theorem vfsClose_rest (s : VfsState) (fd : ℤ) :
    (vfsClose s fd).2.nodes = s.nodes ∧ (vfsClose s fd).2.bufs = s.bufs := by
  unfold vfsClose
  split <;> exact ⟨rfl, rfl⟩

end Slots

/-! ## §2. Opening. -/

section Open

variable {alloc : Allocator} {s s' : VfsState} {path : Str} {flags : ℕ}

theorem truncated_openFiles (s : VfsState) (node : NodeId) (flags : ℕ) :
    (truncated s node flags).openFiles = s.openFiles := by
  unfold truncated
  split <;> rfl

theorem allocNode_openFiles {t : NodeType} {p i : NodeId} {leaf : Str}
    (h : allocNode s t p leaf = some (i, s')) : s'.openFiles = s.openFiles := by
  obtain ⟨-, rfl⟩ := allocNode_some h
  rfl

variable {node : NodeId} {s₁ : VfsState}

theorem openNode_openFiles
    (h : openNode s path flags = some (node, s₁)) : s₁.openFiles = s.openFiles := by
  obtain ⟨-, rfl⟩ | ⟨-, -, p, leaf, -, halloc⟩ := openNode_cases h
  · rfl
  · exact allocNode_openFiles halloc

/-- **`vfs_open` and the slots**: the slot it answers was unused, and no other changed. -/
theorem vfsOpen_slots {r : Option Slot} (h : vfsOpen alloc s path flags = .ok (r, s')) :
    (r = none → s'.openFiles = s.openFiles) ∧
      ∀ k, r = some k → (s.openFiles k).used = false ∧ (s'.openFiles k).used = true ∧
        ∀ j, j ≠ k → s'.openFiles j = s.openFiles j := by
  rcases vfsOpen_cases h with ⟨-, rfl, rfl⟩ | ⟨node, -, -, rfl, rfl⟩ | ⟨node, s₁, hnode, hclaim⟩
  · exact ⟨fun _ => rfl, fun k hk => by cases hk⟩
  · exact ⟨fun _ => rfl, fun k hk => by cases hk⟩
  have hfiles : (truncated s₁ node flags).openFiles = s.openFiles :=
    (truncated_openFiles s₁ node flags).trans (openNode_openFiles hnode)
  unfold claimSlot at hclaim
  split at hclaim
  · cases hclaim
    exact ⟨fun _ => hfiles, fun k hk => by cases hk⟩
  · rename_i fd hfd
    cases hclaim
    refine ⟨fun hr => (by cases hr), fun k hk => ?_⟩
    cases hk
    have hunused := List.find?_some hfd
    rw [hfiles] at hunused
    refine ⟨by simpa using hunused, by simp [VfsState.setOpen], fun j hj => ?_⟩
    show update (truncated s₁ node flags).openFiles fd _ j = _
    rw [update_of_ne hj, hfiles]

/-- Some slot is free. -/
def SlotFree (s : VfsState) : Prop := ∃ k, (s.openFiles k).used = false

/-- Opening `path` neither creates a file nor cuts one that is not empty. -/
def NoEffect (s : VfsState) (path : Str) (flags : ℕ) : Prop :=
  match resolvePath s path with
  | some node =>
    ¬(hasFlag flags vfsOTrunc = true ∧ (s.nodes node).type = .file ∧ (s.nodes node).size ≠ 0)
  | none =>
    ¬(hasFlag flags vfsOCreat = true ∧ resolveParent s path ≠ none ∧ freeNode s ≠ none)

/-- `VFS_O_RDONLY` alone neither creates nor cuts. -/
theorem noEffect_rdonly (s : VfsState) (path : Str) : NoEffect s path 1 := by
  unfold NoEffect
  split
  · exact fun h => absurd h.1 (by decide)
  · exact fun h => absurd h.1 (by decide)

/-- Creating a file is visible in the node table, whatever follows. -/
theorem allocNode_visible {p i : NodeId} {leaf : Str}
    (h : allocNode s .file p leaf = some (i, s₁)) (flags : ℕ) :
    (truncated s₁ i flags).nodes ≠ s.nodes := by
  intro heq
  have hadds := allocNode_adds h
  have hunused : (s.entry i).used = false := freeNode_unused hadds.free
  have hused : (s₁.nodes i).used = true := by
    have he := congrFun hadds.entry i
    rw [update_self] at he
    exact congrArg Entry.used he
  have hkeep : ((truncated s₁ i flags).nodes i).used = (s₁.nodes i).used := by
    unfold truncated
    split
    · simp [VfsState.setNode]
    · rfl
  rw [heq, hused] at hkeep
  rw [show (s.entry i).used = (s.nodes i).used from rfl, hkeep] at hunused
  cases hunused

/-- What stands in the node table after the file was made ready. -/
theorem truncated_nodes
    (h : openNode s path flags = some (node, s₁)) :
    ((truncated s₁ node flags).nodes = s.nodes ↔ NoEffect s path flags) ∧
      (NoEffect s path flags → truncated s₁ node flags = s) := by
  unfold NoEffect
  obtain ⟨hpath, rfl⟩ | ⟨hnone, hcreat, p, leaf, hparent, halloc⟩ := openNode_cases h
  · rw [hpath]
    dsimp only
    unfold truncated
    by_cases htrunc : hasFlag flags vfsOTrunc = true ∧ (s₁.nodes node).type = .file
    · rw [if_pos htrunc]
      have hsize : (s₁.setNode node { s₁.nodes node with size := 0 }).nodes = s₁.nodes ↔
          (s₁.nodes node).size = 0 := by
        constructor
        · intro he
          have hnode := congrArg VfsNode.size (congrFun he node)
          rw [show (s₁.setNode node { s₁.nodes node with size := 0 }).nodes node =
            { s₁.nodes node with size := 0 } from update_self ..] at hnode
          exact hnode.symm
        · intro h0
          refine (congrArg (update s₁.nodes node) ?_).trans (update_eq_self node s₁.nodes)
          rw [← h0]
      refine ⟨hsize.trans ⟨fun h0 hbad => hbad.2.2 h0, fun hok => ?_⟩, fun hok => ?_⟩
      · by_contra h0
        exact hok ⟨htrunc.1, htrunc.2, h0⟩
      · have h0 : (s₁.nodes node).size = 0 := by
          by_contra h0
          exact hok ⟨htrunc.1, htrunc.2, h0⟩
        unfold VfsState.setNode
        rw [show update s₁.nodes node { s₁.nodes node with size := 0 } = s₁.nodes from
          hsize.mpr h0]
    · rw [if_neg htrunc]
      exact ⟨⟨fun _ hbad => htrunc ⟨hbad.1, hbad.2.1⟩, fun _ => rfl⟩, fun _ => rfl⟩
  · rw [hnone]
    dsimp only
    have hbad : hasFlag flags vfsOCreat = true ∧ resolveParent s path ≠ none ∧ freeNode s ≠ none := by
      refine ⟨hcreat, by rw [hparent]; simp, ?_⟩
      rw [(allocNode_adds halloc).free]
      simp
    exact ⟨⟨fun he => absurd he (allocNode_visible halloc flags), fun hok => absurd hbad hok⟩,
      fun hok => absurd hbad hok⟩

theorem claimSlot_none
    (h : (none, s') = claimSlot s₁ node flags) : s' = s₁ ∧ ∀ k, (s₁.openFiles k).used = true := by
  unfold claimSlot at h
  split at h
  · rename_i hfull
    cases h
    refine ⟨rfl, fun k => ?_⟩
    simpa using List.find?_eq_none.mp hfull k (List.mem_finRange k)
  · cases h

/-- Without a node there is nothing to create. -/
theorem noEffect_of_openNode (h : openNode s path flags = none) : NoEffect s path flags := by
  unfold openNode at h
  unfold NoEffect
  cases hres : resolvePath s path with
  | some node =>
    rw [hres] at h
    cases h
  | none =>
    rw [hres] at h
    rintro ⟨hcreat, hparent, hfree⟩
    dsimp only at h
    rw [if_pos hcreat] at h
    split at h
    · rename_i hnp
      exact hparent hnp
    · unfold allocNode at h
      split at h
      · rename_i hnf
        exact hfree hnf
      · cases h

theorem noEffect_of_dir (h : resolvePath s path = some node)
    (hdir : (s.nodes node).type = .dir) : NoEffect s path flags := by
  unfold NoEffect
  rw [h]
  rintro ⟨-, hfile, -⟩
  rw [hdir] at hfile
  cases hfile

/-- **A call of `vfs_open` that answers `-1`** has changed nothing exactly when a slot was
free or there was nothing to create or cut. -/
theorem vfsOpen_failed (h : vfsOpen alloc s path flags = .ok (none, s')) :
    (s' = s ↔ SlotFree s ∨ NoEffect s path flags) ∧
      (s'.nodes = s.nodes ↔ SlotFree s ∨ NoEffect s path flags) := by
  rcases vfsOpen_cases h with ⟨hnone, -, rfl⟩ | ⟨node, hpath, hdir, -, rfl⟩ | ⟨node, s₁, hnode, hclaim⟩
  · have hno := noEffect_of_openNode hnone
    exact ⟨⟨fun _ => .inr hno, fun _ => rfl⟩, ⟨fun _ => .inr hno, fun _ => rfl⟩⟩
  · have hno : NoEffect s' path flags := noEffect_of_dir hpath hdir
    exact ⟨⟨fun _ => .inr hno, fun _ => rfl⟩, ⟨fun _ => .inr hno, fun _ => rfl⟩⟩
  obtain ⟨rfl, hfull⟩ := claimSlot_none hclaim
  obtain ⟨hiff, hsame⟩ := truncated_nodes hnode
  have hslots : ¬SlotFree s := by
    rintro ⟨k, hk⟩
    have hused := hfull k
    rw [truncated_openFiles, openNode_openFiles hnode, hk] at hused
    cases hused
  refine ⟨⟨fun he => .inr (hiff.mp (congrArg VfsState.nodes he)), fun hor => ?_⟩,
    hiff.trans ⟨.inr, fun hor => ?_⟩⟩
  · exact hsame (hor.resolve_left hslots)
  · exact hor.resolve_left hslots

/-- With a slot free, `-1` means that there was nothing to create or cut. -/
theorem vfsOpen_refused (h : vfsOpen alloc s path flags = .ok (none, s')) (hfree : SlotFree s) :
    NoEffect s path flags := by
  rcases vfsOpen_cases h with ⟨hnone, -, -⟩ | ⟨node, hpath, hdir, -, -⟩ | ⟨node, s₁, hnode, hclaim⟩
  · exact noEffect_of_openNode hnone
  · exact noEffect_of_dir hpath hdir
  · obtain ⟨k, hk⟩ := hfree
    have hused := (claimSlot_none hclaim).2 k
    rw [truncated_openFiles, openNode_openFiles hnode, hk] at hused
    cases hused

/-- A call of `vfs_open` that answers a slot. -/
theorem vfsOpen_succeeded {k : Slot} (h : vfsOpen alloc s path flags = .ok (some k, s')) :
    s'.nodes = s.nodes ↔ NoEffect s path flags := by
  rcases vfsOpen_cases h with ⟨-, hr, -⟩ | ⟨node, -, -, hr, -⟩ | ⟨node, s₁, hnode, hclaim⟩
  · cases hr
  · cases hr
  · have hs' : s' = (claimSlot (truncated s₁ node flags) node flags).2 := congrArg Prod.snd hclaim
    rw [hs', (claimSlot_rest _ node flags).1]
    exact (truncated_nodes hnode).1

/-- Cutting a file keeps its buffer, and creating one needs none. -/
theorem vfsOpen_bufs {r : Option Slot} (h : vfsOpen alloc s path flags = .ok (r, s')) :
    s'.bufs = s.bufs := by
  rcases vfsOpen_cases h with ⟨-, -, rfl⟩ | ⟨node, -, -, -, rfl⟩ | ⟨node, s₁, hnode, hclaim⟩
  · rfl
  · rfl
  have hs' : s' = (claimSlot (truncated s₁ node flags) node flags).2 := congrArg Prod.snd hclaim
  have htrunc : (truncated s₁ node flags).bufs = s₁.bufs := by
    unfold truncated
    split <;> rfl
  have hnew : s₁.bufs = s.bufs := by
    obtain ⟨-, rfl⟩ | ⟨-, -, p, leaf, -, halloc⟩ := openNode_cases hnode
    · rfl
    · obtain ⟨-, rfl⟩ := allocNode_some halloc
      rfl
  rw [hs', (claimSlot_rest _ node flags).2, htrunc, hnew]

end Open

end ExoCore.Vfs
