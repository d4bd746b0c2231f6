/-
  ExoCore.Vfs.Listing — what `vfs_getdents` lists.

  The children of a directory stand in the order of the node table, and the cursor
  of the descriptor counts those listed already.  The loop emits what comes after
  the cursor, up to the room there is (`getdentsLoop_eq`, `vfsGetdents_fst`).
-/
import ExoCore.Vfs.Names

namespace ExoCore.Vfs

open ExoCore.Lib List

/-- The test the loop of `vfs_getdents` makes on a slot. -/
def listed (s : VfsState) (dir i : NodeId) : Bool :=
  i != dir && (s.nodes i).used && (s.nodes i).parent == dir

/-- The children of `dir`, in the order of the table. -/
def childrenOf (s : VfsState) (dir : NodeId) : List NodeId :=
  (List.finRange 64).filter (listed s dir)

/-- The entry emitted for the node `i`. -/
def direntOf (s : VfsState) (i : NodeId) : VfsDirent where
  type := (s.nodes i).type
  inode := (s.nodes i).inode
  size := (s.nodes i).size
  name := copyName (s.nodes i).name

theorem listed_iff {s : VfsState} {dir i : NodeId} :
    listed s dir i = true ↔ ¬ (i = dir ∨ !(s.nodes i).used ∨ (s.nodes i).parent ≠ dir) := by
  simp [listed, and_assoc]

/-- **The loop of `vfs_getdents`**: skip the children before the cursor, emit the next ones
while there is room. -/
theorem getdentsLoop_eq (s : VfsState) (dir : NodeId) (offset maxEnts : ℕ) (l : List NodeId) :
    ∀ index emitted, getdentsLoop s dir offset maxEnts l index emitted =
      (((l.filter (listed s dir)).drop (offset - index)).take (maxEnts - emitted)).map
        (direntOf s) := by
  induction l with
  | nil =>
    intro index emitted
    simp [getdentsLoop]
  | cons i l ih =>
    intro index emitted
    show (if emitted < maxEnts then _ else _) = _
    by_cases hroom : emitted < maxEnts
    · rw [if_pos hroom]
      by_cases hskip : i = dir ∨ !(s.nodes i).used ∨ (s.nodes i).parent ≠ dir
      · rw [if_pos hskip, ih, filter_cons_of_neg (by rw [listed_iff]; exact not_not.mpr hskip)]
      · rw [if_neg hskip, filter_cons_of_pos (listed_iff.mpr hskip)]
        by_cases hcursor : index < offset
        · obtain ⟨d, hd⟩ : ∃ d, offset - index = d + 1 := ⟨offset - index - 1, by omega⟩
          rw [if_pos hcursor, ih, hd, drop_succ_cons, show offset - (index + 1) = d by omega]
        · obtain ⟨d, hd⟩ : ∃ d, maxEnts - emitted = d + 1 := ⟨maxEnts - emitted - 1, by omega⟩
          rw [if_neg hcursor, ih, hd, show offset - index = 0 by omega, drop_zero,
            take_succ_cons, map_cons, show offset - (index + 1) = 0 by omega,
            drop_zero, show maxEnts - (emitted + 1) = d by omega]
          rfl
    · rw [if_neg hroom, show maxEnts - emitted = 0 by omega]
      simp

/-- The children a descriptor has not listed yet. -/
def pending (s : VfsState) (slot : Slot) : List NodeId :=
  (childrenOf s (s.openFiles slot).node).drop (s.openFiles slot).offset

/-- **`vfs_getdents`** answers with the next pending children of an open directory. -/
theorem vfsGetdents_fst (s : VfsState) (fd : ℤ) (buf : Bool) (maxEnts : ℕ) :
    (vfsGetdents s fd buf maxEnts).1 =
      match openSlot s fd with
      | none => none
      | some slot =>
        if !buf ∨ (s.nodes (s.openFiles slot).node).type ≠ .dir then none
        else some (((pending s slot).take maxEnts).map (direntOf s)) := by
  unfold vfsGetdents
  cases openSlot s fd with
  | none => rfl
  | some slot =>
    dsimp only
    split
    · rfl
    · simp only [getdentsLoop_eq, Nat.sub_zero]
      rfl

end ExoCore.Vfs
