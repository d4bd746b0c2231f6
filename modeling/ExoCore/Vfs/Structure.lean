/-
  ExoCore.Vfs.Structure — names, types and INODE NUMBERS of the node table.

  `Wf` says where the links of the table lead.  This file adds what the slots
  hold: every used node is a file or a directory, its name is a path component,
  and no two nodes carry the same inode number.  The numbers come from the 32-bit
  counter `next_inode`, so a run also counts the nodes it has created.

    * `Effect.numbers`  — what a call does to the inode numbers;
    * `vfs_structure`   — the structural invariant in every state of every run,
      renames that create cycles included.
-/
import ExoCore.Vfs.Tree

namespace ExoCore.Vfs

open ExoCore.Lib Function List

/-! ## §1. Names. -/

/-- A name that a path can spell and that is not one of the two special ones. -/
def GoodName (name : Str) : Prop := name ≠ [] ∧ slash ∉ name ∧ name ≠ dot ∧ name ≠ dotdot

instance (name : Str) : Decidable (GoodName name) := inferInstanceAs (Decidable (_ ∧ _))

variable {leaf : Str}

/-- A name that is cut off at 31 characters is longer than the special ones. -/
theorem copyName_eq_short {short : Str} (hlen : short.length < vfsMaxName)
    (h : copyName leaf = short) : leaf = short := by
  have hl := congrArg List.length h
  rw [copyName, length_take] at hl
  rw [← h, copyName, take_of_length_le (by omega)]

theorem GoodName.copyName (h : GoodName leaf) : GoodName (copyName leaf) := by
  obtain ⟨h0, hs, h1, h2⟩ := h
  refine ⟨copyName_ne_nil h0, fun hmem => hs (mem_of_mem_take hmem), ?_, ?_⟩
  · intro heq
    exact h1 (copyName_eq_short (by decide) heq)
  · intro heq
    exact h2 (copyName_eq_short (by decide) heq)

/-- `resolve_parent` answers with a component of the path. -/
theorem resolveParent_goodName {s : VfsState} {path : Str} {p : NodeId}
    (h : resolveParent s path = some (p, leaf)) : GoodName leaf := by
  obtain ⟨⟨h0, h1, h2⟩, init, hinit, -⟩ := resolveParent_spec h
  have hmem : leaf ∈ plain path := by
    rw [hinit]
    exact mem_append_right init mem_cons_self
  exact ⟨h0, (mem_plain hmem).2.2, h1, h2⟩

/-! ## §2. Labels: type and name of a used node. -/

/-- Every used node but the root is a file or a directory with a good name. -/
def Labelled (s : VfsState) : Prop :=
  ∀ i, i ≠ 0 → (s.entry i).used = true →
    ((s.entry i).type = .file ∨ (s.entry i).type = .dir) ∧ GoodName (s.entry i).name

section Labels

variable {s s' : VfsState}

theorem Labelled.update {e : Entry} {i : NodeId} (h : Labelled s)
    (hentry : s'.entry = update s.entry i e)
    (he : i ≠ 0 → e.used = true → (e.type = .file ∨ e.type = .dir) ∧ GoodName e.name) :
    Labelled s' := by
  unfold Labelled
  rw [hentry]
  exact (forall_update_iff s.entry fun j e => j ≠ 0 → e.used = true →
    (e.type = .file ∨ e.type = .dir) ∧ GoodName e.name).mpr ⟨he, fun j _ => h j⟩

/-- **Every call keeps the labels.** -/
theorem TreeStep.labelled {op : Op} (h : TreeStep s op s') (hw : Wf s) (hl : Labelled s) :
    Labelled s' := by
  cases h with
  | same h =>
    intro i hi0 hi
    rw [h.entry] at hi ⊢
    exact hl i hi0 hi
  | mkdir hpath _ h =>
    exact hl.update h.entry fun _ _ => ⟨.inr rfl, (resolveParent_goodName hpath).copyName⟩
  | create _ _ hpath h =>
    exact hl.update h.entry fun _ _ => ⟨.inl rfl, (resolveParent_goodName hpath).copyName⟩
  | rename hold hroot hpath _ h =>
    -- the type stays, the name is the new leaf
    refine hl.update h.entry fun _ _ => ⟨?_, (resolveParent_goodName hpath).copyName⟩
    exact (hl _ hroot (hw.resolvePath hold)).1
  | remove _ _ h => exact hl.update h.entry fun _ hused => by cases hused
  | chdir _ _ hentry _ _ =>
    intro i hi0 hi
    rw [hentry] at hi ⊢
    exact hl i hi0 hi

theorem vfsInit_labelled (s : VfsState) : Labelled (vfsInit s).2 :=
  fun _ hi0 hi => absurd (vfsInit_used hi) hi0

end Labels

/-! ## §3. Inode numbers. -/

/-- **What a call does to the inode numbers**: every used node keeps its own, and
at most one node is added, which takes `next_inode`. -/
inductive Numbers (s s' : VfsState) : Prop
  | kept (hnext : s'.nextInode = s.nextInode)
      (hold : ∀ i, (s'.entry i).used = true →
        (s.entry i).used = true ∧ (s'.entry i).inode = (s.entry i).inode)
  | added (i : NodeId) (hfree : (s.entry i).used = false) (hused : (s'.entry i).used = true)
      (hinode : (s'.entry i).inode = s.nextInode)
      (hnext : s'.nextInode = (s.nextInode + 1) % 2 ^ 32)
      (hold : ∀ j, j ≠ i → (s'.entry j).used = true →
        (s.entry j).used = true ∧ (s'.entry j).inode = (s.entry j).inode)

section Numbering

variable {alloc : Allocator} {s s' : VfsState}

theorem SameTree.numbers (h : SameTree s s') (hnext : s'.nextInode = s.nextInode) :
    Numbers s s' := by
  refine .kept hnext fun i hi => ?_
  rw [h.entry] at hi ⊢
  exact ⟨hi, rfl⟩

theorem allocNode_numbers {t : NodeType} {p i : NodeId} {leaf : Str}
    (h : allocNode s t p leaf = some (i, s')) : Numbers s s' := by
  have hadds := allocNode_adds h
  obtain ⟨-, rfl⟩ := allocNode_some h
  refine .added i (freeNode_unused hadds.free) ?_ ?_ rfl ?_
  · rw [hadds.entry, update_self]
  · rw [hadds.entry, update_self]
  · intro j hj hu
    rw [hadds.entry, update_of_ne hj] at hu ⊢
    exact ⟨hu, rfl⟩

theorem Numbers.then_same {t : VfsState} (h : Numbers s t) (h' : SameTree t s')
    (hnext : s'.nextInode = t.nextInode) : Numbers s s' := by
  cases h with
  | kept hn hold =>
    refine .kept (hnext.trans hn) fun i hi => ?_
    rw [h'.entry] at hi ⊢
    exact hold i hi
  | added i hfree hused hinode hn hold =>
    refine .added i hfree ?_ ?_ (hnext.trans hn) ?_
    · rw [h'.entry]
      exact hused
    · rw [h'.entry]
      exact hinode
    · intro j hj hu
      rw [h'.entry] at hu ⊢
      exact hold j hj hu

variable {node : NodeId}

/-- `t` is `s`, or `s` with another current directory. -/
theorem dropNode_numbers {t : VfsState} {b : Bool}
    (h : dropNode t node = .ok (b, s')) (ht : t.entry = s.entry)
    (hn : t.nextInode = s.nextInode) : Numbers s s' := by
  obtain ⟨hentry, -, -⟩ := dropNode_removes h
  obtain ⟨bufs, rfl⟩ := dropNode_frame h
  refine .kept hn fun i hi => ?_
  have hsame := kept_of_cleared hentry hi
  rw [hsame, ht] at hi ⊢
  exact ⟨hi, rfl⟩

theorem openNode_numbers {path : Str} {flags : ℕ}
    (h : openNode s path flags = some (node, s')) : Numbers s s' := by
  rcases openNode_cases h with ⟨-, rfl⟩ | ⟨-, -, p, leaf, -, halloc⟩
  · exact (SameTree.refl _).numbers rfl
  · exact allocNode_numbers halloc

/-- **What a call does to the inode numbers.** -/
theorem Effect.numbers {op : Op} {r : Ret} (h : Effect alloc s op r s') : Numbers s s' := by
  cases h with
  | none => exact (SameTree.refl s).numbers rfl
  | mkdir _ _ halloc => exact allocNode_numbers halloc
  | unlink _ _ _ _ hdrop => exact dropNode_numbers hdrop rfl rfl
  | rmdir _ _ _ _ hdrop => exact dropNode_numbers hdrop rfl rfl
  | @rename _ _ leaf node p _ _ _ _ =>
    have hmoves := moves_setNode s node p leaf
    refine .kept rfl fun i hi => ?_
    rw [(hmoves.kept i).1] at hi
    exact ⟨hi, (hmoves.kept i).2.2⟩
  | chdir _ _ => exact .kept rfl fun i hi => ⟨hi, rfl⟩
  | @«open» path flags node s₁ hnode =>
    -- only the choice of the node takes a number
    refine (openNode_numbers hnode).then_same
      ((truncated_sameTree s₁ node flags).trans (claimSlot_sameTree _ node flags)) ?_
    unfold claimSlot truncated
    split <;> split <;> rfl
  | close | read | lseek | getdents => exact (sameTree_setOpen s _ _).numbers rfl
  | write _ _ hwrite =>
    refine (writeFile_sameTree hwrite).numbers ?_
    obtain ⟨b, o, d, c, n, rfl⟩ := writeFile_frame hwrite
    rfl

end Numbering

/-! ## §4. Runs that count the nodes they create. -/

/-- The number of slots that became used. -/
def created (s s' : VfsState) : ℕ :=
  ((List.finRange 64).filter fun i => !(s.nodes i).used && (s'.nodes i).used).length

/-- A state, and the number of nodes created so far (the root not counted). -/
structure Counted where
  vfs : VfsState
  nodes : ℕ

/-- One call, with any arguments. -/
structure CStep (c c' : Counted) : Prop where
  step : Step (fun _ _ => True) c.vfs c'.vfs
  nodes : c'.nodes = c.nodes + created c.vfs c'.vfs

abbrev CRun : Counted → Counted → Prop := Relation.ReflTransGen CStep

/-- The state of the counter after `n` nodes besides the root: number `k + 1` went
to the `k`-th, and the counter has not come round to a number in use. -/
structure Fresh (s : VfsState) (n : ℕ) : Prop where
  next : s.nextInode = (n + 2) % 2 ^ 32
  past : ∀ i, (s.entry i).used = true → ∃ k, 1 ≤ k ∧ k ≤ n + 1 ∧ (s.entry i).inode = k % 2 ^ 32
  distinct : ∀ i j, (s.entry i).used = true → (s.entry j).used = true → i ≠ j →
    (s.entry i).inode ≠ (s.entry j).inode

section Counting

variable {s s' : VfsState} {n : ℕ}

theorem created_kept (h : ∀ i, (s'.entry i).used = true → (s.entry i).used = true) :
    created s s' = 0 := by
  unfold created
  rw [length_eq_zero_iff, filter_eq_nil_iff]
  intro i _ hi
  simp only [Bool.and_eq_true, Bool.not_eq_true'] at hi
  have hused : (s.nodes i).used = true := h i hi.2
  rw [hi.1] at hused
  cases hused

theorem created_added {i : NodeId} (hfree : (s.entry i).used = false)
    (hused : (s'.entry i).used = true)
    (hold : ∀ j, j ≠ i → (s'.entry j).used = true → (s.entry j).used = true) :
    created s s' = 1 := by
  unfold created
  have hfilter : (List.finRange 64).filter (fun j => !(s.nodes j).used && (s'.nodes j).used) =
      (List.finRange 64).filter (· == i) := by
    refine filter_congr fun j _ => ?_
    by_cases hj : j = i
    · have h1 : (s.nodes i).used = false := hfree
      have h2 : (s'.nodes i).used = true := hused
      simp [hj, h1, h2]
    · cases hu : (s'.nodes j).used with
      | false => simp [hj]
      | true =>
        have h1 : (s.nodes j).used = true := hold j hj hu
        simp [hj, h1]
  rw [hfilter, ← countP_eq_length_filter]
  exact count_eq_one_of_mem (nodup_finRange 64) (mem_finRange i)

/-- The number `next_inode` gives out is not in use. -/
theorem Fresh.add (h : Fresh s n) (hn : n + 1 < 2 ^ 32) {i : NodeId}
    (hused : (s'.entry i).used = true) (hinode : (s'.entry i).inode = s.nextInode)
    (hnext : s'.nextInode = (s.nextInode + 1) % 2 ^ 32)
    (hold : ∀ j, j ≠ i → (s'.entry j).used = true →
      (s.entry j).used = true ∧ (s'.entry j).inode = (s.entry j).inode) : Fresh s' (n + 1) := by
  have hnew : ∀ j, j ≠ i → (s'.entry j).used = true → (s'.entry j).inode ≠ s.nextInode := by
    intro j hj hu
    obtain ⟨hu', hino⟩ := hold j hj hu
    obtain ⟨k, hk1, hk2, hk⟩ := h.past j hu'
    rw [hino, hk, h.next]
    omega
  refine ⟨?_, ?_, ?_⟩
  · rw [hnext, h.next]
    omega
  · intro j hu
    by_cases hj : j = i
    · refine ⟨n + 2, by omega, le_refl _, ?_⟩
      rw [hj, hinode, h.next]
    · obtain ⟨hu', hino⟩ := hold j hj hu
      obtain ⟨k, hk1, hk2, hk⟩ := h.past j hu'
      exact ⟨k, hk1, by omega, hino.trans hk⟩
  · -- two old nodes, or one of them is the new one
    intro j k hju hku hjk
    by_cases hj : j = i
    · subst hj
      rw [hinode]
      exact (hnew k (Ne.symm hjk) hku).symm
    · by_cases hk : k = i
      · subst hk
        rw [hinode]
        exact hnew j hj hju
      · obtain ⟨hju', hjino⟩ := hold j hj hju
        obtain ⟨hku', hkino⟩ := hold k hk hku
        rw [hjino, hkino]
        exact h.distinct j k hju' hku' hjk

theorem Fresh.keep (h : Fresh s n) (hnext : s'.nextInode = s.nextInode)
    (hold : ∀ i, (s'.entry i).used = true →
      (s.entry i).used = true ∧ (s'.entry i).inode = (s.entry i).inode) : Fresh s' n := by
  refine ⟨hnext.trans h.next, ?_, ?_⟩
  · intro i hi
    rw [(hold i hi).2]
    exact h.past i (hold i hi).1
  · intro i j hi hj hij
    rw [(hold i hi).2, (hold j hj).2]
    exact h.distinct i j (hold i hi).1 (hold j hj).1 hij

/-- **One call and the count.** -/
theorem Numbers.fresh (h : Numbers s s') (hf : n < 2 ^ 32 → Fresh s n) :
    n + created s s' < 2 ^ 32 → Fresh s' (n + created s s') := by
  cases h with
  | kept hnext hold =>
    rw [created_kept fun i hi => (hold i hi).1]
    exact fun hn => (hf hn).keep hnext hold
  | added i hfree hused hinode hnext hold =>
    rw [created_added hfree hused fun j hj hu => (hold j hj hu).1]
    intro hn
    exact (hf (by omega)).add hn hused hinode hnext hold

theorem vfsInit_fresh (s : VfsState) : Fresh (vfsInit s).2 0 := by
  refine ⟨rfl, ?_, ?_⟩
  · intro i hi
    refine ⟨1, le_refl _, le_refl _, ?_⟩
    rw [vfsInit_used hi, vfsInit_entry, update_self]
    rfl
  · intro i j hi hj hij
    exact absurd ((vfsInit_used hi).trans (vfsInit_used hj).symm) hij

end Counting

/-! ## §5. The structural invariant. -/

/-- **The node table, in the terms of its slots.** -/
structure Structured (s : VfsState) : Prop where
  root : (s.nodes 0).used = true ∧ (s.nodes 0).type = .dir
  type : ∀ i, i ≠ 0 → (s.nodes i).used = true → (s.nodes i).type = .file ∨ (s.nodes i).type = .dir
  name : ∀ i, i ≠ 0 → (s.nodes i).used = true → GoodName (s.nodes i).name
  parent : ∀ i, i ≠ 0 → (s.nodes i).used = true →
    (s.nodes (s.nodes i).parent).used = true ∧ (s.nodes (s.nodes i).parent).type = .dir
  leaf : ∀ i, (s.nodes i).type = .file → ∀ j, (s.nodes j).used = true → (s.nodes j).parent ≠ i
  cwd : (s.nodes s.cwdNode).used = true ∧ (s.nodes s.cwdNode).type = .dir

theorem Wf.structured {s : VfsState} (h : Wf s) (hl : Labelled s) : Structured s := by
  refine ⟨h.root, fun i hi0 hi => (hl i hi0 hi).1, fun i hi0 hi => (hl i hi0 hi).2,
    fun i _ hi => h.parent i hi, ?_, h.cwd⟩
  intro i hfile j hj hji
  have hdir : (s.nodes (s.nodes j).parent).type = .dir := (h.parent j hj).2
  rw [hji, hfile] at hdir
  cases hdir

/-- **The structural invariant.**  In every state of every run from `vfs_init` the
table is structured, and as long as fewer than `2^32` nodes have been created,
different used nodes have different inode numbers. -/
theorem vfs_structure {s₀ : VfsState} {c : Counted} (hrun : CRun ⟨(vfsInit s₀).2, 0⟩ c) :
    Structured c.vfs ∧
      (c.nodes < 2 ^ 32 → ∀ i j, (c.vfs.nodes i).used = true → (c.vfs.nodes j).used = true →
        i ≠ j → (c.vfs.nodes i).inode ≠ (c.vfs.nodes j).inode) := by
  have hall : Wf c.vfs ∧ Labelled c.vfs ∧ (c.nodes < 2 ^ 32 → Fresh c.vfs c.nodes) := by
    refine inv_of_run
      (fun c : Counted => Wf c.vfs ∧ Labelled c.vfs ∧ (c.nodes < 2 ^ 32 → Fresh c.vfs c.nodes))
      hrun ⟨vfsInit_wf s₀, vfsInit_labelled s₀, fun _ => vfsInit_fresh s₀⟩ ?_
    rintro a b ⟨hw, hl, hf⟩ ⟨⟨op, r, -, alloc, -, hexec⟩, hcount⟩
    have htree := exec_tree hexec
    refine ⟨htree.wf hw, htree.labelled hw hl, ?_⟩
    rw [hcount]
    exact ((exec_effect hexec).numbers).fresh hf
  obtain ⟨hw, hl, hf⟩ := hall
  exact ⟨hw.structured hl, fun hn => (hf hn).distinct⟩

/-- After `mkdir /a` and `rename /a /a/b`, a directory that is its own parent. -/
theorem vfs_structure_cycle :
    Structured (vfsRename (vfsMkdir (vfsInit blank).2 pathA).2 pathA pathAB).2 ∧
      (1 < 2 ^ 32 → ∀ i j,
        ((vfsRename (vfsMkdir (vfsInit blank).2 pathA).2 pathA pathAB).2.nodes i).used = true →
        ((vfsRename (vfsMkdir (vfsInit blank).2 pathA).2 pathA pathAB).2.nodes j).used = true →
        i ≠ j →
        ((vfsRename (vfsMkdir (vfsInit blank).2 pathA).2 pathA pathAB).2.nodes i).inode ≠
          ((vfsRename (vfsMkdir (vfsInit blank).2 pathA).2 pathA pathAB).2.nodes j).inode) := by
  have h₁ : CStep ⟨(vfsInit blank).2, 0⟩ ⟨(vfsMkdir (vfsInit blank).2 pathA).2, 1⟩ :=
    ⟨step_of_exec (.mkdir pathA) trivial rfl, by decide +kernel⟩
  have h₂ : CStep ⟨(vfsMkdir (vfsInit blank).2 pathA).2, 1⟩
      ⟨(vfsRename (vfsMkdir (vfsInit blank).2 pathA).2 pathA pathAB).2, 1⟩ :=
    ⟨step_of_exec (.rename pathA pathAB) trivial rfl, by decide +kernel⟩
  exact vfs_structure (.tail (.single h₁) h₂)

end ExoCore.Vfs
