/-
  ExoCore.Proc.Prepare — what a spawn can do BEFORE its program starts.

  Between the creation of the process and the start a spawn allocates and releases for
  the new pid, reads the file and records the image.  `Keeps` says that an invariant
  survives each of these, and gives what it is good for:

    • `Keeps.spawnFile`    — from the new process on, the invariant holds until the
      unwinding or the start;
    • `spawnPrepare_cases` — the ways through the whole of it.
-/
import ExoCore.Proc.Effect
import ExoCore.Proc.Spawn
import ExoCore.Vfs.Slots

namespace ExoCore.Proc

open ExoCore.Lib ExoCore.Vfs

/-! ## §1. The file. -/

section Read

variable {files : Allocator} {v v' : VfsState} {path : Str}

/-- Opening for reading takes an unused slot and does nothing else. -/
theorem vfsOpen_rdonly {r : Option Slot} (h : vfsOpen files v path vfsORdonly = .ok (r, v')) :
    (r = none ∧ v' = v) ∨
      ∃ k o, r = some k ∧ (v.openFiles k).used = false ∧ o.used = true ∧ v' = v.setOpen k o := by
  rcases vfsOpen_cases h with ⟨-, hr, hv⟩ | ⟨node, -, -, hr, hv⟩ | ⟨node, v₁, hnode, hclaim⟩
  · exact .inl ⟨hr, hv⟩
  · exact .inl ⟨hr, hv⟩
  have hsame : truncated v₁ node vfsORdonly = v :=
    (truncated_nodes hnode).2 (noEffect_rdonly v path)
  rw [hsame] at hclaim
  unfold claimSlot at hclaim
  split at hclaim
  · cases hclaim
    exact .inl ⟨rfl, rfl⟩
  · rename_i k hk
    cases hclaim
    exact .inr ⟨k, _, rfl, by simpa using List.find?_some hk, rfl, rfl⟩

/-- `vfs_read` moves a cursor. -/
theorem vfsRead_setOpen {k : Slot} {buf : Bool} {len : ℕ} {r : Option (List UInt8)}
    (h : vfsRead v (k : ℕ) buf len = .ok (r, v')) :
    v' = v.setOpen k { v.openFiles k with offset := (v'.openFiles k).offset } := by
  have he := vfsRead_effect noMemory h
  have hsame : v = v.setOpen k { v.openFiles k with offset := (v.openFiles k).offset } := by
    unfold VfsState.setOpen
    rw [Function.update_eq_self]
  generalize Vfs.Ret.ofOption .bytes r = ret at he
  cases he with
  | none _ => exact hsame
  | @read _ _ slot _ hslot =>
    have hfd := (openSlot_some hslot).1
    have hk : slot = k := Fin.ext (by omega)
    subst hk
    simp [VfsState.setOpen]

/-- **`read_vfs_file`** leaves the VFS as it was, or clears one slot that was not in use. -/
theorem readVfsFile_state {size : ℕ} {r : Option (List UInt8)}
    (h : readVfsFile files v path size = .ok (r, v')) :
    v' = v ∨ ∃ k, (v.openFiles k).used = false ∧ v' = v.setOpen k VfsOpen.zero := by
  unfold readVfsFile at h
  obtain ⟨⟨fd, v₁⟩, hopen, hrest⟩ := bind_ok.mp h
  rcases vfsOpen_rdonly hopen with ⟨rfl, rfl⟩ | ⟨k, o, rfl, hfree, hused, rfl⟩
  · cases hrest
    exact .inl rfl
  obtain ⟨⟨got, v₂⟩, hread, hret⟩ := bind_ok.mp hrest
  have hv₂ := vfsRead_setOpen hread
  have hopen₂ : openSlot v₂ (k : ℕ) = some k := by
    refine openSlot_of_used ?_
    rw [hv₂]
    simp [VfsState.setOpen, hused]
  cases hret
  refine .inr ⟨k, hfree, ?_⟩
  show (vfsClose v₂ (k : ℕ)).2 = _
  unfold vfsClose
  rw [hopen₂]
  show v₂.setOpen k VfsOpen.zero = _
  rw [hv₂]
  simp [VfsState.setOpen]

end Read

/-! ## §2. From the new process on. -/

/-- **The steps between the creation and the start** keep `I`: allocations and releases for
`pid`, the reading of the file, and the record of the image. -/
structure Keeps (env : SpawnEnv) (pid : ℤ) (I : ProcState → Prop) : Prop where
  alloc : ∀ {t : ProcState} (size : ℕ), I t → I (procAlloc (env.at t) t pid size).2
  free : ∀ {t t' : ProcState} {ptr : ℕ} {r : ℤ}, I t → procFree t pid ptr = .ok (r, t') → I t'
  read : ∀ {t : ProcState} {path : Str} {size : ℕ} {file : Option (List UInt8)} {v : VfsState},
    I t → readVfsFile env.files t.vfs path size = .ok (file, v) → I { t with vfs := v }
  record : ∀ {t : ProcState} {i : ProcSlot} {info : ProcInfo}, I t → findProc t pid = some i →
    SameOwner (t.procs i).info info → I (t.setInfo i info)

/-- The process can be started. -/
def Loaded (s : ProcState) (pid : ℤ) : Prop :=
  ∃ i, findProc s pid = some i ∧ (s.procs i).info.entryPoint ≠ 0

section Keeps

variable {env : SpawnEnv} {I : ProcState → Prop} {pid : ℤ} {t t' : ProcState}

theorem Keeps.and {J : ProcState → Prop} (h : Keeps env pid I) (h' : Keeps env pid J) :
    Keeps env pid fun t => I t ∧ J t where
  alloc := fun size ht => ⟨h.alloc size ht.1, h'.alloc size ht.2⟩
  free := fun ht hfree => ⟨h.free ht.1 hfree, h'.free ht.2 hfree⟩
  read := fun ht hread => ⟨h.read ht.1 hread, h'.read ht.2 hread⟩
  record := fun ht hi hsame => ⟨h.record ht.1 hi hsame, h'.record ht.2 hi hsame⟩

theorem Keeps.load (h : Keeps env pid I) {file : List UInt8} {image : Option Elf.ElfImage}
    (hload : loadProcessImage env t pid file = .ok (image, t')) (ht : I t) : I t' := by
  unfold loadProcessImage at hload
  obtain ⟨valid, -, hload⟩ := bind_ok.mp hload
  cases valid with
  | false =>
    cases hload
    exact ht
  | true =>
    obtain ⟨eh, -, hload⟩ := bind_ok.mp hload
    obtain ⟨range, -, hload⟩ := bind_ok.mp hload
    cases range with
    | none =>
      cases hload
      exact ht
    | some r =>
      have halloc := h.alloc (sub64 r.maxVaddr r.minVaddr) ht
      dsimp only at hload
      split at hload
      · cases hload
        exact halloc
      · obtain ⟨copied, -, hload⟩ := bind_ok.mp hload
        cases copied with
        | error e =>
          -- the image is given back
          obtain ⟨⟨r', t₂⟩, hfree, hload⟩ := bind_ok.mp hload
          cases hload
          exact h.free halloc hfree
        | ok im =>
          cases hload
          exact halloc

theorem Keeps.attach (h : Keeps env pid I) (path : Str) (image : Elf.ElfImage) (ht : I t) :
    I (procAttachImage (env.at t) t pid path (some image)).2 ∧
      ((procAttachImage (env.at t) t pid path (some image)).1 = 0 →
        Loaded (procAttachImage (env.at t) t pid path (some image)).2 pid) := by
  rcases procAttachImage_cases (env.at t) t pid path image with
    heq | ⟨i, s₁, hi, hentry, hs₁, hend⟩
  · rw [heq]
    exact ⟨ht, fun h0 => by cases h0⟩
  have hrec : OnlyMemory t t.memctx (t.setInfo i (imaged (t.procs i).info path image)) :=
    onlyMemory_setInfo ⟨rfl, rfl, rfl, rfl, rfl⟩
  have hI : I s₁ := by
    rw [hs₁]
    exact h.alloc _ (h.record ht hi ⟨rfl, rfl, rfl, rfl, rfl⟩)
  rw [procAlloc_memctx] at hs₁
  rcases hend with heq | ⟨sp, heq⟩
  · rw [heq]
    exact ⟨hI, fun h0 => by cases h0⟩
  · rw [heq]
    have hi₁ : findProc s₁ pid = some i := by
      rw [hs₁]
      exact (hrec.findProc pid).trans hi
    have hstack : OnlyMemory s₁ s₁.memctx
        (s₁.setInfo i { (s₁.procs i).info with stackPointer := sp }) :=
      onlyMemory_setInfo ⟨rfl, rfl, rfl, rfl, rfl⟩
    refine ⟨h.record hI hi₁ ⟨rfl, rfl, rfl, rfl, rfl⟩, fun _ =>
      ⟨i, (hstack.findProc pid).trans hi₁, ?_⟩⟩
    rw [setInfo_info, hs₁]
    show ((t.setInfo i _).procs i).info.entryPoint ≠ 0
    rw [setInfo_info]
    exact hentry

theorem Keeps.release (h : Keeps env pid I) {image : Elf.ElfImage}
    (hfree : freeProcessImage t pid image = .ok t') (ht : I t) : I t' := by
  unfold freeProcessImage at hfree
  split at hfree
  · cases hfree
    exact ht
  · obtain ⟨⟨r, t₁⟩, hcall, heq⟩ := map_ok.mp hfree
    cases heq
    exact h.free ht hcall

/-- The unwinding drops the process that is found, with its context. -/
theorem abandon_cases (h : abandon t pid = .ok t') :
    ∃ i ok m, findProc t pid = some i ∧
      memctxDestroy t.memctx (t.procs i).info.memctx = some (ok, m) ∧
      t' = { t with memctx := m }.setProc i ProcEntry.zero := by
  unfold abandon at h
  split at h
  · cases h
  rename_i i hi
  split at h
  · cases h
  rename_i ok m hm
  cases h
  exact ⟨i, ok, m, hi, hm, rfl⟩

/-- How a spawn ends once the process exists: it is unwound from some state in which `I`
held, or it can be started. -/
inductive Outcome (I : ProcState → Prop) (pid : ℤ) : Prepared → ProcState → Prop
  | unwound {t t' : ProcState} {r : ℤ} (ht : I t) (hr : r < 0) (h : abandon t pid = .ok t') :
      Outcome I pid (.failed r) t'
  | ready {t : ProcState} (ht : I t) (hloaded : Loaded t pid) : Outcome I pid (.ready pid) t

variable {p : Prepared} {path : Str}

theorem giveUp_outcome {r : ℤ} (hr : r < 0) (ht : I t)
    (h : giveUp t pid r = .ok (p, t')) : Outcome I pid p t' := by
  obtain ⟨t₁, habandon, heq⟩ := map_ok.mp h
  cases heq
  exact .unwound ht hr habandon

theorem Keeps.spawnAttach (h : Keeps env pid I) {image : Elf.ElfImage}
    (hspawn : spawnAttach env t pid path image = .ok (p, t')) (ht : I t) : Outcome I pid p t' := by
  obtain ⟨hI, hloaded⟩ := h.attach path image ht
  unfold Proc.spawnAttach at hspawn
  dsimp only at hspawn
  split at hspawn
  · obtain ⟨t₁, hfree, hspawn⟩ := bind_ok.mp hspawn
    exact giveUp_outcome (by decide) (h.release hfree hI) hspawn
  · rename_i hzero
    cases hspawn
    exact .ready hI (hloaded (not_not.mp hzero))

theorem Keeps.spawnImage (h : Keeps env pid I) {file : List UInt8}
    (hspawn : spawnImage env t pid path file = .ok (p, t')) (ht : I t) : Outcome I pid p t' := by
  unfold Proc.spawnImage at hspawn
  obtain ⟨⟨image, t₁⟩, hload, hspawn⟩ := bind_ok.mp hspawn
  have ht₁ := h.load hload ht
  cases image with
  | none => exact giveUp_outcome (by decide) ht₁ hspawn
  | some image => exact h.spawnAttach hspawn ht₁

/-- **The rule for a spawn**, from the new process on. -/
theorem Keeps.spawnFile (h : Keeps env pid I) {size : ℕ}
    (hspawn : spawnFile env t pid path size = .ok (p, t')) (ht : I t) : Outcome I pid p t' := by
  have halloc := h.alloc size ht
  unfold Proc.spawnFile at hspawn
  dsimp only at hspawn
  split at hspawn
  · exact giveUp_outcome (by decide) halloc hspawn
  obtain ⟨⟨file, t₁⟩, hread, hspawn⟩ := bind_ok.mp hspawn
  obtain ⟨v, hv, rfl⟩ := onVfs_ok hread
  have ht₁ := h.read halloc hv
  cases file with
  | none => exact giveUp_outcome (by decide) ht₁ hspawn
  | some file => exact h.spawnImage hspawn ht₁

end Keeps

/-! ## §3. The ways through a spawn. -/

/-- The path names a file with something in it. -/
def Runnable (s : ProcState) (path : Str) : Prop :=
  ∃ st, vfsStat s.vfs path = some st ∧ st.type = .file ∧ st.size ≠ 0

/-- The new process of a spawn. -/
def spawned (s : ProcState) (i : ProcSlot) (parentPid : ℤ) (path : Str) : ProcState :=
  enrolled s i (newEntry s.nextPid parentPid (memctxCreate s.memctx s.nextPid 0).1
    (basenameFromPath path))

/-- **The ways through a spawn**: refused at once; no context; a negative pid; or a process. -/
theorem spawnPrepare_cases {env : SpawnEnv} {s s' : ProcState} {parentPid : ℤ} {path : Str}
    {p : Prepared} (h : spawnPrepare env s parentPid path = .ok (p, s')) :
    (∃ r < 0, p = .failed r ∧ s' = s) ∨
      ∃ i, freeProc s = some i ∧ findProc s parentPid ≠ none ∧ Accepts s parentPid ∧
        Runnable s path ∧
        (((memctxCreate s.memctx s.nextPid 0).1 < 0 ∧ p = .failed procErrNomem ∧
            s' = enrolled s i ProcEntry.zero) ∨
          (0 ≤ (memctxCreate s.memctx s.nextPid 0).1 ∧ s.nextPid < 0 ∧ p = .failed s.nextPid ∧
            s' = spawned s i parentPid path) ∨
          ∃ size, 0 ≤ (memctxCreate s.memctx s.nextPid 0).1 ∧ 0 ≤ s.nextPid ∧
            spawnFile env (spawned s i parentPid path) s.nextPid path size = .ok (p, s')) := by
  unfold spawnPrepare at h
  split at h
  · cases h
    exact .inl ⟨-1, by decide, rfl, rfl⟩
  rename_i hparent
  split at h
  · cases h
    exact .inl ⟨-1, by decide, rfl, rfl⟩
  rename_i st hst
  split at h
  · cases h
    exact .inl ⟨-1, by decide, rfl, rfl⟩
  rename_i hfile
  have hrun : Runnable s path :=
    ⟨st, hst, not_not.mp fun hx => hfile (.inl hx), fun hx => hfile (.inr hx)⟩
  dsimp only at h
  rcases procCreate_cases s (basenameFromPath path) parentPid with
    ⟨r, hr, heq, -⟩ | ⟨i, hi, haccept, ⟨hctx, heq⟩ | ⟨hctx, heq⟩⟩
  · rw [heq] at h
    rw [if_pos hr] at h
    cases h
    exact .inl ⟨r, hr, rfl, rfl⟩
  · rw [heq] at h
    cases h
    exact .inr ⟨i, hi, hparent, haccept, hrun, .inl ⟨hctx, rfl, rfl⟩⟩
  · rw [heq] at h
    refine .inr ⟨i, hi, hparent, haccept, hrun, .inr ?_⟩
    split at h
    · rename_i hneg
      cases h
      exact .inl ⟨hctx, hneg, rfl, rfl⟩
    · rename_i hneg
      exact .inr ⟨st.size, hctx, not_lt.mp hneg, h⟩

end ExoCore.Proc
