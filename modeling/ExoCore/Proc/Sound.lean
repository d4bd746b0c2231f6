/-
  ExoCore.Proc.Sound — THE KERNEL STAYS UP.

  A process reaches the files through the VFS and its memory through its context, and
  either of them can stop the kernel: a buffer or a block freed twice, an access past a
  buffer.  `Sound` puts the invariants side by side, and every step keeps them: a call,
  a spawn up to the start of its program, the start and the return of a program.

    • `files_simulated` — a run of the process layer is, for the files, a run of the VFS;
    • `kernel_stays_up` — in every state of such a run a call comes back, and so does
      `proc_spawn_exec` around a program of such steps, unless it ends process 1.
-/
import ExoCore.Elf.Contents
import ExoCore.Proc.Focus
import ExoCore.Proc.Reclaim
import ExoCore.Vfs.Ownership

namespace ExoCore.Proc

open ExoCore.Lib ExoCore.Vfs Relation

/-! ## §1. Files. -/

/-- What the allocators and the caller promise for a call. -/
structure Fair (env : Env) (s : ProcState) (op : Op) : Prop where
  files : AllocOk env.files s.vfs
  heap : FreshIn env s
  unworn : op.Creates → Unworn s
  writes : ∀ c ∈ op.fileCall s, WriteOk s.vfs c
  reads : ∀ {fd buf len}, op.fileCall s = some (.read fd buf len) → len < 2 ^ 63

/-- A fair call, a spawn up to the start of its program, the start of a program, or the return
of one. -/
inductive FairStep : ProcState → ProcState → Prop
  | call {env : Env} {s s' : ProcState} {op : Op} {r : Ret} (hf : Fair env s op)
      (h : exec env s op = .ok (r, s')) : FairStep s s'
  | spawn {env : SpawnEnv} {s s' : ProcState} {parentPid : ℤ} {path : Str} {p : Prepared}
      (hheap : FreshHeap env) (hpos : Unworn s)
      (h : spawnPrepare env s parentPid path = .ok (p, s')) : FairStep s s'
  | enter {s s' : ProcState} {pid : ℤ} (h : startEnter s pid = some s') : FairStep s s'
  | leave {s s' : ProcState} {pid previous : ℤ} (h : startLeave s pid previous = .ok s') :
      FairStep s s'

abbrev FairRun : ProcState → ProcState → Prop := ReflTransGen FairStep

section Files

variable {env : Env} {s s' : ProcState}

theorem close_step (v : VfsState) (b : ℤ) : Vfs.Step WriteOk v (vfsClose v b).2 :=
  ⟨.close b, _, trivial, noMemory, noMemory_ok v, rfl⟩

theorem exitEntry_files (s : ProcState) (i : ProcSlot) (pid status : ℤ) :
    Vfs.Run WriteOk s.vfs (exitEntry s i pid status).vfs := by
  obtain ⟨fds, v, hv, heq⟩ := closeFds_filesBy close_step i (List.finRange 16) s
  rw [exitEntry_eq]
  unfold closedFds
  rw [heq]
  exact hv

theorem exec_files {op : Op} {r : Ret} (hf : Fair env s op) (h : exec env s op = .ok (r, s')) :
    Vfs.Run WriteOk s.vfs s'.vfs := by
  cases exec_effect h with
  | same | cleared | created | reaped => exact .refl
  | focused =>
    rw [focused_eq]
    exact .refl
  | ended => exact exitEntry_files s _ _ _
  | charged _ _ hm | credited _ _ hm =>
    obtain ⟨_, _, rfl⟩ := hm
    exact .refl
  | files hop =>
    obtain ⟨_, _, hv, rfl⟩ := exec_filesBy h hop close_step
      fun c hc a v hcall => ⟨c, a, hf.writes c hc, env.files, hf.files, hcall⟩
    exact hv

/-- Opening a file asks for no memory. -/
theorem open_step {files : Allocator} {v v' : VfsState} {path : Str} {flags : ℕ} {fd : Option Slot}
    (h : vfsOpen files v path flags = .ok (fd, v')) : Vfs.Step WriteOk v v' := by
  have hsame : vfsOpen noMemory v path flags = .ok (fd, v') := by
    rw [← h]
    unfold vfsOpen
    simp only [truncate_eq]
  exact ⟨.open path flags, _, trivial, noMemory, noMemory_ok v, map_ok.mpr ⟨_, hsame, rfl⟩⟩

/-- `read_vfs_file` is three calls of the VFS. -/
theorem readVfsFile_run {files : Allocator} {v v' : VfsState} {path : Str} {size : ℕ}
    {r : Option (List UInt8)} (h : readVfsFile files v path size = .ok (r, v')) :
    Vfs.Run WriteOk v v' := by
  obtain ⟨⟨fd, v₁⟩, hopen, hrest⟩ := bind_ok.mp h
  have hrun : Vfs.Run WriteOk v v₁ := .single (open_step hopen)
  cases fd with
  | none =>
    cases hrest
    exact hrun
  | some k =>
    obtain ⟨⟨got, v₂⟩, hread, hret⟩ := bind_ok.mp hrest
    cases hret
    have hstep : Vfs.Step WriteOk v₁ v₂ :=
      ⟨.read k true size, _, trivial, noMemory, noMemory_ok v₁, map_ok.mpr ⟨_, hread, rfl⟩⟩
    exact (hrun.tail hstep).tail (close_step v₂ k)

theorem OnlyMemory.vfs {m : MemctxState} (h : OnlyMemory s m s') : s'.vfs = s.vfs := by
  obtain ⟨_, _, rfl⟩ := h
  rfl

/-- Between the creation and the start of a process nothing but its file is opened. -/
theorem keeps_files (env : SpawnEnv) (pid : ℤ) (v : VfsState) :
    Keeps env pid fun t => Vfs.Run WriteOk v t.vfs where
  alloc := by
    intro t size h
    rw [procAlloc_memctx]
    exact h
  free := by
    intro t t' ptr r h hfree
    obtain rfl | ⟨i, ok, m, -, -, hmem⟩ := procFree_memory hfree
    · exact h
    · rw [hmem.vfs]
      exact h
  read := fun h hread => h.trans (readVfsFile_run hread)
  record := fun h _ _ => h

theorem spawnPrepare_files {env : SpawnEnv} {parentPid : ℤ} {path : Str} {p : Prepared}
    (h : spawnPrepare env s parentPid path = .ok (p, s')) : Vfs.Run WriteOk s.vfs s'.vfs := by
  obtain ⟨r, -, -, rfl⟩ | ⟨i, -, -, -, -, ⟨-, -, rfl⟩ | ⟨-, -, -, rfl⟩ | ⟨size, -, -, hfile⟩⟩ :=
    spawnPrepare_cases h
  · exact .refl
  · exact .refl
  · exact .refl
  cases (keeps_files env s.nextPid s.vfs).spawnFile hfile .refl with
  | unwound ht _ habandon =>
    obtain ⟨i, ok, m, -, -, rfl⟩ := abandon_cases habandon
    exact ht
  | ready ht _ => exact ht

theorem FairStep.files (hstep : FairStep s s') : Vfs.Run WriteOk s.vfs s'.vfs := by
  cases hstep with
  | call hf h => exact exec_files hf h
  | spawn _ _ h => exact spawnPrepare_files h
  | enter h =>
    obtain ⟨i, -, -, rfl⟩ := startEnter_cases h
    rw [focused_eq]
    exact .refl
  | @leave _ _ pid previous h =>
    obtain ⟨t, hexit, rfl⟩ := map_ok.mp h
    obtain ⟨_, _, heq⟩ := resume_eq t pid previous
    rw [heq]
    obtain ⟨-, rfl⟩ | ⟨i, -, -, -, rfl⟩ := exitIfLive_cases hexit
    · exact .refl
    · exact exitEntry_files s i pid 0

end Files

/-- **Refinement**: what a run of the process layer does to the files is a run of VFS calls. -/
theorem files_simulated {s t : ProcState} (hrun : FairRun (boot s).state t) :
    Vfs.Run WriteOk (vfsInit s.vfs).2 t.vfs := by
  induction hrun with
  | refl => exact .refl
  | tail _ hstep ih => exact ih.trans hstep.files

/-- The state after a call. -/
def next (env : Env) (s : ProcState) (op : Op) : ProcState :=
  ((exec env s op).toOption.map Prod.snd).getD s

theorem fair_next {env : Env} {s : ProcState} {op : Op} {r : Ret} (hf : Fair env s op)
    (h : (exec env s op).toOption.map Prod.fst = some r) : FairStep s (next env s op) := by
  obtain ⟨⟨_, s'⟩, hx, rfl⟩ := Option.map_eq_some_iff.mp h
  have hnext : next env s op = s' := by
    unfold next
    rw [hx]
    rfl
  rw [hnext]
  exact .call hf (toOption_some hx)

theorem fair_env0 (op : Op) {s : ProcState} (hpos : Unworn s) (hheap : s.memctx.live 0x2000 = none)
    (hwrites : ∀ c ∈ op.fileCall s, WriteOk s.vfs c)
    (hreads : ∀ {fd buf len}, op.fileCall s ≠ some (.read fd buf len)) : Fair env0 s op :=
  ⟨noMemory_ok s.vfs, fun _ => .inr hheap, fun _ => hpos, hwrites, fun he => absurd he hreads⟩

/-- One block is left for the files. -/
def env1 : Env := ⟨env0.heap, oneBlock⟩

/-- Process 1 opens `/a` and writes a program to it. -/
abbrev opened1 : ProcState :=
  next env0 (next env0 (boot blank).state (.create [] 0)) (.open 1 pathA rdwrCreat)
abbrev written1 : ProcState := next env1 opened1 (.write 1 0 (some Elf.overlapping))

/-- A short write through the first open file ends below `2^63`. -/
theorem writeOk_short {v : VfsState} {fd : ℤ} {data : List UInt8} (hopen : openSlot v fd = some 0)
    (hcur : cursor v 0 + data.length < 2 ^ 63) : WriteOk v (.write fd (some data)) := by
  intro k hk
  cases hopen.symm.trans hk
  exact hcur

theorem written1_reached : FairRun (boot blank).state written1 := by
  have hpos : Unworn opened1 := show (0 : ℤ) < 2 from two_pos
  refine .tail (.tail (.single (fair_next (fair_env0 (.create [] 0) Int.one_pos rfl nofun nofun)
    rfl)) (fair_next (fair_env0 (.open 1 pathA rdwrCreat) hpos rfl
      (fun _ hc => by cases hc; trivial) nofun) rfl))
    (fair_next (r := .count (some 181)) ⟨oneBlock_ok rfl, fun _ => .inr rfl, nofun, fun _ hc => ?_,
      fun he => by cases he⟩ (by decide +kernel))
  cases hc
  exact writeOk_short rfl (by decide +kernel)

/-- The program that process 1 wrote was written by a run of the VFS. -/
theorem files_simulated_write : Vfs.Run WriteOk (vfsInit blank.vfs).2 written1.vfs ∧
    Vfs.byteAt written1.vfs 1 176 = 0xA1 :=
  ⟨files_simulated written1_reached, by decide +kernel⟩

/-! ## §2. The invariants. -/

/-- The blocks are those of the processes, the buffers those of the files, and the table is in
order. -/
structure Sound (s : ProcState) : Prop where
  tenants : Tenants s
  files : Bounded s.vfs
  table : TableInv s.table

theorem boot_sound (s : ProcState) : Sound (boot s).state :=
  ⟨procInit_tenants _, vfsInit_bounded _, boot_inv s⟩

theorem FairStep.sound {s s' : ProcState} (hstep : FairStep s s') (h : Sound s) : Sound s' := by
  refine ⟨?_, hstep.files.bounded h.files, ?_⟩
  · cases hstep with
    | call hf hexec => exact (exec_tenants h.tenants hf.unworn hf.heap hexec).tenants h.tenants
    | spawn hheap hpos hspawn => exact (spawnPrepare_tenants hheap h.tenants hpos hspawn).1
    | enter henter => exact ((startEnter_idle henter).step 0).tenants h.tenants
    | leave hleave => exact ((startLeave_idle hleave).step 0).tenants h.tenants
  · cases hstep with
    | call hf hexec => exact (exec_table hexec).inv h.table
    | spawn hheap hpos hspawn => exact (spawnPrepare_ok h.table hspawn).inv
    | enter henter => exact (startEnter_table henter).inv h.table
    | leave hleave => exact (startLeave_table hleave).inv h.table

theorem FairRun.sound {s s' : ProcState} (hrun : FairRun s s') (h : Sound s) : Sound s' :=
  inv_of_run Sound hrun h fun hs hstep => hstep.sound hs

/-! ## §3. Calls come back. -/

section Calls

variable {env : Env} {s s' : ProcState}

theorem map_returns {ε α β : Type} {x : Except ε α} (f : α → β) (h : ∃ a, x = .ok a) :
    ∃ b, x.map f = .ok b := by
  obtain ⟨a, rfl⟩ := h
  exact ⟨_, rfl⟩

theorem onVfs_returns {α : Type} {x : Except Vfs.Fault (α × VfsState)} (h : ∃ a, x = .ok a) :
    ∃ a, onVfs s x = .ok a := by
  obtain ⟨a, rfl⟩ := h
  exact ⟨_, rfl⟩

variable {pid status : ℤ}

theorem procExitLocked_returns (h : ¬(pid = 1 ∧ LiveProc s 1)) :
    ∃ x, procExitLocked s pid status = .ok x := by
  unfold procExitLocked
  split
  · exact ⟨_, rfl⟩
  rename_i i hi
  split
  · exact ⟨_, rfl⟩
  rename_i hlive
  split
  · rename_i hpid
    subst hpid
    exact absurd ⟨rfl, i, hi, Bool.eq_false_iff.mpr hlive⟩ h
  · exact ⟨_, rfl⟩

theorem startLeave_returns {previous : ℤ} (h : ¬(pid = 1 ∧ LiveProc s 1)) :
    ∃ x, startLeave s pid previous = .ok x := by
  refine map_returns _ ?_
  unfold exitIfLive
  split
  · exact ⟨_, rfl⟩
  split
  · exact ⟨_, rfl⟩
  · exact map_returns _ (procExitLocked_returns h)

theorem procKill_returns : ∃ x, procKill s pid status = .ok x := by
  unfold procKill
  split_ifs with hpos hinit
  · exact ⟨_, rfl⟩
  · exact ⟨_, rfl⟩
  split
  · exact ⟨_, rfl⟩
  split_ifs
  · exact ⟨_, rfl⟩
  · exact procExitLocked_returns fun hpid => hinit hpid.1

theorem Sound.returns (h : Sound s) {op : Op} (hf : Fair env s op)
    (hop : ¬∃ status, op = .exit 1 status ∧ LiveProc s 1) : ∃ x, exec env s op = .ok x := by
  cases op with
  | exit pid status =>
    refine map_returns _ (procExitLocked_returns ?_)
    rintro ⟨rfl, hlive⟩
    exact hop ⟨status, rfl, hlive⟩
  | kill pid status => exact map_returns _ procKill_returns
  | wait parentPid childPid => exact map_returns _ (h.tenants.wait_returns parentPid childPid)
  | free pid ptr =>
    refine map_returns _ ?_
    unfold procFree
    split
    · exact ⟨_, rfl⟩
    · obtain hfree | ⟨_, _, -, -, -, hfree⟩ :=
        (h.tenants.ctx.freeable _).memctxFree_cases ptr <;>
      · rw [hfree]
        exact ⟨_, rfl⟩
  | «open» pid path flags =>
    refine map_returns _ ?_
    unfold procOpen
    split
    · exact ⟨_, rfl⟩
    split
    · exact ⟨_, rfl⟩
    · obtain ⟨r, v, hv⟩ := vfsOpen_returns env.files s.vfs path flags
      rw [hv]
      cases r <;> exact ⟨_, rfl⟩
  | read pid fd buf len =>
    exact map_returns _ (onVfs_returns (h.files.read_returns _ _ fun _ _ => (hf.reads rfl).le))
  | write pid fd buf =>
    refine map_returns _ (onVfs_returns ?_)
    exact h.files.write_returns hf.files (hf.writes _ rfl)
  -- the model of the other calls has no way to stop
  | _ => exact ⟨_, rfl⟩

end Calls

/-! ## §4. A spawn comes back. -/

section Spawn

variable {env : SpawnEnv} {s t : ProcState} {i : ProcSlot} {c : CtxSlot} {path : Str}

theorem readVfsFile_returns (files : Allocator) {v : VfsState} (hb : Bounded v) (path : Str)
    {size : ℕ} (hsize : size ≤ 2 ^ 63) : ∃ x, readVfsFile files v path size = .ok x := by
  obtain ⟨fd, v₁, hopen⟩ := vfsOpen_returns files v path vfsORdonly
  unfold readVfsFile
  rw [hopen]
  cases fd with
  | none => exact ⟨_, rfl⟩
  | some k =>
    have hb₁ : Bounded v₁ := Vfs.Run.bounded (.single (open_step hopen)) hb
    obtain ⟨x, hread⟩ := hb₁.read_returns k true fun _ _ => hsize
    show ∃ y, (vfsRead v₁ k true size >>= _) = .ok y
    rw [hread]
    exact ⟨_, rfl⟩

/-- The loader stays in the file, and its own test never fails. -/
theorem loadProcessImage_returns (env : SpawnEnv) (t : ProcState) (pid : ℤ) (file : List UInt8) :
    ∃ x, loadProcessImage env t pid file = .ok x := by
  have hval := Elf.elfValidate_bounds file
  obtain ⟨valid, hv⟩ := hval.total fun _ h => h
  unfold loadProcessImage
  rw [hv]
  cases valid with
  | false => exact ⟨_, rfl⟩
  | true =>
    obtain ⟨eh, phs, r, heh, hr, htable, hins⟩ := hval.value hv rfl
    obtain ⟨im, hcopy, -, -⟩ := hins.copies htable
    simp only [onElf, heh, hr, hcopy, Except.mapError, bind, Except.bind, Bool.not_true,
      Bool.false_eq_true, if_false]
    split <;> exact ⟨_, rfl⟩

variable (h : Spawning s i c t) (hu : Unclaimed s i c) (hi : freeProc s = some i)
  (hc : freeCtx s.memctx = some c)
include h hu

theorem Spawning.procFree_returns (ptr : ℕ) : ∃ x, procFree t s.nextPid ptr = .ok x := by
  unfold procFree
  rw [h.findProc hu]
  dsimp only
  rw [h.memctx]
  obtain hfree | ⟨_, _, -, -, -, hfree⟩ := h.charged.freeable.memctxFree_cases ptr <;>
  · rw [hfree]
    exact ⟨_, rfl⟩

include hi hc

theorem Spawning.giveUp_returns (r : ℤ) : ∃ x, giveUp t s.nextPid r = .ok x := by
  obtain ⟨t', habandon, -⟩ := h.abandon hu hi hc
  exact map_returns _ ⟨t', habandon⟩

variable (henv : FreshHeap env)
include henv

theorem Spawning.spawnAttach_returns (image : Elf.ElfImage) :
    ∃ x, spawnAttach env t s.nextPid path image = .ok x := by
  have hkeeps := keeps_spawning henv hu
  have hI := (hkeeps.attach path image h).1
  unfold spawnAttach
  dsimp only
  split
  · have hfree : ∃ u, freeProcessImage
        (procAttachImage (env.at t) t s.nextPid path (some image)).2 s.nextPid image = .ok u := by
      unfold freeProcessImage
      split
      · exact ⟨_, rfl⟩
      · exact map_returns _ (hI.procFree_returns hu _)
    obtain ⟨u, hfree⟩ := hfree
    rw [hfree]
    exact (hkeeps.release hfree hI).giveUp_returns hu hi hc _
  · exact ⟨_, rfl⟩

theorem Spawning.spawnFile_returns (hb : Bounded t.vfs) {size : ℕ} (hsize : size ≤ 2 ^ 63) :
    ∃ x, spawnFile env t s.nextPid path size = .ok x := by
  have hkeeps := keeps_spawning henv hu
  have halloc := hkeeps.alloc size h
  unfold spawnFile
  dsimp only
  split
  · exact halloc.giveUp_returns hu hi hc _
  have hb' : Bounded (procAlloc (env.at t) t s.nextPid size).2.vfs := by
    rw [procAlloc_memctx]
    exact hb
  obtain ⟨⟨file, v⟩, hread⟩ := readVfsFile_returns env.files hb' path hsize
  have hI := hkeeps.read halloc hread
  rw [hread]
  cases file with
  | none => exact hI.giveUp_returns hu hi hc _
  | some file =>
    obtain ⟨⟨image, u⟩, hload⟩ := loadProcessImage_returns env
      { (procAlloc (env.at t) t s.nextPid size).2 with vfs := v } s.nextPid file
    have hI' := hkeeps.load hload hI
    show ∃ x, (loadProcessImage env _ s.nextPid file >>= _) = .ok x
    rw [hload]
    cases image with
    | none => exact hI'.giveUp_returns hu hi hc _
    | some image => exact hI'.spawnAttach_returns hu hi hc henv image

end Spawn

section Exec

variable {env : SpawnEnv} {s : ProcState}

/-- **The preparation of a spawn** comes back, whichever of its steps fails. -/
theorem Sound.spawnPrepare_returns (h : Sound s) (henv : FreshHeap env) (hpos : Unworn s)
    (parentPid : ℤ) (path : Str) : ∃ x, spawnPrepare env s parentPid path = .ok x := by
  unfold spawnPrepare
  split
  · exact ⟨_, rfl⟩
  split
  · exact ⟨_, rfl⟩
  rename_i st hst
  have hsize : st.size ≤ 2 ^ 63 := by
    obtain ⟨n, -, hn⟩ := Option.bind_eq_some_iff.mp hst
    unfold fillStat at hn
    split at hn
    · cases hn
    · cases hn
      exact h.files.size_le n
  split
  · exact ⟨_, rfl⟩
  dsimp only
  obtain ⟨c, hc⟩ := h.tenants.ctx_free
  obtain ⟨r, hr, heq, -⟩ | ⟨i, hi, -, ⟨-, heq⟩ | ⟨-, heq⟩⟩ :=
    procCreate_cases s (basenameFromPath path) parentPid
  · rw [heq, if_pos hr]
    exact ⟨_, rfl⟩
  · rw [heq]
    exact ⟨_, rfl⟩
  · rw [heq, if_neg (not_lt.mpr hpos.le)]
    have hu := h.tenants.unclaimed hpos i c
    exact (spawning_spawned hu hc parentPid path).spawnFile_returns hu hi hc henv h.files hsize

/-- **`proc_spawn_exec`** comes back with its program: the child of a process is not process 1. -/
theorem Sound.spawnExec_returns (h : Sound s) (henv : FreshHeap env) (hpos : Unworn s)
    {body : ProcState → Except Halt ProcState}
    (hbody : ∀ u, FairRun s u → ∃ u', body u = .ok u' ∧ FairRun u u') (parentPid : ℤ) (path : Str) :
    ∃ x, procSpawnExec env body s parentPid path = .ok x := by
  obtain ⟨⟨p, t⟩, hprep⟩ := h.spawnPrepare_returns henv hpos parentPid path
  unfold procSpawnExec
  rw [hprep]
  cases p with
  | failed r => exact ⟨_, rfl⟩
  | ready pid =>
    obtain ⟨rfl, hparent⟩ := (spawnPrepare_tenants henv h.tenants hpos hprep).2.2 pid rfl
    have hne : s.nextPid ≠ 1 := by
      obtain ⟨j, hj⟩ := Option.ne_none_iff_exists'.mp hparent
      have hused := (findProc_some hj).1
      have hbelow := h.tenants.below hpos hused
      have hone : 1 ≤ (s.procs j).info.pid := (h.table.numbered.row j).pos hused
      omega
    have hstart : ∃ y, procStartFlat body t s.nextPid = .ok y := by
      unfold procStartFlat
      split
      · exact ⟨_, rfl⟩
      rename_i u henter
      have hrun : FairRun s u := (ReflTransGen.single (.spawn henv hpos hprep)).tail (.enter henter)
      obtain ⟨u', hret, -⟩ := hbody u hrun
      obtain ⟨x, hleave⟩ : ∃ x, startLeave u' s.nextPid t.currentPid = .ok x :=
        startLeave_returns fun hx => hne hx.1
      rw [hret]
      show ∃ y, (startLeave u' _ _ >>= _) = .ok y
      rw [hleave]
      exact ⟨_, rfl⟩
    obtain ⟨y, hy⟩ := hstart
    show ∃ x, (procStartFlat body t s.nextPid >>= _) = .ok x
    rw [hy]
    exact ⟨_, rfl⟩

end Exec

/-- **Nothing brings the kernel down but the end of process 1**: in every state of every run of
fair calls and spawns, with programs started and left in any order, the next fair call comes back,
and so does a program that is left, unless process 1 runs and this would end it; and so does
`proc_spawn_exec` around every program that goes on by such steps and returns. -/
theorem kernel_stays_up {s t : ProcState} (hrun : FairRun (boot s).state t) :
    (∀ env op, Fair env t op → ¬(∃ status, op = .exit 1 status ∧ LiveProc t 1) →
      ∃ x, exec env t op = .ok x) ∧
    (∀ pid previous, ¬(pid = 1 ∧ LiveProc t 1) → ∃ x, startLeave t pid previous = .ok x) ∧
    ∀ env body parentPid path, FreshHeap env → Unworn t →
      (∀ u, FairRun t u → ∃ u', body u = .ok u' ∧ FairRun u u') →
        ∃ x, procSpawnExec env body t parentPid path = .ok x := by
  have hsound := hrun.sound (boot_sound s)
  refine ⟨fun env op hf hop => hsound.returns hf hop,
    fun pid previous h => startLeave_returns h, ?_⟩
  intro env body parentPid path henv hpos hbody
  exact hsound.spawnExec_returns henv hpos hbody parentPid path

/-- The next write of process 1 comes back with its count; and when it spawns `/a`, a program that
kills itself, the spawn comes back with the new process. -/
theorem kernel_stays_up_spawn : LiveProc written1 1 ∧
    (∃ t, exec env0 written1 (.write 1 0 (some [0x78])) = .ok (.count (some 1), t)) ∧
    ∃ t, procSpawnExec threeBlocks (fun u => (procKill u 2 9).map Prod.snd) written1 1 pathA =
      .ok (2, t) := by
  obtain ⟨hcall, -, hspawn⟩ := kernel_stays_up written1_reached
  have hpos : 0 < written1.nextPid := by decide +kernel
  refine ⟨⟨0, by decide +kernel, by decide +kernel⟩, ?_, ?_⟩
  · obtain ⟨⟨r, t⟩, hret⟩ := hcall env0 (.write 1 0 (some [0x78])) (fair_env0 _ hpos (by decide +kernel)
      (fun _ hc => by cases hc; exact writeOk_short (by decide +kernel) (by decide +kernel)) nofun) nofun
    have hone : (exec env0 written1 (.write 1 0 (some [0x78]))).toOption.map Prod.fst =
      some (.count (some 1)) := by decide +kernel
    rw [hret] at hone
    cases hone
    exact ⟨t, hret⟩
  · have hkill : ∀ u, FairRun written1 u → ∃ u', (procKill u 2 9).map Prod.snd = .ok u' ∧
        FairRun u u' := by
      intro u hu
      have hfair : Fair ⟨fun _ => 0, noMemory⟩ u (.kill 2 9) :=
        ⟨noMemory_ok _, fun _ => .inl rfl, nofun, nofun, nofun⟩
      obtain ⟨⟨r, u'⟩, hret⟩ := (kernel_stays_up (written1_reached.trans hu)).1 _ _ hfair
        nofun
      obtain ⟨⟨n, u'⟩, hk, heq⟩ := map_ok.mp hret
      cases heq
      exact ⟨u', map_ok.mpr ⟨_, hk, rfl⟩, .single (.call hfair hret)⟩
    obtain ⟨⟨r, t⟩, hret⟩ := hspawn threeBlocks _ 1 pathA threeBlocks_fresh hpos hkill
    have hpid : (procSpawnExec threeBlocks (fun u => (procKill u 2 9).map Prod.snd) written1 1
      pathA).toOption.map Prod.fst = some 2 := by decide +kernel
    rw [hret] at hpid
    cases hpid
    exact ⟨t, hret⟩

end ExoCore.Proc
