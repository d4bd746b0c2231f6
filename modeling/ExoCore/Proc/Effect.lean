/-
  ExoCore.Proc.Effect — WHAT A CALL CAN DO.

  Every later module looks at the kernel state from one side: the table, the lives, the
  descriptors, the memory.  What the fifteen calls do is therefore said once, here, as
  `Effect`: most of them touch the files only (`OnlyFiles`) or the memory only
  (`OnlyMemory`), and the rest create, start, end or reap a process.

  Main results:
    • `exec_effect` — every call that returns has one of the nine effects;
    • `startEnter_cases`, `exitIfLive_cases` — the two halves of `proc_start_flat`;
    • `exitEntry_eq` — the state after a process has ended.
-/
import ExoCore.Proc.Calls
import ExoCore.Vfs.Step

namespace ExoCore.Proc

open ExoCore.Lib ExoCore.Vfs Function Relation

/-! ## §1. Lookups. -/

/-- `pid` names a process that can still open files. -/
def LiveProc (s : ProcState) (pid : ℤ) : Prop :=
  ∃ i, findProc s pid = some i ∧ procIsTerminalState (s.procs i).info.state = false

section Lookups

variable {s s' : ProcState} {pid : ℤ} {i : ProcSlot}

theorem findProc_some (h : findProc s pid = some i) :
    (s.procs i).used = true ∧ (s.procs i).info.pid = pid := by
  have hi := List.find?_some h
  simpa using hi

theorem freeProc_some (h : freeProc s = some i) : (s.procs i).used = false := by
  have hi := List.find?_some h
  simpa using hi

theorem freeFd_some {fd : Fd} (h : freeFd s i = some fd) : (s.procs i).fds fd < 0 := by
  have hfd := List.find?_some h
  simpa using hfd

/-- The search only looks at who is there and under which pid. -/
theorem findProc_congr (h : ∀ j, (s'.procs j).used = (s.procs j).used ∧
    (s'.procs j).info.pid = (s.procs j).info.pid) : findProc s' pid = findProc s pid := by
  unfold findProc
  congr 1
  funext j
  rw [(h j).1, (h j).2]

theorem not_liveProc_of_none (h : findProc s pid = none) : ¬LiveProc s pid := by
  rintro ⟨i, hi, -⟩
  rw [h] at hi
  cases hi

theorem not_liveProc_of_terminal (h : findProc s pid = some i)
    (hterm : procIsTerminalState (s.procs i).info.state = true) : ¬LiveProc s pid := by
  rintro ⟨j, hj, hlive⟩
  cases h.symm.trans hj
  cases hterm.symm.trans hlive

theorem onVfs_ok {α : Type} {r : Except Vfs.Fault (α × VfsState)} {a : α}
    (h : onVfs s r = .ok (a, s')) : ∃ v, r = .ok (a, v) ∧ s' = { s with vfs := v } := by
  unfold onVfs at h
  split at h
  · cases h
  · cases h
    exact ⟨_, rfl, rfl⟩

theorem setInfo_info (t : ProcState) (i : ProcSlot) (info : ProcInfo) :
    ((t.setInfo i info).procs i).info = info := by
  simp [ProcState.setInfo, ProcState.setProc]

end Lookups

/-! ## §2. The ways through the calls. -/

/-- `proc_create` accepts this parent. -/
def Accepts (s : ProcState) (parentPid : ℤ) : Prop :=
  (parentPid = 0 ∧ s.nextPid = 1) ∨ (parentPid ≠ 0 ∧ ∃ j, findProc s parentPid = some j)

/-- The state after `proc_create` has filled slot `i`: a pid and, if there is one, a context
are used up. -/
def enrolled (s : ProcState) (i : ProcSlot) (e : ProcEntry) : ProcState :=
  { s with
    nextPid := toInt (s.nextPid + 1)
    memctx := (memctxCreate s.memctx s.nextPid 0).2 }.setProc i e

theorem procCreate_cases (s : ProcState) (name : Str) (parentPid : ℤ) :
    (∃ r < 0, procCreate s name parentPid = (r, s) ∧
        (Accepts s parentPid → freeProc s = none ∧ r = procErrNomem)) ∨
      ∃ i, freeProc s = some i ∧ Accepts s parentPid ∧
        (((memctxCreate s.memctx s.nextPid 0).1 < 0 ∧
            procCreate s name parentPid = (procErrNomem, enrolled s i ProcEntry.zero)) ∨
          (0 ≤ (memctxCreate s.memctx s.nextPid 0).1 ∧
            procCreate s name parentPid = (s.nextPid, enrolled s i
              (newEntry s.nextPid parentPid (memctxCreate s.memctx s.nextPid 0).1 name)))) := by
  unfold procCreate
  split
  · rename_i hparent
    refine .inl ⟨-1, by decide, rfl, ?_⟩
    rintro (⟨h0, -⟩ | ⟨-, j, hj⟩)
    · exact absurd h0 hparent.1
    · rw [hparent.2] at hj
      cases hj
  rename_i hparent
  split
  · rename_i hnext
    refine .inl ⟨-1, by decide, rfl, ?_⟩
    rintro (⟨-, h1⟩ | ⟨h0, -⟩)
    · exact absurd h1 hnext.2
    · exact absurd hnext.1 h0
  rename_i hnext
  have haccept : Accepts s parentPid := by
    by_cases h0 : parentPid = 0
    · exact .inl ⟨h0, not_not.mp fun h1 => hnext ⟨h0, h1⟩⟩
    · exact .inr ⟨h0, Option.ne_none_iff_exists'.mp fun hj => hparent ⟨h0, hj⟩⟩
  split
  · rename_i hfree
    exact .inl ⟨procErrNomem, by decide, rfl, fun _ => ⟨hfree, rfl⟩⟩
  rename_i i hi
  refine .inr ⟨i, hi, haccept, ?_⟩
  dsimp only
  split
  · rename_i hneg
    exact .inl ⟨hneg, rfl⟩
  · rename_i hneg
    exact .inr ⟨not_lt.mp hneg, rfl⟩

/-- How `proc_exit` and `proc_kill` end: refused, or the process has ended. -/
inductive ExitOutcome (s : ProcState) (pid status : ℤ) : ℤ → ProcState → Prop
  | refused {r : ℤ} (hr : r < 0) : ExitOutcome s pid status r s
  | ended {i : ProcSlot} (hi : findProc s pid = some i)
      (hlive : procIsTerminalState (s.procs i).info.state = false) (hinit : pid ≠ 1) :
      ExitOutcome s pid status 0 (exitEntry s i pid status)

variable {s s' : ProcState} {pid r : ℤ}

theorem procExitLocked_cases {status : ℤ}
    (h : procExitLocked s pid status = .ok (r, s')) : ExitOutcome s pid status r s' := by
  unfold procExitLocked at h
  split at h
  · cases h
    exact .refused (by decide)
  rename_i i hi
  split at h
  · cases h
    exact .refused (by decide)
  rename_i hlive
  split at h
  · cases h
  rename_i hpid
  cases h
  exact .ended hi (Bool.eq_false_iff.mpr hlive) hpid

theorem procKill_cases {status : ℤ}
    (h : procKill s pid status = .ok (r, s')) : ExitOutcome s pid status r s' := by
  unfold procKill at h
  split at h
  · cases h
    exact .refused (by decide)
  split at h
  · cases h
    exact .refused (by decide)
  split at h
  · cases h
    exact .refused (by decide)
  split at h
  · cases h
    exact .refused (by decide)
  · exact procExitLocked_cases h

theorem procWait_cases {parentPid childPid : ℤ} {r : Option ℤ}
    (h : procWait s parentPid childPid = .ok (r, s')) :
    (r = none ∧ s' = s) ∨
      ∃ i ok m, findProc s childPid = some i ∧ (s.procs i).info.parentPid = parentPid ∧
        (s.procs i).info.state = .exited ∧
        memctxDestroy s.memctx (s.procs i).info.memctx = some (ok, m) ∧
        r = some (s.procs i).info.exitStatus ∧
        s' = { s with memctx := m }.setProc i ProcEntry.zero := by
  unfold procWait at h
  split at h
  · cases h
    exact .inl ⟨rfl, rfl⟩
  rename_i i hi
  dsimp only at h
  split at h
  · cases h
    exact .inl ⟨rfl, rfl⟩
  rename_i hchild
  split at h
  · cases h
  rename_i ok m hm
  cases h
  refine .inr ⟨i, ok, m, hi, ?_, ?_, hm, rfl, rfl⟩
  · exact not_not.mp fun he => hchild (.inl he)
  · exact not_not.mp fun he => hchild (.inr he)

/-- The state after `proc_set_current` has put `pid`, in slot `i`, in charge. -/
def focused (s : ProcState) (i : ProcSlot) (pid : ℤ) : ProcState :=
  { parkCurrent s with currentPid := pid }.setStatus i .running

/-- The state with other states of the processes. -/
def ProcState.withStates (s : ProcState) (states : ProcSlot → ProcStatus) : ProcState :=
  { s with procs := fun j => { s.procs j with info := { (s.procs j).info with state := states j } } }

/-- The process in slot `j` is the current one, and running. -/
def InCharge (s : ProcState) (j : ProcSlot) : Prop :=
  s.currentPid ≠ 0 ∧ findProc s s.currentPid = some j ∧ (s.procs j).info.state = .running

instance (s : ProcState) (j : ProcSlot) : Decidable (InCharge s j) :=
  inferInstanceAs (Decidable (_ ∧ _ ∧ _))

/-- The states after the current process was made `READY` again. -/
def parkedState (s : ProcState) (j : ProcSlot) : ProcStatus :=
  if InCharge s j then .ready else (s.procs j).info.state

section

variable (s : ProcState)

theorem parkedState_terminal (j : ProcSlot) :
    procIsTerminalState (parkedState s j) = procIsTerminalState (s.procs j).info.state := by
  unfold parkedState
  split
  · rename_i h
    rw [h.2.2]
    rfl
  · rfl

theorem setStatus_eq (i : ProcSlot) (state : ProcStatus) :
    s.setStatus i state =
      s.withStates (update (fun j => (s.procs j).info.state) i state) := by
  unfold ProcState.setStatus ProcState.setInfo ProcState.setProc ProcState.withStates
  congr 1
  funext j
  by_cases hj : j = i
  · subst hj
    simp
  · simp [hj]

theorem parkCurrent_eq : parkCurrent s = s.withStates (parkedState s) := by
  -- nobody is in charge
  have hnone : (∀ j, ¬InCharge s j) → s = s.withStates (parkedState s) := by
    intro hno
    have hstates : parkedState s = fun j => (s.procs j).info.state :=
      funext fun j => if_neg (hno j)
    rw [hstates]
    rfl
  unfold parkCurrent
  split
  · rename_i h0
    split
    · rename_i hmiss
      refine hnone fun j hj => ?_
      rw [hj.2.1] at hmiss
      cases hmiss
    rename_i old hold
    have huniq : ∀ {j}, InCharge s j → j = old := fun hj => Option.some.inj (hj.2.1.symm.trans hold)
    split
    · rename_i hrun
      rw [setStatus_eq]
      congr 1
      funext j
      unfold parkedState
      by_cases hj : j = old
      · subst hj
        rw [update_self, if_pos ⟨h0, hold, hrun⟩]
      · rw [update_of_ne hj, if_neg fun hin => hj (huniq hin)]
    · rename_i hrun
      refine hnone fun j hj => hrun ?_
      rw [← huniq hj]
      exact hj.2.2
  · rename_i h0
    exact hnone fun j hj => h0 hj.1

theorem focused_eq (i : ProcSlot) (pid : ℤ) :
    focused s i pid =
      { s.withStates (update (parkedState s) i .running) with currentPid := pid } := by
  unfold focused
  rw [parkCurrent_eq, setStatus_eq]
  rfl

theorem procSetCurrent_cases (pid : ℤ) :
    (¬LiveProc s pid ∧ procSetCurrent s pid = (-1, s)) ∨
      ∃ i, findProc s pid = some i ∧ procIsTerminalState (s.procs i).info.state = false ∧
        procSetCurrent s pid = (0, focused s i pid) := by
  unfold procSetCurrent
  split
  · rename_i hnone
    exact .inl ⟨not_liveProc_of_none hnone, rfl⟩
  rename_i i hi
  split
  · rename_i hterm
    exact .inl ⟨not_liveProc_of_terminal hi hterm, rfl⟩
  · rename_i hlive
    exact .inr ⟨i, hi, Bool.eq_false_iff.mpr hlive, rfl⟩

end

/-- The end of `proc_start_flat` changes who runs, and nothing else. -/
theorem resume_eq (s : ProcState) (pid previous : ℤ) :
    ∃ states c, resume s pid previous = { s.withStates states with currentPid := c } := by
  have hsame : ∀ c, ∃ states c', { s with currentPid := c } =
      { s.withStates states with currentPid := c' } :=
    fun c => ⟨fun j => (s.procs j).info.state, c, rfl⟩
  unfold resume
  split
  · rcases procSetCurrent_cases s previous with ⟨-, heq⟩ | ⟨i, -, -, heq⟩
    · rw [heq]
      exact hsame s.currentPid
    · rw [heq, focused_eq]
      exact ⟨_, _, rfl⟩
  split
  · exact hsame 0
  · exact hsame s.currentPid

theorem startEnter_cases (h : startEnter s pid = some s') :
    ∃ i, findProc s pid = some i ∧ procIsTerminalState (s.procs i).info.state = false ∧
      s' = focused s i pid := by
  unfold startEnter at h
  split at h
  · cases h
  split at h
  · cases h
  rcases procSetCurrent_cases s pid with ⟨-, heq⟩ | ⟨i, hi, hlive, heq⟩
  · rw [heq] at h
    cases h
  · rw [heq] at h
    cases h
    exact ⟨i, hi, hlive, rfl⟩

theorem exitIfLive_cases (h : exitIfLive s pid = .ok s') :
    (¬LiveProc s pid ∧ s' = s) ∨
      ∃ i, findProc s pid = some i ∧ procIsTerminalState (s.procs i).info.state = false ∧
        pid ≠ 1 ∧ s' = exitEntry s i pid 0 := by
  unfold exitIfLive at h
  split at h
  · rename_i hnone
    cases h
    exact .inl ⟨not_liveProc_of_none hnone, rfl⟩
  rename_i i hi
  split at h
  · rename_i hterm
    cases h
    exact .inl ⟨not_liveProc_of_terminal hi hterm, rfl⟩
  rename_i hlive
  obtain ⟨⟨r, s₁⟩, hexit, heq⟩ := map_ok.mp h
  cases heq
  unfold procExitLocked at hexit
  rw [hi] at hexit
  dsimp only at hexit
  rw [if_neg hlive] at hexit
  split at hexit
  · cases hexit
  · rename_i hinit
    cases hexit
    exact .inr ⟨i, hi, Bool.eq_false_iff.mpr hlive, hinit, rfl⟩

/-- The ways through `proc_open`. -/
theorem procOpen_cases {env : Env} {path : Str} {flags : ℕ}
    (h : procOpen env s pid path flags = .ok (r, s')) :
    (¬LiveProc s pid ∧ r = -1 ∧ s' = s) ∨
      ∃ i, findProc s pid = some i ∧ procIsTerminalState (s.procs i).info.state = false ∧
        ((∃ v, vfsOpen env.files s.vfs path flags = .ok (none, v) ∧ r = -1 ∧
            s' = { s with vfs := v }) ∨
          ∃ slot v, vfsOpen env.files s.vfs path flags = .ok (some slot, v) ∧
            (r, s') = installFd { s with vfs := v } i slot) := by
  unfold procOpen at h
  split at h
  · rename_i hnone
    cases h
    exact .inl ⟨not_liveProc_of_none hnone, rfl, rfl⟩
  rename_i i hi
  split at h
  · rename_i hterm
    cases h
    exact .inl ⟨not_liveProc_of_terminal hi hterm, rfl, rfl⟩
  rename_i hlive
  refine .inr ⟨i, hi, Bool.eq_false_iff.mpr hlive, ?_⟩
  obtain ⟨⟨r', s₁⟩, hopen, h⟩ := bind_ok.mp h
  obtain ⟨v, hv, rfl⟩ := onVfs_ok hopen
  cases r' with
  | none =>
    cases h
    exact .inl ⟨v, hv, rfl, rfl⟩
  | some slot => exact .inr ⟨slot, v, hv, (Except.ok.inj h).symm⟩

/-! ## §3. Files only, memory only. -/

/-- The state with other descriptors and other files. -/
def ProcState.withFiles (s : ProcState) (fds : ProcSlot → Fd → ℤ) (v : VfsState) : ProcState :=
  { s with procs := fun j => { s.procs j with fds := fds j }, vfs := v }

/-- **Only descriptors and files changed.** -/
def OnlyFiles (s s' : ProcState) : Prop := ∃ fds v, s' = s.withFiles fds v

/-- Only descriptors and files changed, the files in steps of `R`. -/
def FilesBy (R : VfsState → VfsState → Prop) (s s' : ProcState) : Prop :=
  ∃ fds v, ReflTransGen R s.vfs v ∧ s' = s.withFiles fds v

section Files

variable {R : VfsState → VfsState → Prop} {s s' s'' : ProcState}

theorem onlyFiles_vfs (s : ProcState) (v : VfsState) : OnlyFiles s { s with vfs := v } :=
  ⟨fun j => (s.procs j).fds, v, rfl⟩

theorem FilesBy.trans (h : FilesBy R s s') (h' : FilesBy R s' s'') : FilesBy R s s'' := by
  obtain ⟨_, _, hr, rfl⟩ := h
  obtain ⟨fds, v, hr', rfl⟩ := h'
  exact ⟨fds, v, hr.trans hr', rfl⟩

theorem FilesBy.refl (s : ProcState) : FilesBy R s s :=
  ⟨fun j => (s.procs j).fds, s.vfs, .refl, rfl⟩

theorem filesBy_vfs {v : VfsState} (h : R s.vfs v) : FilesBy R s { s with vfs := v } :=
  ⟨fun j => (s.procs j).fds, v, .single h, rfl⟩

theorem filesBy_setFd (s : ProcState) (i : ProcSlot) (fd : Fd) (b : ℤ) :
    FilesBy R s (s.setFd i fd b) := by
  refine ⟨fun j => ((s.setFd i fd b).procs j).fds, s.vfs, .refl, ?_⟩
  unfold ProcState.withFiles ProcState.setFd ProcState.setProc
  congr 1
  funext j
  by_cases hj : j = i
  · subst hj
    simp
  · simp [hj]

theorem filesBy_putFd (s : ProcState) (i : ProcSlot) (fd b : ℤ) : FilesBy R s (putFd s i fd b) := by
  unfold putFd
  split
  · exact filesBy_setFd s i _ b
  · exact .refl s

theorem onVfs_filesBy {α : Type} {r : Except Fault (α × VfsState)} {a : α}
    (h : onVfs s r = .ok (a, s')) (hR : ∀ v, r = .ok (a, v) → R s.vfs v) : FilesBy R s s' := by
  obtain ⟨v, hv, rfl⟩ := onVfs_ok h
  exact filesBy_vfs (hR v hv)

variable (hclose : ∀ v b, R v (vfsClose v b).2)
include hclose

theorem closeFds_filesBy (i : ProcSlot) (l : List Fd) (s : ProcState) :
    FilesBy R s (l.foldl (closeFd i) s) := by
  induction l generalizing s with
  | nil => exact .refl s
  | cons fd l ih =>
    refine FilesBy.trans ?_ (ih (closeFd i s fd))
    unfold closeFd
    split
    · exact (filesBy_vfs (hclose _ _)).trans (filesBy_setFd _ i fd (-1))
    · exact .refl s

theorem procOpen_filesBy {env : Env} {pid r : ℤ} {path : Str} {flags : ℕ}
    (h : procOpen env s pid path flags = .ok (r, s'))
    (hR : ∀ a v, vfsOpen env.files s.vfs path flags = .ok (a, v) → R s.vfs v) :
    FilesBy R s s' := by
  rcases procOpen_cases h with ⟨-, -, rfl⟩ | ⟨i, -, -, ⟨v, hv, -, rfl⟩ | ⟨slot, v, hv, hinst⟩⟩
  · exact .refl s'
  · exact filesBy_vfs (hR _ v hv)
  · refine (filesBy_vfs (hR _ v hv)).trans ?_
    unfold installFd at hinst
    split at hinst
    · cases hinst
      exact filesBy_setFd _ i _ _
    · cases hinst
      exact filesBy_vfs (hclose v _)

theorem procClose_filesBy (s : ProcState) (pid fd : ℤ) : FilesBy R s (procClose s pid fd).2 := by
  unfold procClose
  split
  · exact .refl s
  dsimp only
  split
  · exact .refl s
  · exact (filesBy_putFd s _ fd (-1)).trans (filesBy_vfs (hclose _ _))

theorem procDup2_filesBy (s : ProcState) (pid oldfd newfd : ℤ) :
    FilesBy R s (procDup2 s pid oldfd newfd).2 := by
  unfold procDup2
  split
  · exact .refl s
  dsimp only
  split
  · exact .refl s
  refine FilesBy.trans ?_ (filesBy_putFd _ _ newfd _)
  split
  · exact filesBy_vfs (hclose _ _)
  · exact .refl s

omit hclose

theorem procDup_filesBy (s : ProcState) (pid oldfd : ℤ) : FilesBy R s (procDup s pid oldfd).2 := by
  unfold procDup
  split
  · exact .refl s
  dsimp only
  split
  · exact .refl s
  split
  · exact .refl s
  · exact filesBy_setFd s _ _ _

end Files

/-- Two records of the same process: an image was attached at most. -/
structure SameOwner (a b : ProcInfo) : Prop where
  pid : b.pid = a.pid
  parentPid : b.parentPid = a.parentPid
  state : b.state = a.state
  exitStatus : b.exitStatus = a.exitStatus
  memctx : b.memctx = a.memctx

/-- The state with other records and another memory. -/
def ProcState.withMemory (s : ProcState) (infos : ProcSlot → ProcInfo) (m : MemctxState) :
    ProcState :=
  { s with procs := fun j => { s.procs j with info := infos j }, memctx := m }

/-- **Only memory changed**, `m` is the new one, and what is recorded of an image. -/
def OnlyMemory (s : ProcState) (m : MemctxState) (s' : ProcState) : Prop :=
  ∃ infos, (∀ j, SameOwner (s.procs j).info (infos j)) ∧ s' = s.withMemory infos m

section Memory

variable {s s' s'' : ProcState} {m m' : MemctxState}

theorem SameOwner.refl (a : ProcInfo) : SameOwner a a := ⟨rfl, rfl, rfl, rfl, rfl⟩

theorem SameOwner.trans {a b c : ProcInfo} (h : SameOwner a b) (h' : SameOwner b c) :
    SameOwner a c :=
  ⟨h'.pid.trans h.pid, h'.parentPid.trans h.parentPid, h'.state.trans h.state,
    h'.exitStatus.trans h.exitStatus, h'.memctx.trans h.memctx⟩

theorem OnlyMemory.trans (h : OnlyMemory s m s') (h' : OnlyMemory s' m' s'') :
    OnlyMemory s m' s'' := by
  obtain ⟨_, howner, rfl⟩ := h
  obtain ⟨infos, howner', rfl⟩ := h'
  exact ⟨infos, fun j => (howner j).trans (howner' j), rfl⟩

theorem onlyMemory_memctx (s : ProcState) (m : MemctxState) :
    OnlyMemory s m { s with memctx := m } :=
  ⟨fun j => (s.procs j).info, fun _ => .refl _, rfl⟩

theorem onlyMemory_setInfo {i : ProcSlot} {info : ProcInfo} (h : SameOwner (s.procs i).info info) :
    OnlyMemory s s.memctx (s.setInfo i info) := by
  refine ⟨update (fun j => (s.procs j).info) i info, ?_, ?_⟩
  · exact (forall_update_iff _ fun j => SameOwner (s.procs j).info).mpr ⟨h, fun _ _ => .refl _⟩
  · unfold ProcState.withMemory ProcState.setInfo ProcState.setProc
    congr 1
    funext j
    by_cases hj : j = i
    · subst hj
      simp
    · simp [hj]

/-- The same processes are found. -/
theorem OnlyMemory.findProc (h : OnlyMemory s m s') (pid : ℤ) :
    findProc s' pid = Proc.findProc s pid := by
  obtain ⟨infos, howner, rfl⟩ := h
  exact findProc_congr fun j => ⟨rfl, (howner j).pid⟩

theorem procAlloc_memctx (env : Env) (s : ProcState) (pid : ℤ) (size : ℕ) :
    (procAlloc env s pid size).2 = { s with memctx := (procAlloc env s pid size).2.memctx } := by
  unfold procAlloc
  split <;> rfl

/-- `proc_alloc` changes nothing, or asks for memory in the context of the process. -/
theorem procAlloc_memory (env : Env) (s : ProcState) (pid : ℤ) (size : ℕ) :
    (procAlloc env s pid size).2 = s ∨
      ∃ i, Proc.findProc s pid = some i ∧
        OnlyMemory s (memctxAlloc env.heap s.memctx (s.procs i).info.memctx size).2
          (procAlloc env s pid size).2 := by
  unfold procAlloc
  split
  · exact .inl rfl
  · rename_i i hi
    exact .inr ⟨i, hi, onlyMemory_memctx s _⟩

/-- `proc_free` changes nothing, or gives memory back to the context of the process. -/
theorem procFree_memory {pid r : ℤ} {ptr : ℕ} (h : procFree s pid ptr = .ok (r, s')) :
    s' = s ∨
      ∃ i ok m, Proc.findProc s pid = some i ∧
        memctxFree s.memctx (s.procs i).info.memctx ptr = some (ok, m) ∧ OnlyMemory s m s' := by
  unfold procFree at h
  split at h
  · cases h
    exact .inl rfl
  rename_i i hi
  split at h
  · cases h
  · rename_i ok m hm
    cases h
    exact .inr ⟨i, ok, m, hi, hm, onlyMemory_memctx s m⟩

/-- The record of a process once `proc_attach_image` has entered the image. -/
def imaged (info : ProcInfo) (path : Str) (image : Elf.ElfImage) : ProcInfo :=
  { info with
    entryPoint := image.entry
    imageBase := image.loadBase
    imageSize := image.loadSize
    requestedBase := image.requestedBase
    requestedEnd := image.requestedEnd
    exePath := copyText 128 path }

/-- `proc_attach_image`: nothing; or the record, and then the stack or not. -/
theorem procAttachImage_cases (env : Env) (t : ProcState) (pid : ℤ) (path : Str)
    (image : Elf.ElfImage) :
    procAttachImage env t pid path (some image) = (-1, t) ∨
      ∃ i s₁, findProc t pid = some i ∧ image.entry ≠ 0 ∧
        s₁ = (procAlloc env (t.setInfo i (imaged (t.procs i).info path image)) pid
          procStackSize).2 ∧
        (procAttachImage env t pid path (some image) = (-1, s₁) ∨
          ∃ sp, procAttachImage env t pid path (some image) =
            (0, s₁.setInfo i { (s₁.procs i).info with stackPointer := sp })) := by
  unfold procAttachImage
  split
  · rename_i i image' hi heq
    cases heq
    split
    · exact .inl rfl
    rename_i hzero
    refine .inr ⟨i, _, hi, fun h0 => hzero (.inr h0), rfl, ?_⟩
    dsimp only
    split
    · exact .inl rfl
    · exact .inr ⟨_, rfl⟩
  · exact .inl rfl

/-- **`proc_attach_image`** changes nothing, or records the image and asks for a stack. -/
theorem procAttachImage_memory (env : Env) (s : ProcState) (pid : ℤ) (path : Str)
    (image : Option Elf.ElfImage) :
    (procAttachImage env s pid path image).2 = s ∨
      ∃ i, Proc.findProc s pid = some i ∧
        OnlyMemory s (memctxAlloc env.heap s.memctx (s.procs i).info.memctx procStackSize).2
          (procAttachImage env s pid path image).2 := by
  cases image with
  | none =>
    left
    unfold procAttachImage
    cases Proc.findProc s pid <;> rfl
  | some image =>
    rcases procAttachImage_cases env s pid path image with heq | ⟨i, s₁, hi, -, hs₁, hend⟩
    · rw [heq]
      exact .inl rfl
    refine .inr ⟨i, hi, ?_⟩
    have hrec : OnlyMemory s s.memctx (s.setInfo i (imaged (s.procs i).info path image)) :=
      onlyMemory_setInfo ⟨rfl, rfl, rfl, rfl, rfl⟩
    have hmem : OnlyMemory s
        (memctxAlloc env.heap s.memctx (s.procs i).info.memctx procStackSize).2 s₁ := by
      refine hrec.trans ?_
      rw [hs₁]
      -- the record does not change what `proc_alloc` finds
      unfold procAlloc
      rw [hrec.findProc, hi]
      dsimp only
      rw [setInfo_info]
      exact onlyMemory_memctx _ _
    rcases hend with heq | ⟨sp, heq⟩
    · rw [heq]
      exact hmem
    · rw [heq]
      obtain ⟨infos, howner, rfl⟩ := hmem
      exact OnlyMemory.trans ⟨infos, howner, rfl⟩ (onlyMemory_setInfo ⟨rfl, rfl, rfl, rfl, rfl⟩)

end Memory

/-! ## §4. A process ends. -/

/-- The state in which the descriptors of slot `i` are closed. -/
def closedFds (s : ProcState) (i : ProcSlot) : ProcState := (List.finRange 16).foldl (closeFd i) s

/-- The record of slot `j` once the children of `pid` have gone to process 1. -/
def adoptedInfo (s : ProcState) (pid : ℤ) (j : ProcSlot) : ProcInfo :=
  if pid ≠ 1 ∧ (s.procs j).used ∧ (s.procs j).info.parentPid = pid then
    { (s.procs j).info with parentPid := 1 }
  else (s.procs j).info

/-- The record of slot `j` once the process in slot `i` has ended. -/
def endedInfo (s : ProcState) (i : ProcSlot) (pid status : ℤ) (j : ProcSlot) : ProcInfo :=
  if j = i then { adoptedInfo s pid j with exitStatus := status, state := .exited }
  else adoptedInfo s pid j

theorem adoptedInfo_fields (s : ProcState) (pid : ℤ) (j : ProcSlot) :
    (adoptedInfo s pid j).pid = (s.procs j).info.pid ∧
      (adoptedInfo s pid j).state = (s.procs j).info.state ∧
      (adoptedInfo s pid j).memctx = (s.procs j).info.memctx := by
  unfold adoptedInfo
  split <;> exact ⟨rfl, rfl, rfl⟩

theorem endedInfo_owner (s : ProcState) (i : ProcSlot) (pid status : ℤ) (j : ProcSlot) :
    (endedInfo s i pid status j).pid = (s.procs j).info.pid ∧
      (endedInfo s i pid status j).memctx = (s.procs j).info.memctx := by
  obtain ⟨hpid, -, hctx⟩ := adoptedInfo_fields s pid j
  unfold endedInfo
  split <;> exact ⟨hpid, hctx⟩

/-- **The state after `proc_exit_locked`.** -/
theorem exitEntry_eq (s : ProcState) (i : ProcSlot) (pid status : ℤ) :
    exitEntry s i pid status =
      { s with
        procs := fun j =>
          { s.procs j with
            info := endedInfo s i pid status j
            fds := ((closedFds s i).procs j).fds }
        currentPid := if s.currentPid = pid then 0 else s.currentPid
        vfs := (closedFds s i).vfs } := by
  obtain ⟨fds, v, -, hclosed⟩ :=
    closeFds_filesBy (R := fun _ _ => True) (fun _ _ => trivial) i (List.finRange 16) s
  have hadopted : (if pid ≠ 1 then reparent (s.withFiles fds v) pid else s.withFiles fds v) =
      { s with
        procs := fun j => { s.procs j with info := adoptedInfo s pid j, fds := fds j }
        vfs := v } := by
    by_cases hpid : pid ≠ 1
    · rw [if_pos hpid]
      unfold reparent ProcState.withFiles adoptedInfo
      congr 1
      funext j
      by_cases hj : (s.procs j).used = true ∧ (s.procs j).info.parentPid = pid
      · simp [hpid, hj]
      · simp [hj]
    · simp [hpid, ProcState.withFiles, adoptedInfo]
  have hmarked : update
      (fun j => ({ s.procs j with info := adoptedInfo s pid j, fds := fds j } : ProcEntry)) i
      { s.procs i with
        info := { adoptedInfo s pid i with exitStatus := status, state := .exited }
        fds := fds i } =
      fun j => { s.procs j with info := endedInfo s i pid status j, fds := fds j } := by
    funext j
    unfold endedInfo
    by_cases hj : j = i
    · subst hj
      rw [update_self, if_pos rfl]
    · rw [update_of_ne hj, if_neg hj]
  unfold exitEntry closedFds
  rw [hclosed]
  dsimp only
  rw [hadopted]
  unfold ProcState.setInfo ProcState.setProc
  dsimp only
  rw [hmarked]
  split <;> rfl

/-! ## §5. Every call. -/

/-- The calls, by their answers, that begin or end a life. -/
def Effective : Op → Ret → Prop
  | .create _ _, .int n => 0 ≤ n
  | .exit _ _, .int n => n = 0
  | .kill _ _, .int n => n = 0
  | .wait _ _, .status st => st.isSome
  | _, _ => False

/-- The process a call allocates for. -/
def recipient : Op → ℤ
  | .alloc pid _ => pid
  | .attachImage pid _ _ => pid
  | _ => 0

/-- The calls on descriptors. -/
def Op.OnFiles : Op → Prop
  | .open _ _ _ | .read _ _ _ _ | .write _ _ _ | .lseek _ _ _ _ | .close _ _ | .dup _ _
  | .dup2 _ _ _ => True
  | _ => False

/-- The call of the VFS a call makes with the arguments it was given. -/
def Op.fileCall (s : ProcState) : Op → Option Vfs.Op
  | .open _ path flags => some (.open path flags)
  | .read pid fd buf len => some (.read (realFd s (findProc s pid) fd) buf len)
  | .write pid fd buf => some (.write (realFd s (findProc s pid) fd) buf)
  | .lseek pid fd offset whence => some (.lseek (realFd s (findProc s pid) fd) offset whence)
  | _ => none

/-- **What a call with a given answer can do.** -/
inductive Effect (env : Env) (s : ProcState) : Op → Ret → ProcState → Prop
  | same {op : Op} {r : Ret} (hr : ¬Effective op r) : Effect env s op r s
  /-- `proc_create` gave up after it had chosen a slot. -/
  | cleared {name : Str} {parentPid : ℤ} {i : ProcSlot} (hi : freeProc s = some i)
      (hctx : (memctxCreate s.memctx s.nextPid 0).1 < 0) :
      Effect env s (.create name parentPid) (.int procErrNomem) (enrolled s i ProcEntry.zero)
  | created {name : Str} {parentPid : ℤ} {i : ProcSlot} (hi : freeProc s = some i)
      (haccept : Accepts s parentPid) (hctx : 0 ≤ (memctxCreate s.memctx s.nextPid 0).1) :
      Effect env s (.create name parentPid) (.int s.nextPid) (enrolled s i
        (newEntry s.nextPid parentPid (memctxCreate s.memctx s.nextPid 0).1 name))
  | focused {pid : ℤ} {i : ProcSlot} (hi : findProc s pid = some i)
      (hlive : procIsTerminalState (s.procs i).info.state = false) :
      Effect env s (.setCurrent pid) (.int 0) (focused s i pid)
  | ended {op : Op} {pid status : ℤ} {i : ProcSlot}
      (hop : op = .exit pid status ∨ op = .kill pid status) (hi : findProc s pid = some i)
      (hlive : procIsTerminalState (s.procs i).info.state = false) (hinit : pid ≠ 1) :
      Effect env s op (.int 0) (exitEntry s i pid status)
  | reaped {parentPid childPid : ℤ} {i : ProcSlot} {ok : Bool} {m : MemctxState}
      (hi : findProc s childPid = some i) (hparent : (s.procs i).info.parentPid = parentPid)
      (hstate : (s.procs i).info.state = .exited)
      (hm : memctxDestroy s.memctx (s.procs i).info.memctx = some (ok, m)) :
      Effect env s (.wait parentPid childPid) (.status (some (s.procs i).info.exitStatus))
        ({ s with memctx := m }.setProc i ProcEntry.zero)
  | charged {op : Op} {r : Ret} {i : ProcSlot} {size : ℕ} {s' : ProcState} (hr : ¬Effective op r)
      (hi : findProc s (recipient op) = some i)
      (h : OnlyMemory s (memctxAlloc env.heap s.memctx (s.procs i).info.memctx size).2 s') :
      Effect env s op r s'
  | credited {pid : ℤ} {ptr : ℕ} {r : Ret} {i : ProcSlot} {ok : Bool} {m : MemctxState}
      {s' : ProcState} (hi : findProc s pid = some i)
      (hm : memctxFree s.memctx (s.procs i).info.memctx ptr = some (ok, m)) (h : OnlyMemory s m s') :
      Effect env s (.free pid ptr) r s'
  | files {op : Op} {r : Ret} {s' : ProcState} (hop : op.OnFiles) (hr : ¬Effective op r)
      (h : OnlyFiles s s') : Effect env s op r s'

section Calls

variable {env : Env} {s s' : ProcState}

theorem procCreate_effect (env : Env) (s : ProcState) (name : Str) (parentPid : ℤ) :
    Effect env s (.create name parentPid) (.int (procCreate s name parentPid).1)
      (procCreate s name parentPid).2 := by
  rcases procCreate_cases s name parentPid with
    ⟨r, hr, heq, -⟩ | ⟨i, hfree, haccept, ⟨hctx, heq⟩ | ⟨hctx, heq⟩⟩
  · rw [heq]
    exact .same (not_le.mpr hr)
  · rw [heq]
    exact .cleared hfree hctx
  · rw [heq]
    exact .created hfree haccept hctx

theorem procSetCurrent_effect (env : Env) (s : ProcState) (pid : ℤ) :
    Effect env s (.setCurrent pid) (.int (procSetCurrent s pid).1) (procSetCurrent s pid).2 := by
  rcases procSetCurrent_cases s pid with ⟨-, heq⟩ | ⟨i, hi, hlive, heq⟩
  · rw [heq]
    exact .same id
  · rw [heq]
    exact .focused hi hlive

theorem ExitOutcome.effect {op : Op} {pid status r : ℤ} (h : ExitOutcome s pid status r s')
    (hop : op = .exit pid status ∨ op = .kill pid status) : Effect env s op (.int r) s' := by
  cases h with
  | refused hr =>
    refine .same ?_
    rcases hop with rfl | rfl
    · exact hr.ne
    · exact hr.ne
  | ended hi hlive hinit => exact .ended hop hi hlive hinit

/-- **The calls on descriptors** reach the files through calls of the VFS: their own, and
`vfs_close`. -/
theorem exec_filesBy {R : VfsState → VfsState → Prop} {op : Op} {r : Ret}
    (h : exec env s op = .ok (r, s')) (hop : op.OnFiles) (hclose : ∀ v b, R v (vfsClose v b).2)
    (hcall : ∀ c ∈ op.fileCall s, ∀ a v, Vfs.exec env.files s.vfs c = .ok (a, v) → R s.vfs v) :
    FilesBy R s s' := by
  cases op with
  | «open» pid path flags =>
    obtain ⟨_, hopen, heq⟩ := map_ok.mp h
    cases heq
    exact procOpen_filesBy hclose hopen fun _ v hv => hcall _ rfl _ v (map_ok.mpr ⟨_, hv, rfl⟩)
  | read pid fd buf len =>
    obtain ⟨_, hread, heq⟩ := map_ok.mp h
    cases heq
    exact onVfs_filesBy hread fun v hv => hcall _ rfl _ v (map_ok.mpr ⟨_, hv, rfl⟩)
  | write pid fd buf =>
    obtain ⟨_, hwrite, heq⟩ := map_ok.mp h
    cases heq
    exact onVfs_filesBy hwrite fun v hv => hcall _ rfl _ v (map_ok.mpr ⟨_, hv, rfl⟩)
  | lseek pid fd offset whence =>
    cases h
    exact filesBy_vfs (hcall _ rfl _ _ rfl)
  | close pid fd =>
    cases h
    exact procClose_filesBy hclose s pid fd
  | dup pid oldfd =>
    cases h
    exact procDup_filesBy s pid oldfd
  | dup2 pid oldfd newfd =>
    cases h
    exact procDup2_filesBy hclose s pid oldfd newfd
  | _ => cases hop

/-- **Every call that returns** has one of these effects. -/
theorem exec_effect {op : Op} {r : Ret} (h : exec env s op = .ok (r, s')) :
    Effect env s op r s' := by
  cases op with
  | create name parentPid =>
    cases h
    exact procCreate_effect env s name parentPid
  | attachImage pid path image =>
    cases h
    rcases procAttachImage_memory env s pid path image with heq | ⟨i, hi, hmem⟩
    · exact Eq.subst (motive := Effect env s _ _) heq.symm (.same id)
    · exact .charged id hi hmem
  | setCurrent pid =>
    cases h
    exact procSetCurrent_effect env s pid
  | exit pid status =>
    obtain ⟨⟨a, s₁⟩, hexit, heq⟩ := map_ok.mp h
    cases heq
    exact (procExitLocked_cases hexit).effect (.inl rfl)
  | kill pid status =>
    obtain ⟨⟨a, s₁⟩, hkill, heq⟩ := map_ok.mp h
    cases heq
    exact (procKill_cases hkill).effect (.inr rfl)
  | wait parentPid childPid =>
    obtain ⟨⟨a, s₁⟩, hwait, heq⟩ := map_ok.mp h
    cases heq
    rcases procWait_cases hwait with ⟨rfl, rfl⟩ | ⟨i, ok, m, hi, hparent, hstate, hm, rfl, rfl⟩
    · exact .same (by simp [Effective])
    · exact .reaped hi hparent hstate hm
  | alloc pid size =>
    cases h
    rcases procAlloc_memory env s pid size with heq | ⟨i, hi, hmem⟩
    · exact Eq.subst (motive := Effect env s _ _) heq.symm (.same id)
    · exact .charged id hi hmem
  | free pid ptr =>
    obtain ⟨⟨a, s₁⟩, hfree, heq⟩ := map_ok.mp h
    cases heq
    rcases procFree_memory hfree with rfl | ⟨i, ok, m, hi, hm, hmem⟩
    · exact .same id
    · exact .credited hi hm hmem
  | «open» | read | write | lseek | close | dup | dup2 =>
    obtain ⟨fds, v, -, heq⟩ := exec_filesBy (R := fun _ _ => True) h trivial
      (fun _ _ => trivial) fun _ _ _ _ _ => trivial
    exact .files trivial id ⟨fds, v, heq⟩

end Calls

end ExoCore.Proc
