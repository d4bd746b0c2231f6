/-
  ExoCore.Proc.FdTable — descriptors and open files as a STATE MACHINE of their own.

  `FdTable` keeps of the kernel state the descriptors of every process and the node
  behind every open slot.  `DStep` are the six things a step of the kernel can do to it
  (`step_fd`).  One of them closes a slot that another descriptor of the same process may
  still name; it carries the condition under which none does.
-/
import ExoCore.Proc.Current

namespace ExoCore.Proc

open ExoCore.Lib ExoCore.Vfs Function

/-! ## §1. The abstract tables. -/

/-- A process and its descriptors. -/
@[ext]
structure FdRow where
  used : Bool
  pid : ℤ
  terminal : Bool
  fds : Fd → ℤ

def FdRow.zero : FdRow := ⟨false, 0, false, fun _ => 0⟩

/-- The descriptors of all processes, and the node behind each open slot. -/
@[ext]
structure FdTable where
  rows : ProcSlot → FdRow
  files : Slot → Option NodeId

def ProcEntry.fdRow (e : ProcEntry) : FdRow :=
  ⟨e.used, e.info.pid, procIsTerminalState e.info.state, e.fds⟩

/-- The node of a slot, if it is open. -/
def fileOf (o : VfsOpen) : Option NodeId := if o.used then some o.node else none

/-- The abstraction function. -/
def ProcState.fdTable (s : ProcState) : FdTable :=
  { rows := fun i => (s.procs i).fdRow
    files := fun k => fileOf (s.vfs.openFiles k) }

/-- `files` after `vfs_close(b)`. -/
def closeFile (files : Slot → Option NodeId) (b : ℤ) (k : Slot) : Option NodeId :=
  if (k.val : ℤ) = b then none else files k

/-- A row with one descriptor changed. -/
def FdRow.setFd (r : FdRow) (k : Fd) (b : ℤ) : FdRow := { r with fds := update r.fds k b }

/-- A row after `proc_exit_locked`. -/
def FdRow.exited (r : FdRow) : FdRow :=
  { r with terminal := true, fds := fun k => if 0 ≤ r.fds k then -1 else r.fds k }

/-- No other descriptor of the row names the slot of descriptor `k`. -/
def FdRow.Alone (r : FdRow) (k : Fd) : Prop := ∀ k', k' ≠ k → r.fds k' ≠ r.fds k

/-- What a step made for process `pid` can do; the proposition is what the step should
have made sure of first. -/
inductive DStep (pid : ℤ) (t : FdTable) : Prop → FdTable → Prop
  | same : DStep pid t True t
  /-- `proc_create`. -/
  | create {i : ProcSlot} (hfree : (t.rows i).used = false) (p : ℤ) :
      DStep pid t True { t with rows := update t.rows i ⟨true, p, false, fun _ => -1⟩ }
  /-- A slot of the table is cleared, unused or with a process that has ended. -/
  | clear {i : ProcSlot} (h : (t.rows i).used = false ∨ (t.rows i).terminal = true) :
      DStep pid t True { t with rows := update t.rows i FdRow.zero }
  /-- `proc_open`. -/
  | open {i : ProcSlot} {k : Fd} {slot : Slot} {n : NodeId} (hused : (t.rows i).used = true)
      (hpid : (t.rows i).pid = pid) (hlive : (t.rows i).terminal = false)
      (hk : (t.rows i).fds k < 0) (hslot : t.files slot = none) :
      DStep pid t True
        { rows := update t.rows i ((t.rows i).setFd k (slot.val : ℤ))
          files := update t.files slot (some n) }
  /-- `proc_close`, `proc_dup` and `proc_dup2`: descriptor `k` gets no file or that of
  another descriptor, and the file it named is closed, unless it is the same. -/
  | put {i : ProcSlot} {k : Fd} {b : ℤ} {files : Slot → Option NodeId}
      (hused : (t.rows i).used = true) (hpid : (t.rows i).pid = pid)
      (hb : b = -1 ∨ ∃ k₀, 0 ≤ (t.rows i).fds k₀ ∧ b = (t.rows i).fds k₀)
      (hfiles : ∀ slot : Slot, files slot =
        if (slot.val : ℤ) = (t.rows i).fds k ∧ (t.rows i).fds k ≠ b then none else t.files slot) :
      DStep pid t ((t.rows i).fds k ≠ b → 0 ≤ (t.rows i).fds k → (t.rows i).Alone k)
        { rows := update t.rows i ((t.rows i).setFd k b), files := files }
  /-- `proc_exit_locked`. -/
  | exit {i : ProcSlot} {files : Slot → Option NodeId} (hused : (t.rows i).used = true)
      (hpid : (t.rows i).pid = pid) (hlive : (t.rows i).terminal = false)
      (hclosed : ∀ k, files k = if ∃ fd, (t.rows i).fds fd = (k.val : ℤ) then none else t.files k) :
      DStep pid t True { rows := update t.rows i (t.rows i).exited, files := files }

/-! ## §2. The calls. -/

section Refine

variable {s s' : ProcState}

theorem fdTable_setProc (s : ProcState) (i : ProcSlot) (e : ProcEntry) :
    (s.setProc i e).fdTable =
      { s.fdTable with rows := update s.fdTable.rows i e.fdRow } :=
  FdTable.ext (comp_update ProcEntry.fdRow s.procs i e) rfl

theorem fdTable_setFd (s : ProcState) (i : ProcSlot) (fd : Fd) (b : ℤ) :
    (s.setFd i fd b).fdTable =
      { s.fdTable with rows := update s.fdTable.rows i ((s.fdTable.rows i).setFd fd b) } :=
  fdTable_setProc s i _

theorem fileOf_unused {o : VfsOpen} (h : o.used = false) : fileOf o = none := by
  unfold fileOf
  rw [h]
  rfl

/-- Only the VFS changed, and no slot of it. -/
theorem fdTable_vfs {v : VfsState} (h : SlotsSame s.vfs v) :
    ({ s with vfs := v } : ProcState).fdTable = s.fdTable := by
  refine FdTable.ext rfl (funext fun k => ?_)
  show fileOf (v.openFiles k) = fileOf (s.vfs.openFiles k)
  rw [fileOf, (h k).1, (h k).2, fileOf]

theorem fdTable_close (s : ProcState) (b : ℤ) :
    (closeBacking s b).fdTable = { s.fdTable with files := closeFile s.fdTable.files b } := by
  refine FdTable.ext rfl (funext fun k => ?_)
  show fileOf ((vfsClose s.vfs b).2.openFiles k) = closeFile s.fdTable.files b k
  obtain ⟨hclosed, hkept⟩ := vfsClose_slots s.vfs b k
  unfold closeFile
  by_cases hk : (k.val : ℤ) = b
  · rw [if_pos hk, fileOf_unused (hclosed hk)]
  · rw [if_neg hk, hkept hk]
    rfl

/-- Memory, and what is recorded of an image. -/
theorem OnlyMemory.fdTable {m : MemctxState} (h : OnlyMemory s m s') : s'.fdTable = s.fdTable := by
  obtain ⟨infos, howner, rfl⟩ := h
  refine FdTable.ext (funext fun j => ?_) rfl
  show FdRow.mk _ (infos j).pid (procIsTerminalState (infos j).state) _ = _
  rw [(howner j).pid, (howner j).state]
  rfl

variable {i : ProcSlot} {fd pid : ℤ} {k : Fd}

theorem focused_fdTable (pid : ℤ)
    (hlive : procIsTerminalState (s.procs i).info.state = false) :
    (focused s i pid).fdTable = s.fdTable := by
  rw [focused_eq]
  refine FdTable.ext (funext fun j => FdRow.ext rfl rfl ?_ rfl) rfl
  show procIsTerminalState (update (parkedState s) i .running j) = _
  by_cases hj : j = i
  · subst hj
    rw [update_self]
    exact hlive.symm
  · rw [update_of_ne hj]
    exact parkedState_terminal s j

theorem resume_fdTable (pid previous : ℤ) : (resume s pid previous).fdTable = s.fdTable := by
  unfold resume
  split
  · rcases procSetCurrent_cases s previous with ⟨-, heq⟩ | ⟨i, -, hlive, heq⟩
    · rw [heq]
    · rw [heq]
      exact focused_fdTable previous hlive
  split <;> rfl

/-- One turn of the loop of `proc_exit_locked`. -/
def FdTable.closeFd (i : ProcSlot) (t : FdTable) (fd : Fd) : FdTable :=
  if 0 ≤ (t.rows i).fds fd then
    { rows := update t.rows i ((t.rows i).setFd fd (-1))
      files := closeFile t.files ((t.rows i).fds fd) }
  else t

theorem closeFd_fdTable (i : ProcSlot) (s : ProcState) (fd : Fd) :
    (closeFd i s fd).fdTable = s.fdTable.closeFd i fd := by
  unfold closeFd FdTable.closeFd
  by_cases h : 0 ≤ (s.procs i).fds fd
  · rw [if_pos h, if_pos (show 0 ≤ (s.fdTable.rows i).fds fd from h), fdTable_setFd]
    exact congrArg (fun t : FdTable =>
      { t with rows := update t.rows i ((t.rows i).setFd fd (-1)) })
      (fdTable_close s ((s.procs i).fds fd))
  · rw [if_neg h, if_neg (show ¬0 ≤ (s.fdTable.rows i).fds fd from h)]

/-- The descriptors `l` of slot `i` are closed. -/
def FdTable.closeFds (i : ProcSlot) (t : FdTable) (l : List Fd) : FdTable where
  rows := update t.rows i { t.rows i with
    fds := fun k => if k ∈ l ∧ 0 ≤ (t.rows i).fds k then -1 else (t.rows i).fds k }
  files := fun k => if ∃ fd ∈ l, (t.rows i).fds fd = (k.val : ℤ) then none else t.files k

theorem closeFds_cons (i : ProcSlot) (t : FdTable) (fd : Fd) (l : List Fd) :
    (t.closeFd i fd).closeFds i l = t.closeFds i (fd :: l) := by
  unfold FdTable.closeFd
  by_cases h : 0 ≤ (t.rows i).fds fd
  · rw [if_pos h]
    refine FdTable.ext ?_ (funext fun k => ?_)
    · simp only [FdTable.closeFds, update_idem, update_self]
      congr 1
      refine FdRow.ext rfl rfl rfl (funext fun k => ?_)
      by_cases hk : k = fd <;> simp [FdRow.setFd, hk, h]
    · -- a later descriptor still has the value it had before the first turn
      simp only [FdTable.closeFds, update_self, FdRow.setFd, closeFile]
      by_cases hfd : (t.rows i).fds fd = (k.val : ℤ)
      · simp [hfd]
      · have hsame : ∀ fd', update (t.rows i).fds fd (-1) fd' = (k.val : ℤ) ↔
            (t.rows i).fds fd' = (k.val : ℤ) := by
          intro fd'
          by_cases he : fd' = fd
          · subst he
            simp [hfd]
          · rw [update_of_ne he]
        simp [hsame, hfd, Ne.symm hfd]
  · rw [if_neg h]
    refine FdTable.ext (congrArg (update t.rows i) (FdRow.ext rfl rfl rfl (funext fun k => ?_)))
      (funext fun k => ?_)
    · by_cases hk : k = fd <;> simp [hk, h]
    · have hfd : (t.rows i).fds fd ≠ (k.val : ℤ) := by omega
      simp [FdTable.closeFds, hfd]

theorem closeFds_fdTable (i : ProcSlot) (l : List Fd) (s : ProcState) :
    (l.foldl (closeFd i) s).fdTable = s.fdTable.closeFds i l := by
  induction l generalizing s with
  | nil => simp [FdTable.closeFds]
  | cons fd l ih => rw [List.foldl_cons, ih, closeFd_fdTable, closeFds_cons]

theorem exitEntry_fd (status : ℤ) (hi : findProc s pid = some i)
    (hlive : procIsTerminalState (s.procs i).info.state = false) :
    DStep pid s.fdTable True (exitEntry s i pid status).fdTable := by
  have hclosed : (closedFds s i).fdTable = _ := closeFds_fdTable i (List.finRange 16) s
  have htable : (exitEntry s i pid status).fdTable =
      { rows := update s.fdTable.rows i (s.fdTable.rows i).exited
        files := (closedFds s i).fdTable.files } := by
    rw [exitEntry_eq]
    refine FdTable.ext (funext fun j => ?_) rfl
    show FdRow.mk (s.procs j).used (endedInfo s i pid status j).pid
      (procIsTerminalState (endedInfo s i pid status j).state) ((closedFds s i).procs j).fds =
      update s.fdTable.rows i _ j
    rw [(endedInfo_owner s i pid status j).1]
    unfold endedInfo
    have hfds := congrArg FdRow.fds (congrFun (congrArg FdTable.rows hclosed) j)
    by_cases hj : j = i
    · subst hj
      rw [update_self, if_pos rfl]
      refine FdRow.ext rfl rfl rfl (hfds.trans ?_)
      simp [FdTable.closeFds, FdRow.exited]
    · rw [update_of_ne hj, if_neg hj, (adoptedInfo_fields s pid j).2.1]
      refine FdRow.ext rfl rfl rfl (hfds.trans ?_)
      simp only [FdTable.closeFds, update_of_ne hj]
  rw [htable]
  refine DStep.exit (findProc_some hi).1 (findProc_some hi).2 hlive fun k => ?_
  rw [hclosed]
  simp [FdTable.closeFds]

theorem startLeave_fd {previous : ℤ} (h : startLeave s pid previous = .ok s') :
    DStep pid s.fdTable True s'.fdTable := by
  obtain ⟨s₁, hexit, heq⟩ := map_ok.mp h
  rw [← heq, resume_fdTable]
  rcases exitIfLive_cases hexit with ⟨-, rfl⟩ | ⟨i, hi, hlive, -, rfl⟩
  · exact .same
  · exact exitEntry_fd 0 hi hlive

theorem procOpen_fd {env : Env} {r : ℤ} {path : Str} {flags : ℕ}
    (h : procOpen env s pid path flags = .ok (r, s')) : DStep pid s.fdTable True s'.fdTable := by
  rcases procOpen_cases h with ⟨-, -, rfl⟩ | ⟨i, hi, hlive, ⟨v, hv, -, rfl⟩ | ⟨slot, v, hv, hinst⟩⟩
  · exact .same
  · rw [fdTable_vfs (.of_eq ((vfsOpen_slots hv).1 rfl))]
    exact .same
  obtain ⟨hunused, hused, hother⟩ := (vfsOpen_slots hv).2 slot rfl
  obtain ⟨hiused, hipid⟩ := findProc_some hi
  have hfree : s.fdTable.files slot = none := fileOf_unused hunused
  unfold installFd at hinst
  split at hinst
  · rename_i fd hfd
    have hs' : s' = ({ s with vfs := v } : ProcState).setFd i fd ((slot : ℕ) : ℤ) :=
      congrArg Prod.snd hinst
    have hneg : (s.procs i).fds fd < 0 := freeFd_some hfd
    have hstep := DStep.open (n := (v.openFiles slot).node) hiused hipid hlive hneg hfree
    rw [hs', fdTable_setFd]
    convert hstep using 1
    refine FdTable.ext rfl (funext fun k => ?_)
    show fileOf (v.openFiles k) = update s.fdTable.files slot _ k
    by_cases hk : k = slot
    · subst hk
      rw [update_self, fileOf, if_pos hused]
    · rw [update_of_ne hk, hother k hk]
      rfl
  · have hs' : s' = closeBacking { s with vfs := v } ((slot : ℕ) : ℤ) := congrArg Prod.snd hinst
    have hsame : s'.fdTable = s.fdTable := by
      rw [hs', fdTable_close]
      refine FdTable.ext rfl (funext fun k => ?_)
      show (if (k.val : ℤ) = ((slot : ℕ) : ℤ) then none else fileOf (v.openFiles k)) = _
      by_cases hk : k = slot
      · subst hk
        rw [if_pos rfl, hfree]
      · rw [if_neg (fun he => hk (Fin.ext (by omega))), hother k hk]
        rfl
    rw [hsame]
    exact .same

/-! Calls that name descriptors by number. -/

/-- A descriptor number that is in range. -/
theorem fdAt_nonneg (h : 0 ≤ fdAt s i fd) :
    ∃ k : Fd, (k.val : ℤ) = fd ∧ fdAt s i fd = (s.procs i).fds k := by
  unfold fdAt at h ⊢
  split at h
  · rename_i hfd
    refine ⟨⟨fd.toNat, by omega⟩, ?_, ?_⟩
    · show ((fd.toNat : ℕ) : ℤ) = fd
      omega
    · rw [dif_pos hfd]
  · omega

theorem putFd_eq (h : (k.val : ℤ) = fd) (b : ℤ) :
    putFd s i fd b = s.setFd i k b := by
  have hlt := k.isLt
  unfold putFd
  rw [dif_pos (by omega)]
  congr 1
  exact Fin.ext (by show fd.toNat = k.val; omega)

theorem fdAt_eq (h : (k.val : ℤ) = fd) :
    fdAt s i fd = (s.procs i).fds k := by
  have hlt := k.isLt
  unfold fdAt
  rw [dif_pos (by omega)]
  congr 1
  exact Fin.ext (by show fd.toNat = k.val; omega)

/-- No descriptor of process `pid` other than `fd` names the slot that `fd` names. -/
def SoleHolder (s : ProcState) (pid fd : ℤ) : Prop :=
  ∀ i, findProc s pid = some i → 0 ≤ fdAt s i fd → ∀ k : Fd, (k.val : ℤ) ≠ fd →
    (s.procs i).fds k ≠ fdAt s i fd

theorem soleHolder_iff (hi : findProc s pid = some i) (hk : (k.val : ℤ) = fd) :
    SoleHolder s pid fd ↔ (0 ≤ (s.procs i).fds k → (s.fdTable.rows i).Alone k) := by
  unfold SoleHolder FdRow.Alone
  constructor
  · intro h h0 k' hk'
    have h1 := h i hi (by rw [fdAt_eq hk]; exact h0) k' (fun he => hk' (Fin.ext (by omega)))
    rw [fdAt_eq hk] at h1
    exact h1
  · intro h j hj h0 k' hk'
    cases hi.symm.trans hj
    rw [fdAt_eq hk] at h0 ⊢
    exact h h0 k' (fun he => hk' (by rw [he, hk]))

theorem procClose_fd (s : ProcState) (pid fd : ℤ) :
    ∃ ok, DStep pid s.fdTable ok (procClose s pid fd).2.fdTable ∧ (ok ↔ SoleHolder s pid fd) := by
  unfold procClose
  split
  · rename_i hnone
    refine ⟨True, .same, iff_of_true trivial ?_⟩
    intro i hi
    rw [hnone] at hi
    cases hi
  rename_i i hi
  dsimp only
  split
  · rename_i hneg
    refine ⟨True, .same, iff_of_true trivial ?_⟩
    intro j hj h0
    cases hi.symm.trans hj
    omega
  rename_i hnn
  obtain ⟨k, hk, hval⟩ := fdAt_nonneg (not_lt.mp hnn)
  have hne : (s.procs i).fds k ≠ -1 := by omega
  obtain ⟨hused, hpid⟩ := findProc_some hi
  refine ⟨_, ?_, (imp_iff_right hne).trans (soleHolder_iff hi hk).symm⟩
  rw [fdTable_close, putFd_eq hk, fdTable_setFd, hval]
  exact DStep.put hused hpid (.inl rfl) fun slot => by
    simp only [and_iff_left (show (s.fdTable.rows i).fds k ≠ -1 from hne)]
    rfl

theorem procDup_fd (s : ProcState) (pid oldfd : ℤ) :
    ∃ ok, DStep pid s.fdTable ok (procDup s pid oldfd).2.fdTable ∧ (ok ↔ True) := by
  unfold procDup
  split
  · exact ⟨_, .same, .rfl⟩
  rename_i i hi
  dsimp only
  split
  · exact ⟨_, .same, .rfl⟩
  rename_i hnn
  split
  · exact ⟨_, .same, .rfl⟩
  rename_i fd hfd
  obtain ⟨k₀, -, hval⟩ := fdAt_nonneg (not_lt.mp hnn)
  obtain ⟨hused, hpid⟩ := findProc_some hi
  have hneg : (s.fdTable.rows i).fds fd < 0 := freeFd_some hfd
  rw [fdTable_setFd, hval]
  refine ⟨_, .put hused hpid (.inr ⟨k₀, ?_, rfl⟩) fun slot => (if_neg fun h => ?_).symm,
    iff_true_intro fun _ h0 => absurd h0 (not_le.mpr hneg)⟩
  · show 0 ≤ (s.procs i).fds k₀
    omega
  · omega

/-- The close inside `proc_dup2` happens for a descriptor of another file only. -/
def Dup2Ok (s : ProcState) (pid oldfd newfd : ℤ) : Prop :=
  ∀ i, findProc s pid = some i → 0 ≤ fdAt s i oldfd → fdAt s i newfd ≠ fdAt s i oldfd →
    SoleHolder s pid newfd

theorem procDup2_fd (s : ProcState) (pid oldfd newfd : ℤ) :
    ∃ ok, DStep pid s.fdTable ok (procDup2 s pid oldfd newfd).2.fdTable ∧
      (ok ↔ Dup2Ok s pid oldfd newfd) := by
  unfold procDup2
  split
  · rename_i hnone
    refine ⟨True, .same, iff_of_true trivial ?_⟩
    intro i hi
    rw [hnone] at hi
    cases hi
  rename_i i hi
  have huniq : ∀ {j}, findProc s pid = some j → j = i := by
    intro j hj
    cases hi.symm.trans hj
    rfl
  dsimp only
  split
  · rename_i hbad
    refine ⟨True, .same, iff_of_true trivial ?_⟩
    intro j hj hold _ j' hj' h0
    cases huniq hj
    cases huniq hj'
    obtain ⟨k, hk, -⟩ := fdAt_nonneg h0
    have hlt := k.isLt
    omega
  rename_i hok
  have hnn : 0 ≤ fdAt s i oldfd := by omega
  obtain ⟨k₀, -, hval⟩ := fdAt_nonneg hnn
  have hk : ((⟨newfd.toNat, by omega⟩ : Fd).val : ℤ) = newfd := by
    show ((newfd.toNat : ℕ) : ℤ) = newfd
    omega
  generalize (⟨newfd.toNat, by omega⟩ : Fd) = k at hk
  have hnew : fdAt s i newfd = (s.procs i).fds k := fdAt_eq hk
  obtain ⟨hused, hpid⟩ := findProc_some hi
  have hiff : Dup2Ok s pid oldfd newfd ↔ ((s.procs i).fds k ≠ (s.procs i).fds k₀ →
      0 ≤ (s.procs i).fds k → (s.fdTable.rows i).Alone k) := by
    rw [← soleHolder_iff hi hk, ← hval, ← hnew]
    refine ⟨fun h => h i hi hnn, fun h j hj _ => ?_⟩
    cases huniq hj
    exact h
  have hb : (s.procs i).fds k₀ = -1 ∨ ∃ k', 0 ≤ (s.procs i).fds k' ∧
      (s.procs i).fds k₀ = (s.procs i).fds k' := .inr ⟨k₀, hval ▸ hnn, rfl⟩
  rw [hval, hnew]
  refine ⟨_, ?_, hiff.symm⟩
  split
  · rename_i hclose
    rw [putFd_eq hk, fdTable_setFd, fdTable_close]
    exact DStep.put hused hpid hb fun slot => by
      simp only [and_iff_left (show (s.fdTable.rows i).fds k ≠ _ from hclose.2)]
      rfl
  · rename_i hclose
    rw [putFd_eq hk, fdTable_setFd]
    refine DStep.put hused hpid hb fun slot => (if_neg fun h => hclose ⟨?_, h.2⟩).symm
    exact le_of_le_of_eq (Int.natCast_nonneg _) h.1

end Refine

/-! ## §3. The events. -/

/-- The process a call is made for. -/
def Op.actor : Op → ℤ
  | .create _ parentPid => parentPid
  | .attachImage pid _ _ => pid
  | .setCurrent pid => pid
  | .exit pid _ => pid
  | .kill pid _ => pid
  | .wait parentPid _ => parentPid
  | .alloc pid _ => pid
  | .free pid _ => pid
  | .open pid _ _ => pid
  | .read pid _ _ _ => pid
  | .write pid _ _ => pid
  | .lseek pid _ _ _ => pid
  | .close pid _ => pid
  | .dup pid _ => pid
  | .dup2 pid _ _ => pid

/-- The process an event belongs to: the return of a program to the program's. -/
def Event.actor (m : Machine) : Event → ℤ
  | .call op => op.actor
  | .spawn parentPid _ => parentPid
  | .enter pid => pid
  | .leave =>
    match m.frames with
    | [] => 0
    | (pid, _) :: _ => pid

/-- A slot is only closed through its last descriptor. -/
def CloseOk (s : ProcState) : Event → Prop
  | .call (.close pid fd) => SoleHolder s pid fd
  | .call (.dup2 pid oldfd newfd) => Dup2Ok s pid oldfd newfd
  | _ => True

/-- The calls that are not on descriptors. -/
theorem Effect.fd {env : Env} {s s' : ProcState} {op : Op} {r : Ret} (h : Effect env s op r s')
    (hop : ¬op.OnFiles) : DStep op.actor s.fdTable True s'.fdTable := by
  cases h with
  | same => exact .same
  | cleared hi =>
    refine Eq.subst (motive := DStep _ _ _) (fdTable_setProc _ _ ProcEntry.zero).symm ?_
    exact .clear (.inl (freeProc_some hi))
  | created hi =>
    refine Eq.subst (motive := DStep _ _ _) (fdTable_setProc _ _ _).symm ?_
    exact .create (freeProc_some hi) s.nextPid
  | focused _ hlive =>
    rw [focused_fdTable _ hlive]
    exact .same
  | ended hop' hi hlive =>
    rcases hop' with rfl | rfl
    · exact exitEntry_fd _ hi hlive
    · exact exitEntry_fd _ hi hlive
  | @reaped _ _ i _ _ hi _ hstate =>
    refine Eq.subst (motive := DStep _ _ _) (fdTable_setProc _ i ProcEntry.zero).symm ?_
    refine .clear (.inr ?_)
    show procIsTerminalState (s.procs i).info.state = true
    rw [hstate]
    rfl
  | charged _ _ h =>
    rw [h.fdTable]
    exact .same
  | credited _ _ h =>
    rw [h.fdTable]
    exact .same
  | files hfiles => exact absurd hfiles hop

/-- Between the creation and the start no descriptor changes: the slot for the file is open
for the time of the reading only. -/
theorem keeps_fdTable (env : SpawnEnv) (pid : ℤ) (t : FdTable) :
    Keeps env pid fun s => s.fdTable = t where
  alloc := by
    intro s size h
    rcases procAlloc_memory (env.at s) s pid size with heq | ⟨i, -, hmem⟩
    · rw [heq]
      exact h
    · exact hmem.fdTable.trans h
  free := by
    intro s s' ptr r h hfree
    rcases procFree_memory hfree with rfl | ⟨i, ok, m, -, -, hmem⟩
    · exact h
    · exact hmem.fdTable.trans h
  read := by
    intro s path size file v h hread
    rw [← h]
    rcases readVfsFile_state hread with rfl | ⟨k, hk, rfl⟩
    · rfl
    · refine FdTable.ext rfl (funext fun j => ?_)
      show fileOf (update s.vfs.openFiles k VfsOpen.zero j) = fileOf (s.vfs.openFiles j)
      by_cases hj : j = k
      · rw [hj, update_self, fileOf_unused hk]
        rfl
      · rw [update_of_ne hj]
  record := fun h _ hsame => (onlyMemory_setInfo hsame).fdTable.trans h

/-- **A spawn**: a process without descriptors, or a cleared slot. -/
theorem spawnPrepare_fd {env : SpawnEnv} {s s' : ProcState} {parentPid : ℤ} {path : Str}
    {p : Prepared} (ht : TableInv s.table) (h : spawnPrepare env s parentPid path = .ok (p, s')) :
    DStep parentPid s.fdTable True s'.fdTable := by
  rcases spawnPrepare_cases h with
    ⟨r, -, -, rfl⟩ | ⟨i, hi, -, -, -, ⟨-, -, rfl⟩ | ⟨-, -, -, rfl⟩ | ⟨size, hctx, -, hfile⟩⟩
  · exact .same
  · refine Eq.subst (motive := DStep _ _ _) (fdTable_setProc _ _ ProcEntry.zero).symm ?_
    exact .clear (.inl (freeProc_some hi))
  · refine Eq.subst (motive := DStep _ _ _) (fdTable_setProc _ _ _).symm ?_
    exact .create (freeProc_some hi) s.nextPid
  have hnew : (spawned s i parentPid path).fdTable =
      { s.fdTable with rows := update s.fdTable.rows i ⟨true, s.nextPid, false, fun _ => -1⟩ } :=
    fdTable_setProc _ _ _
  cases ((keeps_table env s.nextPid (spawned s i parentPid path).table).and
    (keeps_fdTable env s.nextPid (spawned s i parentPid path).fdTable)).spawnFile hfile
    ⟨rfl, rfl⟩ with
  | @unwound t _ _ hsame _ habandon =>
    obtain ⟨ok, m, -, rfl⟩ := abandon_spawned_table hi hctx ht hsame.1 habandon
    have hfds : ({ t with memctx := m } : ProcState).fdTable = _ := hsame.2.trans hnew
    rw [fdTable_setProc, hfds]
    dsimp only
    rw [update_idem]
    exact .clear (.inl (freeProc_some hi))
  | ready hsame _ =>
    rw [hsame.2, hnew]
    exact .create (freeProc_some hi) s.nextPid

/-- **Refinement**: every step is one of the six, and `CloseOk` is what it should have
made sure of. -/
theorem step_fd {m m' : Machine} {e : Event} (ht : TableInv m.state.table) (h : Step m e m') :
    ∃ ok, DStep (e.actor m) m.state.fdTable ok m'.state.fdTable ∧ (ok ↔ CloseOk m.state e) := by
  cases h with
  | enter h =>
    obtain ⟨i, -, hlive, rfl⟩ := startEnter_cases h
    refine ⟨True, ?_, Iff.rfl⟩
    rw [focused_fdTable _ hlive]
    exact .same
  | spawn h => exact ⟨True, spawnPrepare_fd ht h, Iff.rfl⟩
  | leave h => exact ⟨True, startLeave_fd h, Iff.rfl⟩
  | @call _ env op r s' h =>
    have hsame : ∀ {pid : ℤ}, s'.fdTable = m.state.fdTable →
        DStep pid m.state.fdTable True s'.fdTable := by
      intro pid he
      rw [he]
      exact .same
    cases op with
    | «open» pid path flags =>
      obtain ⟨⟨a, s₁⟩, hopen, heq⟩ := map_ok.mp h
      cases heq
      exact ⟨True, procOpen_fd hopen, Iff.rfl⟩
    | read pid fd buf len =>
      obtain ⟨⟨a, s₁⟩, hread, heq⟩ := map_ok.mp h
      cases heq
      obtain ⟨v, hv, rfl⟩ := onVfs_ok hread
      exact ⟨True, hsame (fdTable_vfs ((vfsRead_effect noMemory hv).slotsSame trivial)), Iff.rfl⟩
    | write pid fd buf =>
      obtain ⟨⟨a, s₁⟩, hwrite, heq⟩ := map_ok.mp h
      cases heq
      obtain ⟨v, hv, rfl⟩ := onVfs_ok hwrite
      exact ⟨True, hsame (fdTable_vfs ((vfsWrite_effect _ hv).slotsSame trivial)), Iff.rfl⟩
    | lseek pid fd offset whence =>
      cases h
      exact ⟨True, hsame (fdTable_vfs
        ((vfsLseek_effect noMemory m.state.vfs _ offset whence).slotsSame trivial)), Iff.rfl⟩
    | close pid fd =>
      cases h
      exact procClose_fd m.state pid fd
    | dup pid oldfd =>
      cases h
      exact procDup_fd m.state pid oldfd
    | dup2 pid oldfd newfd =>
      cases h
      exact procDup2_fd m.state pid oldfd newfd
    | _ => exact ⟨True, (exec_effect h).fd id, Iff.rfl⟩

end ExoCore.Proc
