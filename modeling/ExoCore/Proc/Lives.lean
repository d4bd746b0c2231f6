/-
  ExoCore.Proc.Lives — the LIVES of the processes.

  `Life` keeps of a slot who is in it, whose child it is, its state and its exit
  status.  `LifeStep` says, for a call AND ITS ANSWER, what can happen to the lives:
  a process is born, its state moves, it ends and its children go to process 1, or
  it is reaped.  Every call is one of them (`exec_life`), so that what is claimed of
  parents and of exit statuses is checked against these cases only.
-/
import ExoCore.Proc.Failed

namespace ExoCore.Proc

open ExoCore.Lib ExoCore.Vfs Function

/-! ## §1. The lives. -/

/-- What the table says about the life of a process. -/
structure Life where
  used : Bool
  pid : ℤ
  parentPid : ℤ
  state : ProcStatus
  exitStatus : ℤ
  deriving Repr, DecidableEq

def Life.zero : Life := ⟨false, 0, 0, .unused, 0⟩

/-- A process that can still run. -/
def Life.Live (l : Life) : Prop := l.used = true ∧ procIsTerminalState l.state = false

instance (l : Life) : Decidable l.Live := inferInstanceAs (Decidable (_ ∧ _))

abbrev Lives := ProcSlot → Life

def ProcEntry.life (e : ProcEntry) : Life :=
  ⟨e.used, e.info.pid, e.info.parentPid, e.info.state, e.info.exitStatus⟩

/-- The abstraction function. -/
def ProcState.lives (s : ProcState) : Lives := fun i => (s.procs i).life

/-- The lives after the process in slot `i` has ended: its children go to process 1. -/
def Lives.buried (l : Lives) (i : ProcSlot) (pid status : ℤ) : Lives := fun j =>
  let x := if (l j).used ∧ (l j).parentPid = pid then { l j with parentPid := 1 } else l j
  if j = i then { x with exitStatus := status, state := .exited } else x

section Buried

variable (l : Lives) (i j : ProcSlot) (pid status : ℤ)

@[simp] theorem buried_used : (l.buried i pid status j).used = (l j).used := by
  unfold Lives.buried
  split_ifs <;> rfl

@[simp] theorem buried_pid : (l.buried i pid status j).pid = (l j).pid := by
  unfold Lives.buried
  split_ifs <;> rfl

theorem buried_parentPid : (l.buried i pid status j).parentPid =
    if (l j).used ∧ (l j).parentPid = pid then 1 else (l j).parentPid := by
  unfold Lives.buried
  split_ifs <;> rfl

theorem buried_self : (l.buried i pid status i).state = .exited ∧
    (l.buried i pid status i).exitStatus = status := by
  unfold Lives.buried
  rw [if_pos rfl]
  exact ⟨rfl, rfl⟩

variable {i j} in
theorem buried_other (h : j ≠ i) : (l.buried i pid status j).state = (l j).state ∧
    (l.buried i pid status j).exitStatus = (l j).exitStatus := by
  unfold Lives.buried
  rw [if_neg h]
  split_ifs <;> exact ⟨rfl, rfl⟩

end Buried

/-- States moved, of processes that can run and still can. -/
structure OnlyStates (l l' : Lives) : Prop where
  rest : ∀ j, l' j = { l j with state := (l' j).state }
  live : ∀ j, (l' j).state ≠ (l j).state →
    (l j).Live ∧ procIsTerminalState (l' j).state = false

section OnlyStates

variable {l l' : Lives} (h : OnlyStates l l') (j : ProcSlot)
include h

theorem OnlyStates.used : (l' j).used = (l j).used := by rw [h.rest j]

theorem OnlyStates.pid : (l' j).pid = (l j).pid := by rw [h.rest j]

theorem OnlyStates.parentPid : (l' j).parentPid = (l j).parentPid := by rw [h.rest j]

theorem OnlyStates.live_iff : (l' j).Live ↔ (l j).Live := by
  by_cases hst : (l' j).state = (l j).state
  · unfold Life.Live
    rw [h.used, hst]
  · obtain ⟨hold, hnew⟩ := h.live j hst
    exact ⟨fun _ => hold, fun _ => ⟨(h.used j).trans hold.1, hnew⟩⟩

end OnlyStates

/-- **What a call with a given answer can do to the lives.** -/
inductive LifeStep (l : Lives) (nextPid : ℤ) : Op → Ret → Lives → Prop
  | quiet {op : Op} {r : Ret} (h : ¬ Effective op r) : LifeStep l nextPid op r l
  /-- `proc_create` gave up after it had chosen a slot. -/
  | cleared {name : Str} {parentPid r : ℤ} {i : ProcSlot} (hfree : (l i).used = false) (hr : r < 0) :
      LifeStep l nextPid (.create name parentPid) (.int r) (update l i Life.zero)
  | born {name : Str} {parentPid : ℤ} {i : ProcSlot} (hfree : (l i).used = false)
      (hparent : (parentPid = 0 ∧ nextPid = 1) ∨ ∃ j, (l j).used = true ∧ (l j).pid = parentPid) :
      LifeStep l nextPid (.create name parentPid) (.int nextPid)
        (update l i ⟨true, nextPid, parentPid, .ready, 0⟩)
  | moved {pid r : ℤ} {l' : Lives} (h : OnlyStates l l') :
      LifeStep l nextPid (.setCurrent pid) (.int r) l'
  | buried {op : Op} {pid status : ℤ} {i : ProcSlot}
      (hop : op = .exit pid status ∨ op = .kill pid status) (hlive : (l i).Live)
      (hpid : (l i).pid = pid) (hinit : pid ≠ 1) :
      LifeStep l nextPid op (.int 0) (l.buried i pid status)
  | reaped {parentPid childPid : ℤ} {i : ProcSlot} (hused : (l i).used = true)
      (hpid : (l i).pid = childPid) (hparent : (l i).parentPid = parentPid)
      (hstate : (l i).state = .exited) :
      LifeStep l nextPid (.wait parentPid childPid) (.status (some (l i).exitStatus))
        (update l i Life.zero)

/-! ## §2. Every call is one of them. -/

section Refine

variable {s s' : ProcState}

theorem lives_setProc (s : ProcState) (i : ProcSlot) (e : ProcEntry) :
    (s.setProc i e).lives = update s.lives i e.life :=
  comp_update ProcEntry.life s.procs i e

theorem findProc_life {pid : ℤ} {i : ProcSlot} (h : findProc s pid = some i) :
    (s.lives i).used = true ∧ (s.lives i).pid = pid :=
  findProc_some h

theorem OnlyStates.refl (l : Lives) : OnlyStates l l :=
  ⟨fun _ => rfl, fun _ h => absurd rfl h⟩

theorem focused_lives {pid : ℤ} {i : ProcSlot} (hi : findProc s pid = some i)
    (hlive : procIsTerminalState (s.procs i).info.state = false) :
    OnlyStates s.lives (focused s i pid).lives := by
  rw [focused_eq]
  refine ⟨fun _ => rfl, fun j hj => ?_⟩
  have hj : update (parkedState s) i .running j ≠ (s.procs j).info.state := hj
  show (s.lives j).Live ∧ procIsTerminalState (update (parkedState s) i .running j) = false
  by_cases hji : j = i
  · subst hji
    rw [update_self]
    exact ⟨⟨(findProc_life hi).1, hlive⟩, rfl⟩
  · rw [update_of_ne hji] at hj ⊢
    have hin : InCharge s j := by
      by_contra hno
      exact hj (if_neg hno)
    have hrun : procIsTerminalState (s.procs j).info.state = false := by
      rw [hin.2.2]
      rfl
    exact ⟨⟨(findProc_life hin.2.1).1, hrun⟩, (parkedState_terminal s j).trans hrun⟩

theorem exitEntry_lives (s : ProcState) (i : ProcSlot) {pid : ℤ} (status : ℤ) (hpid : pid ≠ 1) :
    (exitEntry s i pid status).lives = s.lives.buried i pid status := by
  rw [exitEntry_eq]
  funext j
  have hadopted : Life.mk (s.procs j).used (adoptedInfo s pid j).pid (adoptedInfo s pid j).parentPid
      (adoptedInfo s pid j).state (adoptedInfo s pid j).exitStatus =
      if (s.lives j).used ∧ (s.lives j).parentPid = pid then { s.lives j with parentPid := 1 }
      else s.lives j := by
    unfold adoptedInfo
    by_cases hchild : (s.lives j).used ∧ (s.lives j).parentPid = pid
    · rw [if_pos hchild, if_pos ⟨hpid, hchild⟩]
      rfl
    · rw [if_neg hchild, if_neg fun h => hchild h.2]
      rfl
  unfold Lives.buried
  rw [← hadopted]
  show ProcEntry.life ⟨endedInfo s i pid status j, _, _⟩ = _
  unfold endedInfo
  split <;> rfl

theorem OnlyFiles.lives (h : OnlyFiles s s') : s'.lives = s.lives := by
  obtain ⟨fds, v, rfl⟩ := h
  rfl

theorem OnlyMemory.lives {m : MemctxState} (h : OnlyMemory s m s') : s'.lives = s.lives := by
  obtain ⟨infos, howner, rfl⟩ := h
  funext j
  show Life.mk _ (infos j).pid (infos j).parentPid (infos j).state (infos j).exitStatus = _
  rw [(howner j).pid, (howner j).parentPid, (howner j).state, (howner j).exitStatus]
  rfl

/-- **Refinement**: a call that returns is one step of the lives. -/
theorem exec_life {env : Env} {op : Op} {r : Ret} (h : exec env s op = .ok (r, s')) :
    LifeStep s.lives s.nextPid op r s'.lives := by
  cases exec_effect h with
  | same hr => exact .quiet hr
  | @cleared _ _ i hi _ =>
    refine Eq.subst (motive := LifeStep _ _ _ _) (lives_setProc _ i ProcEntry.zero).symm ?_
    exact .cleared (freeProc_some hi) (show procErrNomem < 0 by decide)
  | @created _ _ i hi haccept _ =>
    refine Eq.subst (motive := LifeStep _ _ _ _) (lives_setProc _ i _).symm ?_
    refine .born (freeProc_some hi) ?_
    rcases haccept with h0 | ⟨-, j, hj⟩
    · exact .inl h0
    · exact .inr ⟨j, findProc_life hj⟩
  | focused hi hlive => exact .moved (focused_lives hi hlive)
  | ended hop hi hlive hinit =>
    rw [exitEntry_lives s _ _ hinit]
    exact .buried hop ⟨(findProc_life hi).1, hlive⟩ (findProc_life hi).2 hinit
  | @reaped _ _ i _ _ hi hparent hstate _ =>
    refine Eq.subst (motive := LifeStep _ _ _ _) (lives_setProc _ i ProcEntry.zero).symm ?_
    exact .reaped (findProc_life hi).1 (findProc_life hi).2 hparent hstate
  | charged hr _ h =>
    rw [h.lives]
    exact .quiet hr
  | credited _ _ h =>
    rw [h.lives]
    exact .quiet id
  | files _ hr h =>
    rw [h.lives]
    exact .quiet hr

end Refine

/-! ## §3. Runs of calls. -/

/-- One call, with the calls limited by `guard`. -/
inductive CallStep (guard : ProcState → Op → Prop) : ProcState → ProcState → Prop
  | call {env : Env} {op : Op} {r : Ret} {s s' : ProcState} (hop : guard s op)
      (h : exec env s op = .ok (r, s')) : CallStep guard s s'

/-- Any number of calls. -/
abbrev CallRun (guard : ProcState → Op → Prop) : ProcState → ProcState → Prop :=
  Relation.ReflTransGen (CallStep guard)

theorem CallStep.inv {guard : ProcState → Op → Prop} {s s' : ProcState}
    (hstep : CallStep guard s s') (h : TableInv s.table) : TableInv s'.table := by
  cases hstep with
  | call _ hexec => exact (exec_table hexec).inv h

/-- `proc_init`, whatever the memory held before. -/
theorem procInit_inv (s : ProcState) : TableInv (procInit s).table := boot_inv s

/-- The calls, computed: `none` when one of them halts or is not allowed. -/
def calls (guard : ProcState → Op → Prop) [∀ s op, Decidable (guard s op)] (env : Env)
    (s : ProcState) (ops : List Op) : Option ProcState :=
  ops.foldlM (fun s op =>
    if guard s op then (exec env s op).toOption.map Prod.snd else none) s

/-- A computed run is a run. -/
theorem callRun_calls {guard : ProcState → Op → Prop} [∀ s op, Decidable (guard s op)] {env : Env}
    {ops : List Op} {s s' : ProcState} (h : calls guard env s ops = some s') :
    CallRun guard s s' := by
  induction ops generalizing s with
  | nil =>
    cases h
    exact .refl
  | cons op ops ih =>
    obtain ⟨s₁, h1, h2⟩ := Option.bind_eq_some_iff.mp h
    dsimp only at h1
    split at h1
    · rename_i hop
      obtain ⟨⟨r, s₂⟩, hexec, heq⟩ := Option.map_eq_some_iff.mp h1
      cases heq
      exact .head (.call hop (toOption_some hexec)) (ih h2)
    · cases h1

end ExoCore.Proc
