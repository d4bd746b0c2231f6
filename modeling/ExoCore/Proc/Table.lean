/-
  ExoCore.Proc.Table — the process table as a STATE MACHINE of its own.

  `Table` keeps of the kernel state only who is in the table, in which state, and
  which memory contexts are taken.  `TStep` are the seven things that can happen to it,
  and every call is a sequence of them (`exec_table`), so that an invariant is checked
  against seven small cases and never against the calls.
-/
import ExoCore.Proc.Effect

namespace ExoCore.Proc

open ExoCore.Lib ExoCore.Vfs Function List

/-! ## §1. The abstract table. -/

/-- What the table says about one slot. -/
structure Row where
  used : Bool
  pid : ℤ
  state : ProcStatus
  memctx : ℤ
  deriving Repr, DecidableEq

def Row.zero : Row := ⟨false, 0, .unused, 0⟩

/-- The process table without names, images, descriptors and memory; `ctxs` are the
ids of the active memory contexts. -/
@[ext]
structure Table where
  rows : ProcSlot → Row
  nextPid : ℤ
  current : ℤ
  ctxs : CtxSlot → Option ℤ
  nextCtx : ℤ

def ProcEntry.row (e : ProcEntry) : Row := ⟨e.used, e.info.pid, e.info.state, e.info.memctx⟩

/-- The id of a context, if it is active. -/
def Memctx.key (c : Memctx) : Option ℤ := if c.active then some c.id else none

/-- The abstraction function. -/
def ProcState.table (s : ProcState) : Table :=
  { rows := fun i => (s.procs i).row
    nextPid := s.nextPid
    current := s.currentPid
    ctxs := fun c => (s.memctx.contexts c).key
    nextCtx := s.memctx.nextCtxId }

/-- The slot `find_proc` finds. -/
def Table.find (t : Table) (pid : ℤ) : Option ProcSlot :=
  (List.finRange 16).find? fun i => (t.rows i).used && (t.rows i).pid == pid

theorem findProc_eq (s : ProcState) (pid : ℤ) : findProc s pid = s.table.find pid := rfl

/-- The rows after the current process was made `READY` again. -/
def Table.park (t : Table) (j : ProcSlot) : Row :=
  if t.current ≠ 0 ∧ t.find t.current = some j ∧ (t.rows j).state = .running then
    { t.rows j with state := .ready }
  else t.rows j

/-- The first active context with a given id. -/
def Table.findCtx (t : Table) (id : ℤ) : Option CtxSlot :=
  (List.finRange 32).find? fun c => t.ctxs c == some id

/-- The contexts after the one `findCtx` finds was destroyed. -/
def Table.dropCtx (t : Table) (id : ℤ) (c : CtxSlot) : Option ℤ :=
  if t.findCtx id = some c then none else t.ctxs c

/-- A process that can still run. -/
def Row.live (r : Row) : Prop := r.used = true ∧ procIsTerminalState r.state = false

instance (r : Row) : Decidable r.live := inferInstanceAs (Decidable (_ ∧ _))

/-- What can happen to the table. -/
inductive TStep (t : Table) : Table → Prop
  /-- A new process with a new context. -/
  | create {i : ProcSlot} {c : CtxSlot} (hfree : (t.rows i).used = false) (hc : t.ctxs c = none)
      (hid : 0 ≤ t.nextCtx) :
      TStep t
        { rows := update t.rows i ⟨true, t.nextPid, .ready, t.nextCtx⟩
          nextPid := toInt (t.nextPid + 1)
          current := t.current
          ctxs := update t.ctxs c (some t.nextCtx)
          nextCtx := toInt (t.nextCtx + 1) }
  /-- `memctx_create` answered a negative id: the process is dropped, the context stays. -/
  | leak {i : ProcSlot} {c : CtxSlot} (hfree : (t.rows i).used = false) (hc : t.ctxs c = none)
      (hid : t.nextCtx < 0) :
      TStep t
        { rows := update t.rows i Row.zero
          nextPid := toInt (t.nextPid + 1)
          current := t.current
          ctxs := update t.ctxs c (some t.nextCtx)
          nextCtx := toInt (t.nextCtx + 1) }
  /-- `memctx_create` found all contexts in use. -/
  | full {i : ProcSlot} (hfree : (t.rows i).used = false) (hall : ∀ c, t.ctxs c ≠ none) :
      TStep t { t with
        rows := update t.rows i Row.zero
        nextPid := toInt (t.nextPid + 1) }
  /-- `proc_set_current`. -/
  | setCurrent {i : ProcSlot} (hlive : (t.rows i).live) :
      TStep t { t with
        rows := update t.park i { t.rows i with state := .running }
        current := (t.rows i).pid }
  /-- `proc_exit_locked`. -/
  | exit {i : ProcSlot} (hlive : (t.rows i).live) (hpid : (t.rows i).pid ≠ 1) :
      TStep t { t with
        rows := update t.rows i { t.rows i with state := .exited }
        current := if t.current = (t.rows i).pid then 0 else t.current }
  /-- `proc_wait`, for a process that has ended, and the unwinding of a spawn, for one that
  was not started yet. -/
  | drop {i : ProcSlot} (hused : (t.rows i).used = true)
      (hidle : (t.rows i).state = .exited ∨ (t.rows i).state = .ready ∧ (t.rows i).pid ≠ 1) :
      TStep t { t with
        rows := update t.rows i Row.zero
        ctxs := t.dropCtx (t.rows i).memctx }
  /-- The last line of `proc_start_flat`, for a process that is gone. -/
  | idle {pid : ℤ} (hcur : t.current = pid)
      (hgone : ∀ i, t.find pid = some i → procIsTerminalState (t.rows i).state = true) :
      TStep t { t with current := 0 }

/-- Any number of them. -/
abbrev TRun : Table → Table → Prop := Relation.ReflTransGen TStep

section Find

variable {t : Table} {pid : ℤ} {i : ProcSlot}

theorem Table.find_some (h : t.find pid = some i) :
    (t.rows i).used = true ∧ (t.rows i).pid = pid := by
  have hi := find?_some h
  simpa using hi

/-- The search only looks at who is there and under which pid. -/
theorem Table.find_congr {t' : Table}
    (h : ∀ j, (t'.rows j).used = (t.rows j).used ∧ (t'.rows j).pid = (t.rows j).pid) :
    t'.find pid = t.find pid := by
  unfold Table.find
  congr 1
  funext j
  rw [(h j).1, (h j).2]

theorem Table.findCtx_some {id : ℤ} {c : CtxSlot} (h : t.findCtx id = some c) :
    t.ctxs c = some id := by
  have hc := find?_some h
  simpa using hc

theorem Table.findCtx_none {id : ℤ} (h : t.findCtx id = none) (c : CtxSlot) :
    t.ctxs c ≠ some id := by
  have hc := find?_eq_none.mp h c (mem_finRange c)
  simpa using hc

end Find

/-! ## §2. Every call is a run of the abstract table. -/

section Refine

variable {s s' : ProcState}

theorem update_row (f : ProcSlot → ProcEntry) (i : ProcSlot) (e : ProcEntry) :
    (fun j => (update f i e j).row) =
      update (fun j => (f j).row) i e.row :=
  comp_update ProcEntry.row f i e

theorem update_key (f : CtxSlot → Memctx) (c : CtxSlot) (x : Memctx) :
    (fun j => (update f c x j).key) = update (fun j => (f j).key) c x.key :=
  comp_update Memctx.key f c x

/-- Two states with the same table. -/
theorem TRun.same (h : s'.table = s.table) : TRun s.table s'.table := by
  rw [h]

theorem findCtx_eq (m : MemctxState) (id : ℤ) (t : Table) (h : t.ctxs = fun c => (m.contexts c).key) :
    findCtx m id = t.findCtx id := by
  unfold findCtx Table.findCtx
  congr 1
  funext c
  rw [h]
  unfold Memctx.key
  cases hactive : (m.contexts c).active <;> simp [hactive]

/-- A context changed, but neither its id nor whether it is active. -/
theorem key_setCtx (m : MemctxState) (c : CtxSlot) (x : Memctx) (h : x.key = (m.contexts c).key) :
    (fun j => ((m.setCtx c x).contexts j).key) = fun j => (m.contexts j).key := by
  show (fun j => (update m.contexts c x j).key) = _
  rw [update_key, h]
  exact update_eq_self c fun j => (m.contexts j).key

theorem memctxAlloc_keys (alloc : HeapAlloc) (m : MemctxState) (id : ℤ) (size : ℕ) :
    (fun j => ((memctxAlloc alloc m id size).2.contexts j).key) = (fun j => (m.contexts j).key) ∧
      (memctxAlloc alloc m id size).2.nextCtxId = m.nextCtxId := by
  unfold memctxAlloc
  split
  · exact ⟨rfl, rfl⟩
  split
  · exact ⟨rfl, rfl⟩
  rename_i c _
  dsimp only
  split
  · exact ⟨rfl, rfl⟩
  split
  · exact ⟨rfl, rfl⟩
  split
  · exact ⟨rfl, rfl⟩
  · exact ⟨key_setCtx (m.setBlock _ _) c _ rfl, rfl⟩

variable {m : MemctxState} {i : ProcSlot} {pid : ℤ}

theorem memctxFree_keys {m' : MemctxState} {id : ℤ} {ptr : ℕ} {b : Bool}
    (h : memctxFree m id ptr = some (b, m')) :
    (fun j => (m'.contexts j).key) = (fun j => (m.contexts j).key) ∧
      m'.nextCtxId = m.nextCtxId := by
  unfold memctxFree at h
  split at h
  · cases h
    exact ⟨rfl, rfl⟩
  split at h
  · rename_i c b _ _
    obtain ⟨m₁, hfree, heq⟩ := Option.map_eq_some_iff.mp h
    obtain ⟨h1, h2⟩ := heapFree_contexts hfree
    cases heq
    refine ⟨?_, h2⟩
    refine (key_setCtx m₁ c _ (by rfl)).trans ?_
    rw [h1]
  · cases h
    exact ⟨rfl, rfl⟩

/-- The table does not see memory, nor what is recorded of an image. -/
theorem OnlyMemory.table (h : OnlyMemory s m s')
    (hm : (fun j => (m.contexts j).key) = (fun j => (s.memctx.contexts j).key) ∧
      m.nextCtxId = s.memctx.nextCtxId) : s'.table = s.table := by
  obtain ⟨infos, howner, rfl⟩ := h
  refine Table.ext (funext fun j => ?_) rfl rfl hm.1 hm.2
  show Row.mk _ (infos j).pid (infos j).state (infos j).memctx = _
  rw [(howner j).pid, (howner j).state, (howner j).memctx]
  rfl

theorem OnlyFiles.table (h : OnlyFiles s s') : s'.table = s.table := by
  obtain ⟨fds, v, rfl⟩ := h
  rfl

/-- A slot was filled, whatever became of the context. -/
theorem enrolled_table (s : ProcState) (i : ProcSlot) (e : ProcEntry) :
    (enrolled s i e).table =
      { rows := update s.table.rows i e.row
        nextPid := toInt (s.nextPid + 1)
        current := s.currentPid
        ctxs := fun c => ((memctxCreate s.memctx s.nextPid 0).2.contexts c).key
        nextCtx := (memctxCreate s.memctx s.nextPid 0).2.nextCtxId } :=
  Table.ext (update_row s.procs i e) rfl rfl rfl rfl

theorem opened_keys (s : ProcState) (c : CtxSlot) :
    (fun d => ((opened s.memctx c s.nextPid 0).contexts d).key) =
      update s.table.ctxs c (some s.memctx.nextCtxId) :=
  update_key s.memctx.contexts c ⟨true, s.memctx.nextCtxId, s.nextPid, ⟨0, 0, 0, 0⟩⟩

theorem freeCtx_key {c : CtxSlot} (h : freeCtx s.memctx = some c) : s.table.ctxs c = none := by
  show (s.memctx.contexts c).key = none
  rw [Memctx.key, if_neg (by rw [freeCtx_some h]; decide)]

theorem cleared_table (hi : freeProc s = some i)
    (hctx : (memctxCreate s.memctx s.nextPid 0).1 < 0) :
    TStep s.table (enrolled s i ProcEntry.zero).table := by
  have hfree : (s.table.rows i).used = false := freeProc_some hi
  rw [enrolled_table]
  rcases memctxCreate_cases s.memctx s.nextPid 0 with ⟨hfull, heq⟩ | ⟨c, hc, heq⟩
  · rw [heq]
    refine .full hfree fun c => ?_
    show (s.memctx.contexts c).key ≠ none
    rw [Memctx.key, if_pos (freeCtx_none hfull c)]
    exact Option.some_ne_none _
  · rw [heq] at hctx ⊢
    dsimp only
    rw [opened_keys]
    exact .leak hfree (freeCtx_key hc) hctx

theorem created_table (hi : freeProc s = some i)
    (hctx : 0 ≤ (memctxCreate s.memctx s.nextPid 0).1) (parentPid : ℤ) (name : Str) :
    TStep s.table (enrolled s i
      (newEntry s.nextPid parentPid (memctxCreate s.memctx s.nextPid 0).1 name)).table := by
  have hfree : (s.table.rows i).used = false := freeProc_some hi
  rw [enrolled_table]
  rcases memctxCreate_cases s.memctx s.nextPid 0 with ⟨-, heq⟩ | ⟨c, hc, heq⟩
  · rw [heq] at hctx
    exact absurd hctx (show ¬ (0 : ℤ) ≤ -1 by decide)
  · rw [heq] at hctx ⊢
    dsimp only
    rw [opened_keys]
    exact .create hfree (freeCtx_key hc) hctx

theorem procCreate_table (s : ProcState) (name : Str) (parentPid : ℤ) :
    TRun s.table (procCreate s name parentPid).2.table := by
  rcases procCreate_cases s name parentPid with
    ⟨r, -, heq, -⟩ | ⟨i, hi, -, ⟨hctx, heq⟩ | ⟨hctx, heq⟩⟩
  · rw [heq]
  · rw [heq]
    exact .single (cleared_table hi hctx)
  · rw [heq]
    exact .single (created_table hi hctx parentPid name)

theorem parked_row (s : ProcState) (j : ProcSlot) :
    { s.table.rows j with state := parkedState s j } = s.table.park j := by
  unfold Table.park parkedState
  by_cases h : InCharge s j
  · rw [if_pos h]
    exact (if_pos h).symm
  · rw [if_neg h]
    exact (if_neg h).symm

theorem focused_table (hi : findProc s pid = some i)
    (hlive : procIsTerminalState (s.procs i).info.state = false) :
    TStep s.table (focused s i pid).table := by
  obtain ⟨hused, rfl⟩ := findProc_some hi
  have hstep := TStep.setCurrent (t := s.table) (i := i) ⟨hused, hlive⟩
  rw [focused_eq]
  convert hstep using 1
  refine Table.ext (funext fun j => ?_) rfl rfl rfl rfl
  show { s.table.rows j with state := update (parkedState s) i .running j } =
    update s.table.park i _ j
  by_cases hj : j = i
  · subst hj
    rw [update_self, update_self]
  · rw [update_of_ne hj, update_of_ne hj, parked_row]

theorem procSetCurrent_table (s : ProcState) (pid : ℤ) :
    TRun s.table (procSetCurrent s pid).2.table := by
  rcases procSetCurrent_cases s pid with ⟨-, heq⟩ | ⟨i, hi, hlive, heq⟩
  · rw [heq]
  · rw [heq]
    exact .single (focused_table hi hlive)

theorem exitEntry_table (s : ProcState) (i : ProcSlot) (pid status : ℤ) :
    (exitEntry s i pid status).table =
      { s.table with
        rows := update s.table.rows i { s.table.rows i with state := .exited }
        current := if s.currentPid = pid then 0 else s.currentPid } := by
  rw [exitEntry_eq]
  refine Table.ext (funext fun j => ?_) rfl rfl rfl rfl
  obtain ⟨hpid, hctx⟩ := endedInfo_owner s i pid status j
  show Row.mk (s.procs j).used (endedInfo s i pid status j).pid (endedInfo s i pid status j).state
    (endedInfo s i pid status j).memctx = update s.table.rows i _ j
  rw [hpid, hctx]
  unfold endedInfo
  by_cases hj : j = i
  · subst hj
    rw [if_pos rfl, update_self]
    rfl
  · rw [if_neg hj, update_of_ne hj, (adoptedInfo_fields s pid j).2.1]
    rfl

theorem ended_table (status : ℤ) (hi : findProc s pid = some i)
    (hlive : procIsTerminalState (s.procs i).info.state = false) (hinit : pid ≠ 1) :
    TStep s.table (exitEntry s i pid status).table := by
  obtain ⟨hused, hpid⟩ := findProc_some hi
  have hpid : (s.table.rows i).pid = pid := hpid
  have hstep := TStep.exit (t := s.table) (i := i) ⟨hused, hlive⟩ (by rw [hpid]; exact hinit)
  rw [hpid] at hstep
  rw [exitEntry_table]
  exact hstep

/-- A process is dropped together with the context its entry names. -/
theorem table_drop {ok : Bool}
    (hm : memctxDestroy s.memctx (s.procs i).info.memctx = some (ok, m)) :
    ({ s with memctx := m }.setProc i ProcEntry.zero).table =
      { s.table with
        rows := update s.table.rows i Row.zero
        ctxs := s.table.dropCtx (s.table.rows i).memctx } := by
  obtain ⟨h1, h2⟩ := memctxDestroy_contexts hm
  have hfind := findCtx_eq s.memctx (s.procs i).info.memctx s.table rfl
  have hctxs : (fun c => (m.contexts c).key) = s.table.dropCtx (s.table.rows i).memctx := by
    funext c
    unfold Table.dropCtx
    rw [show (s.table.rows i).memctx = (s.procs i).info.memctx from rfl, ← hfind]
    rcases h2 with ⟨hnone, heq⟩ | ⟨c', hc', heq⟩
    · rw [hnone, if_neg (by simp), heq]
      rfl
    · rw [hc', heq]
      by_cases hc : c = c'
      · subst hc
        simp [Memctx.key, Memctx.zero]
      · rw [if_neg (fun he => hc (Option.some.inj he).symm), update_of_ne hc]
        rfl
  exact Table.ext (update_row s.procs i _) rfl rfl hctxs h1

theorem startEnter_table (h : startEnter s pid = some s') : TRun s.table s'.table := by
  obtain ⟨i, hi, hlive, rfl⟩ := startEnter_cases h
  exact .single (focused_table hi hlive)

/-- After the exit that `proc_start_flat` makes, its process is gone or terminal. -/
theorem exitIfLive_table (h : exitIfLive s pid = .ok s') :
    TRun s.table s'.table ∧ ¬LiveProc s' pid := by
  rcases exitIfLive_cases h with ⟨hdead, rfl⟩ | ⟨i, hi, hlive, hinit, rfl⟩
  · exact ⟨.refl, hdead⟩
  refine ⟨.single (ended_table 0 hi hlive hinit), ?_⟩
  -- the pids did not change, so the same slot is found again
  have htable := exitEntry_table s i pid 0
  have hfind : findProc (exitEntry s i pid 0) pid = some i := by
    rw [findProc_eq, htable, ← hi, findProc_eq]
    refine Table.find_congr fun j => ?_
    show (update s.table.rows i _ j).used = _ ∧ (update s.table.rows i _ j).pid = _
    by_cases hj : j = i
    · subst hj
      simp
    · simp [hj]
  refine not_liveProc_of_terminal hfind ?_
  show procIsTerminalState ((exitEntry s i pid 0).table.rows i).state = true
  rw [htable]
  simp [procIsTerminalState]

theorem resume_table (previous : ℤ) (hgone : ¬LiveProc s pid) :
    TRun s.table (resume s pid previous).table := by
  unfold resume
  split
  · exact procSetCurrent_table s previous
  split
  · rename_i hcur
    exact .single (.idle hcur fun i hi => Bool.not_eq_false _ |>.mp fun hlive => hgone ⟨i, hi, hlive⟩)
  · exact .refl

theorem startLeave_table {previous : ℤ} (h : startLeave s pid previous = .ok s') :
    TRun s.table s'.table := by
  obtain ⟨s₁, hexit, heq⟩ := map_ok.mp h
  subst heq
  obtain ⟨h1, h2⟩ := exitIfLive_table hexit
  exact h1.trans (resume_table previous h2)

theorem exec_table {env : Env} {op : Op} {r : Ret} (h : exec env s op = .ok (r, s')) :
    TRun s.table s'.table := by
  cases exec_effect h with
  | same => exact .refl
  | cleared hi hctx => exact .single (cleared_table hi hctx)
  | created hi _ hctx => exact .single (created_table hi hctx _ _)
  | focused hi hlive => exact .single (focused_table hi hlive)
  | ended _ hi hlive hinit => exact .single (ended_table _ hi hlive hinit)
  | reaped hi _ hstate hm =>
    rw [table_drop hm]
    exact .single (.drop (findProc_some hi).1 (.inl hstate))
  | charged _ _ h => exact .same (h.table (memctxAlloc_keys _ _ _ _))
  | credited _ hm h => exact .same (h.table (memctxFree_keys hm))
  | files _ _ h => exact .same h.table

end Refine

end ExoCore.Proc
