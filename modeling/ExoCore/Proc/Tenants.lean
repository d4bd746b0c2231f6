/-
  ExoCore.Proc.Tenants — processes and their memory contexts.

  The process table names a context by an integer, and so does every block.  `Tenants`
  says that the numbers agree: each used slot has one active context with its own
  number, and each active context belongs to one used slot.  `TenantStep` says once
  what a call can do to the slots, the contexts and the blocks; the invariant is
  checked against its five cases.
-/
import ExoCore.Proc.Unwind

namespace ExoCore.Proc

open ExoCore.Lib ExoCore.Vfs Function

/-! ## §1. The invariant. -/

/-- A process has the context with its own number. -/
structure Tenant (m : MemctxState) (e : ProcEntry) : Prop where
  memctx : e.info.memctx = e.info.pid
  housed : ∃ c, (m.contexts c).active = true ∧ (m.contexts c).id = e.info.pid

/-- **Every process has its context, and every context its process.** -/
structure Tenants (s : ProcState) : Prop where
  ctx : BlocksOk s.memctx
  /-- Pids and context ids are issued together. -/
  same : s.memctx.nextCtxId = s.nextPid
  row : ∀ i, (s.procs i).used = true → Tenant s.memctx (s.procs i)
  distinct : ∀ i j, (s.procs i).used = true → (s.procs j).used = true →
    (s.procs i).info.pid = (s.procs j).info.pid → i = j
  owned : ∀ c, (s.memctx.contexts c).active = true →
    (s.memctx.contexts c).ownerPid = (s.memctx.contexts c).id ∧
      ∃ i, (s.procs i).used = true ∧ (s.procs i).info.pid = (s.memctx.contexts c).id

theorem procInit_tenants (s : ProcState) : Tenants (procInit s) :=
  ⟨memctxInit_blocksOk s.memctx, rfl, fun _ h => (by cases h), fun _ _ h => (by cases h),
    fun _ h => (by cases h)⟩

section Tenants

variable {s s' : ProcState} {i : ProcSlot} {c : CtxSlot}

/-- Its context is found by the number in its entry. -/
theorem Tenants.ctx_found (h : Tenants s) (hi : (s.procs i).used = true) :
    ∃ c, findCtx s.memctx (s.procs i).info.memctx = some c := by
  obtain ⟨hmemctx, c, hc, hid⟩ := h.row i hi
  refine ⟨c, ?_⟩
  rw [hmemctx, ← hid]
  exact h.ctx.findCtx_eq hc

theorem Tenants.below (h : Tenants s) (hpos : 0 < s.nextPid) (hi : (s.procs i).used = true) :
    (s.procs i).info.pid < s.nextPid := by
  obtain ⟨-, c, hc, hid⟩ := h.row i hi
  rw [← hid, ← h.same]
  rw [← h.same] at hpos
  exact (h.ctx.ids c hc).2 hpos

/-- There are more contexts than processes, so one is free. -/
theorem Tenants.ctx_free (h : Tenants s) : ∃ c, freeCtx s.memctx = some c := by
  refine Option.ne_none_iff_exists'.mp fun hnone => ?_
  have hall := freeCtx_none hnone
  choose f hf using fun c => (h.owned c (hall c)).2
  have hinj : Function.Injective f := by
    intro c d hcd
    refine h.ctx.distinct c d (hall c) (hall d) ?_
    rw [← (hf c).2, hcd, (hf d).2]
  have hcard := Fintype.card_le_of_injective f hinj
  simp at hcard

/-- The next pid and the next context id are new. -/
theorem Tenants.unclaimed (h : Tenants s) (hpos : 0 < s.nextPid) (i : ProcSlot) (c : CtxSlot) :
    Unclaimed s i c := by
  have hctx : 0 < s.memctx.nextCtxId := by
    rw [h.same]
    exact hpos
  have hnew : ∀ d, (s.memctx.contexts d).active = true →
      (s.memctx.contexts d).id ≠ s.memctx.nextCtxId := fun d hd => ((h.ctx.ids d hd).2 hctx).ne
  exact ⟨hpos.le, fun j _ hj => (h.below hpos hj).ne, hctx.le, fun d _ hd => hnew d hd,
    h.ctx.not_carries hnew⟩

/-! ## §2. What a call can do. -/

/-- The slots keep their processes. -/
structure SameTenants (s s' : ProcState) : Prop where
  used : ∀ i, (s'.procs i).used = (s.procs i).used
  pid : ∀ i, (s'.procs i).info.pid = (s.procs i).info.pid
  memctx : ∀ i, (s'.procs i).info.memctx = (s.procs i).info.memctx
  nextPid : s'.nextPid = s.nextPid

theorem SameTenants.refl (s : ProcState) : SameTenants s s :=
  ⟨fun _ => rfl, fun _ => rfl, fun _ => rfl, rfl⟩

theorem SameTenants.trans {s₁ s₂ s₃ : ProcState} (h : SameTenants s₁ s₂) (h' : SameTenants s₂ s₃) :
    SameTenants s₁ s₃ :=
  ⟨fun i => (h'.used i).trans (h.used i), fun i => (h'.pid i).trans (h.pid i),
    fun i => (h'.memctx i).trans (h.memctx i), h'.nextPid.trans h.nextPid⟩

variable {m : MemctxState}

theorem OnlyMemory.sameTenants (h : OnlyMemory s m s') : SameTenants s s' := by
  obtain ⟨infos, howner, rfl⟩ := h
  exact ⟨fun _ => rfl, fun i => (howner i).pid, fun i => (howner i).memctx, rfl⟩

/-- **What a call can do**, when it allocates for `who`. -/
inductive TenantStep (s : ProcState) (who : ℤ) : ProcState → Prop
  | idle {s' : ProcState} (h : SameTenants s s') (hm : s'.memctx = s.memctx) : TenantStep s who s'
  | created {i : ProcSlot} {c : CtxSlot} {parentPid : ℤ} {name : Str} (hi : freeProc s = some i)
      (hc : freeCtx s.memctx = some c) (hpos : 0 < s.nextPid) :
      TenantStep s who (enrolled s i
        (newEntry s.nextPid parentPid (memctxCreate s.memctx s.nextPid 0).1 name))
  | charged {s' : ProcState} {c : CtxSlot} {b : BlockSlot} {ptr size : ℕ} (h : SameTenants s s')
      (hc : findCtx s.memctx who = some c) (hb : (s.memctx.blocks b).ptr = 0) (hptr : ptr ≠ 0)
      (hfresh : s.memctx.live ptr = none) (hm : s'.memctx = noteBlock s.memctx c b who ptr size) :
      TenantStep s who s'
  | credited {s' : ProcState} {c : CtxSlot} {b : BlockSlot} (h : SameTenants s s')
      (hb : (s.memctx.blocks b).ptr ≠ 0) (hm : s'.memctx = released s.memctx c b) :
      TenantStep s who s'
  | reaped {i : ProcSlot} {c : CtxSlot} {m : MemctxState} (hi : (s.procs i).used = true)
      (hc : findCtx s.memctx (s.procs i).info.memctx = some c)
      (hd : Destroyed s.memctx (s.procs i).info.memctx c m) :
      TenantStep s who ({ s with memctx := m }.setProc i ProcEntry.zero)

/-- The slots and the contexts are as before, and the blocks are sound. -/
theorem Tenants.of_same (h : Tenants s) (hs : SameTenants s s')
    (hctx : ∀ c, (s'.memctx.contexts c).active = (s.memctx.contexts c).active ∧
      (s'.memctx.contexts c).id = (s.memctx.contexts c).id ∧
      (s'.memctx.contexts c).ownerPid = (s.memctx.contexts c).ownerPid)
    (hnext : s'.memctx.nextCtxId = s.memctx.nextCtxId) (hok : BlocksOk s'.memctx) :
    Tenants s' := by
  refine ⟨hok, ?_, fun i hi => ?_, fun i j hi hj hij => ?_, fun c hc => ?_⟩
  · rw [hnext, hs.nextPid]
    exact h.same
  · rw [hs.used] at hi
    obtain ⟨hmemctx, c, hc, hid⟩ := h.row i hi
    refine ⟨by rw [hs.memctx, hs.pid, hmemctx], c, ?_⟩
    rw [(hctx c).1, (hctx c).2.1, hs.pid]
    exact ⟨hc, hid⟩
  · rw [hs.used] at hi hj
    rw [hs.pid, hs.pid] at hij
    exact h.distinct i j hi hj hij
  · rw [(hctx c).1] at hc
    obtain ⟨howner, i, hi, hid⟩ := h.owned c hc
    rw [(hctx c).2.1, (hctx c).2.2]
    refine ⟨howner, i, ?_⟩
    rw [hs.used, hs.pid]
    exact ⟨hi, hid⟩

/-- Only statistics moved. -/
theorem stats_contexts {m' : MemctxState} {st : MemctxStats}
    (h : m'.contexts = update m.contexts c { m.contexts c with stats := st }) (d : CtxSlot) :
    (m'.contexts d).active = (m.contexts d).active ∧ (m'.contexts d).id = (m.contexts d).id ∧
      (m'.contexts d).ownerPid = (m.contexts d).ownerPid := by
  rw [h]
  by_cases hd : d = c
  · subst hd
    rw [update_self]
    exact ⟨rfl, rfl, rfl⟩
  · rw [update_of_ne hd]
    exact ⟨rfl, rfl, rfl⟩

/-- A new process with a new context. -/
theorem Tenants.create (h : Tenants s) (hi : freeProc s = some i) (hc : freeCtx s.memctx = some c)
    (hpos : 0 < s.nextPid) (parentPid : ℤ) (name : Str) : Tenants (enrolled s i
      (newEntry s.nextPid parentPid (memctxCreate s.memctx s.nextPid 0).1 name)) := by
  have hctxpos : 0 < s.memctx.nextCtxId := by
    rw [h.same]
    exact hpos
  have hok := h.ctx.create (freeCtx_some hc) hctxpos s.nextPid 0
  have hctx : ∀ d, (opened s.memctx c s.nextPid 0).contexts d =
      if d = c then ⟨true, s.nextPid, s.nextPid, ⟨0, 0, 0, 0⟩⟩ else s.memctx.contexts d := by
    intro d
    rw [opened_context, h.same]
  -- what is in use stands in another slot
  have hne : ∀ {j}, (s.procs j).used = true → j ≠ i := by
    intro j hj he
    rw [he, freeProc_some hi] at hj
    cases hj
  have hcne : ∀ {d}, (s.memctx.contexts d).active = true → d ≠ c := by
    intro d hd he
    rw [he, freeCtx_some hc] at hd
    cases hd
  unfold enrolled
  rw [memctxCreate_free hc, h.same]
  dsimp only
  generalize he : newEntry s.nextPid parentPid s.nextPid name = e
  set m := opened s.memctx c s.nextPid 0
  have hpid : e.info.pid = s.nextPid := by
    rw [← he]
    rfl
  refine ⟨hok, congrArg (fun n => toInt (n + 1)) h.same, ?_, ?_, fun d hd => ?_⟩
  · refine (forall_update_iff s.procs (p := fun _ x => x.used = true → Tenant m x)).mpr
      ⟨fun _ => ⟨?_, c, ?_⟩, fun j _ hj => ?_⟩
    · rw [← he]
      rfl
    · rw [hctx, if_pos rfl]
      exact ⟨rfl, hpid.symm⟩
    · obtain ⟨hmemctx, d, hd, hid⟩ := h.row j hj
      refine ⟨hmemctx, d, ?_⟩
      rw [hctx, if_neg (hcne hd)]
      exact ⟨hd, hid⟩
  · refine distinct_write (fun x : ProcEntry => x.used = true) (fun x => x.info.pid) i h.distinct
      (fun j hj => ?_) fun _ j _ hj => ?_
    · exact update_of_ne hj _ _
    · show _ ≠ (update s.procs i e i).info.pid
      rw [update_self, hpid]
      exact (h.below hpos hj).ne
  · have hd : (m.contexts d).active = true := hd
    show (m.contexts d).ownerPid = (m.contexts d).id ∧ ∃ j, (update s.procs i e j).used = true ∧
      (update s.procs i e j).info.pid = (m.contexts d).id
    by_cases hdc : d = c
    · rw [hctx, if_pos hdc]
      refine ⟨rfl, i, ?_⟩
      rw [update_self, ← he]
      exact ⟨rfl, rfl⟩
    · rw [hctx, if_neg hdc] at hd ⊢
      obtain ⟨howner, j, hj, hid⟩ := h.owned d hd
      refine ⟨howner, j, ?_⟩
      rw [update_of_ne (hne hj)]
      exact ⟨hj, hid⟩

/-- A process goes together with its context. -/
theorem Tenants.reap (h : Tenants s) (hi : (s.procs i).used = true)
    (hc : findCtx s.memctx (s.procs i).info.memctx = some c)
    (hd : Destroyed s.memctx (s.procs i).info.memctx c m) :
    Tenants ({ s with memctx := m }.setProc i ProcEntry.zero) := by
  obtain ⟨hactive, hid⟩ := findCtx_some hc
  rw [(h.row i hi).memctx] at hid
  have hctx : ∀ d, d ≠ c → m.contexts d = s.memctx.contexts d := by
    intro d hdc
    rw [hd.contexts, update_of_ne hdc]
  refine ⟨h.ctx.destroy hc hd, hd.nextCtxId.trans h.same, ?_, ?_, fun d hd' => ?_⟩
  · refine (forall_update_iff s.procs (p := fun _ x => x.used = true → Tenant m x)).mpr
      ⟨fun hx => (by cases hx), fun j hji hj => ?_⟩
    obtain ⟨hmemctx, d, hd', hid'⟩ := h.row j hj
    have hdc : d ≠ c := by
      intro he
      rw [he, hid] at hid'
      exact hji (h.distinct i j hi hj hid').symm
    refine ⟨hmemctx, d, ?_⟩
    rw [hctx d hdc]
    exact ⟨hd', hid'⟩
  · refine distinct_write (fun x : ProcEntry => x.used = true) (fun x => x.info.pid) i h.distinct
      (fun j hj => update_of_ne hj _ _) fun hx => ?_
    have hx : (update s.procs i ProcEntry.zero i).used = true := hx
    rw [update_self] at hx
    cases hx
  · have hd' : (m.contexts d).active = true := hd'
    have hdc : d ≠ c := by
      intro he
      rw [he, hd.contexts, update_self] at hd'
      cases hd'
    show (m.contexts d).ownerPid = (m.contexts d).id ∧ ∃ j,
      (update s.procs i ProcEntry.zero j).used = true ∧
        (update s.procs i ProcEntry.zero j).info.pid = (m.contexts d).id
    rw [hctx d hdc] at hd' ⊢
    obtain ⟨howner, j, hj, hidj⟩ := h.owned d hd'
    have hji : j ≠ i := by
      intro he
      rw [he, ← hid] at hidj
      exact hdc (h.ctx.distinct d c hd' hactive hidj.symm)
    refine ⟨howner, j, ?_⟩
    rw [update_of_ne hji]
    exact ⟨hj, hidj⟩

/-- **Every call keeps the invariant.** -/
theorem TenantStep.tenants {who : ℤ} (hstep : TenantStep s who s') (h : Tenants s) :
    Tenants s' := by
  cases hstep with
  | idle hs hm =>
    refine h.of_same hs (fun c => ?_) (by rw [hm]) ?_
    · rw [hm]
      exact ⟨rfl, rfl, rfl⟩
    · rw [hm]
      exact h.ctx
  | created hi hc hpos => exact h.create hi hc hpos _ _
  | charged hs hc hb hptr hfresh hm =>
    refine h.of_same hs (stats_contexts (by rw [hm]; rfl)) (by rw [hm]; rfl) ?_
    rw [hm]
    exact h.ctx.alloc _ hc hptr hfresh
  | credited hs hb hm =>
    refine h.of_same hs (stats_contexts (by rw [hm]; rfl)) (by rw [hm]; rfl) ?_
    rw [hm]
    exact h.ctx.free _ _
  | reaped hi hc hd => exact h.reap hi hc hd

end Tenants

/-! ## §3. Every call is one of them. -/

/-- The heap hands out no pointer that is live, in this call. -/
def FreshIn (env : Env) (s : ProcState) : Prop :=
  ∀ size, env.heap size = 0 ∨ s.memctx.live (env.heap size) = none

section Calls

variable {s s' : ProcState} {env : Env} {pid : ℤ}

/-- The slots stay, and an allocation was tried for `who`. -/
theorem TenantStep.of_alloc {who : ℤ} (size : ℕ) (hs : SameTenants s s') (hfresh : FreshIn env s)
    (hm : s'.memctx = (memctxAlloc env.heap s.memctx who size).2) : TenantStep s who s' := by
  rcases memctxAlloc_cases env.heap s.memctx who size with
    heq | ⟨c, b, hc, hb, -, hptr, -, heq⟩
  · rw [heq] at hm
    exact .idle hs hm
  · rw [heq] at hm
    exact .charged hs hc hb hptr ((hfresh size).resolve_left hptr) hm

variable {i : ProcSlot}

/-- Memory was asked for by the process in slot `i`. -/
theorem Tenants.charge {size : ℕ} (h : Tenants s) (hfresh : FreshIn env s)
    (hi : findProc s pid = some i)
    (hmem : OnlyMemory s (memctxAlloc env.heap s.memctx (s.procs i).info.memctx size).2 s') :
    TenantStep s pid s' := by
  obtain ⟨hused, hpid⟩ := findProc_some hi
  have hs := hmem.sameTenants
  obtain ⟨infos, -, rfl⟩ := hmem
  refine .of_alloc size hs hfresh ?_
  show (memctxAlloc env.heap s.memctx (s.procs i).info.memctx size).2 = _
  rw [(h.row i hused).memctx, hpid]

/-- Memory was given back for the process in slot `i`. -/
theorem Tenants.credit {ptr : ℕ} {ok : Bool} {m : MemctxState} (h : Tenants s)
    (who : ℤ) (hm : memctxFree s.memctx (s.procs i).info.memctx ptr = some (ok, m))
    (hmem : OnlyMemory s m s') : TenantStep s who s' := by
  have hs := hmem.sameTenants
  obtain ⟨infos, -, rfl⟩ := hmem
  rcases (h.ctx.freeable (s.procs i).info.memctx).memctxFree_cases ptr with heq | ⟨c, b, -, hb, -, heq⟩
  · rw [heq] at hm
    cases hm
    exact .idle hs rfl
  · rw [heq] at hm
    cases hm
    exact .credited hs hb.1 rfl

/-- A process that is dropped takes its context along; `memctx_destroy` does not panic. -/
theorem Tenants.drop {ok : Bool} {m : MemctxState} (h : Tenants s) (who : ℤ)
    (hi : (s.procs i).used = true)
    (hm : memctxDestroy s.memctx (s.procs i).info.memctx = some (ok, m)) :
    TenantStep s who ({ s with memctx := m }.setProc i ProcEntry.zero) := by
  obtain ⟨c, hc⟩ := h.ctx_found hi
  obtain ⟨m', heq, hd⟩ := (h.ctx.freeable _).memctxDestroy hc
  rw [hm] at heq
  cases heq
  exact .reaped hi hc hd

theorem abandon_tenants (h : Tenants s) (who : ℤ) (habandon : abandon s pid = .ok s') :
    TenantStep s who s' := by
  obtain ⟨i, ok, m, hi, hm, rfl⟩ := abandon_cases habandon
  exact h.drop who (findProc_some hi).1 hm

/-! The other calls touch neither the memory nor who is in a slot. -/

/-- Slots and memory stay. -/
structure Idle (s s' : ProcState) : Prop where
  tenants : SameTenants s s'
  memctx : s'.memctx = s.memctx

theorem Idle.refl (s : ProcState) : Idle s s := ⟨.refl s, rfl⟩

theorem Idle.trans {s₁ s₂ s₃ : ProcState} (h : Idle s₁ s₂) (h' : Idle s₂ s₃) : Idle s₁ s₃ :=
  ⟨h.tenants.trans h'.tenants, h'.memctx.trans h.memctx⟩

theorem Idle.step (h : Idle s s') (who : ℤ) : TenantStep s who s' := .idle h.tenants h.memctx

theorem OnlyFiles.idle (h : OnlyFiles s s') : Idle s s' := by
  obtain ⟨fds, v, rfl⟩ := h
  exact ⟨⟨fun _ => rfl, fun _ => rfl, fun _ => rfl, rfl⟩, rfl⟩

theorem focused_idle (s : ProcState) (i : ProcSlot) (pid : ℤ) : Idle s (focused s i pid) := by
  rw [focused_eq]
  exact ⟨⟨fun _ => rfl, fun _ => rfl, fun _ => rfl, rfl⟩, rfl⟩

theorem exitEntry_idle (s : ProcState) (i : ProcSlot) (pid status : ℤ) :
    Idle s (exitEntry s i pid status) := by
  rw [exitEntry_eq]
  refine ⟨⟨fun _ => rfl, fun j => ?_, fun j => ?_, rfl⟩, rfl⟩
  · exact (endedInfo_owner s i pid status j).1
  · exact (endedInfo_owner s i pid status j).2

theorem startEnter_idle (h : startEnter s pid = some s') : Idle s s' := by
  obtain ⟨i, -, -, rfl⟩ := startEnter_cases h
  exact focused_idle s i pid

theorem startLeave_idle {previous : ℤ} (h : startLeave s pid previous = .ok s') : Idle s s' := by
  obtain ⟨s₁, hexit, rfl⟩ := map_ok.mp h
  have hidle : Idle s s₁ := by
    rcases exitIfLive_cases hexit with ⟨-, rfl⟩ | ⟨i, -, -, -, rfl⟩
    · exact .refl _
    · exact exitEntry_idle s i pid 0
  refine hidle.trans ?_
  obtain ⟨_, _, heq⟩ := resume_eq s₁ pid previous
  rw [heq]
  exact ⟨⟨fun _ => rfl, fun _ => rfl, fun _ => rfl, rfl⟩, rfl⟩

/-- The call creates a process. -/
def Op.Creates : Op → Prop
  | .create _ _ => True
  | _ => False

/-- **Every call is one of the five steps.** -/
theorem exec_tenants {op : Op} {r : Ret} (h : Tenants s) (hop : op.Creates → 0 < s.nextPid)
    (hfresh : FreshIn env s) (hexec : exec env s op = .ok (r, s')) :
    TenantStep s (recipient op) s' := by
  cases exec_effect hexec with
  | same => exact .idle (.refl s) rfl
  | cleared hi hctx =>
    obtain ⟨c, hc⟩ := h.ctx_free
    rw [memctxCreate_free hc, h.same] at hctx
    exact absurd hctx (lt_asymm (hop trivial))
  | created hi _ _ =>
    obtain ⟨c, hc⟩ := h.ctx_free
    exact .created hi hc (hop trivial)
  | focused => exact (focused_idle s _ _).step _
  | ended => exact (exitEntry_idle s _ _ _).step _
  | reaped hi _ _ hm => exact h.drop _ (findProc_some hi).1 hm
  | charged _ hi hmem => exact h.charge hfresh hi hmem
  | credited _ hm hmem => exact h.credit _ hm hmem
  | files _ _ hfiles => exact hfiles.idle.step _

/-- Between the creation and the start of a spawned process. -/
theorem keeps_tenants {env : SpawnEnv} (henv : FreshHeap env) (pid : ℤ) :
    Keeps env pid Tenants where
  alloc := by
    intro t size h
    rcases procAlloc_memory (env.at t) t pid size with heq | ⟨i, hi, hmem⟩
    · rw [heq]
      exact h
    · exact (h.charge (fun size => henv _ size) hi hmem).tenants h
  free := by
    intro t t' ptr r h hfree
    rcases procFree_memory hfree with rfl | ⟨i, ok, m, -, hm, hmem⟩
    · exact h
    · exact (h.credit 0 hm hmem).tenants h
  read := fun {t _ _ _ _} h _ => ((onlyFiles_vfs t _).idle.step 0).tenants h
  record := fun {t _ _} h _ hsame =>
    (Idle.step ⟨(onlyMemory_setInfo hsame).sameTenants, rfl⟩ 0).tenants h

/-- **A spawn**, up to the start of the program. -/
theorem spawnPrepare_tenants {env : SpawnEnv} {parentPid : ℤ} {path : Str} {p : Prepared}
    (henv : FreshHeap env) (h : Tenants s) (hpos : 0 < s.nextPid)
    (hspawn : spawnPrepare env s parentPid path = .ok (p, s')) :
    Tenants s' ∧ (Restored s s' ∨ ∃ i c, Spawning s i c s') ∧
      ∀ pid, p = .ready pid → pid = s.nextPid ∧ findProc s parentPid ≠ none := by
  rcases spawnPrepare_cases hspawn with ⟨r, -, rfl, rfl⟩ | ⟨i, hi, hparent, -, -, hend⟩
  · exact ⟨h, .inl (.refl _), nofun⟩
  obtain ⟨c, hc⟩ := h.ctx_free
  have hu := h.unclaimed hpos i c
  rw [memctxCreate_free hc] at hend
  rcases hend with ⟨hneg, -⟩ | ⟨-, hneg, -⟩ | ⟨size, -, -, hfile⟩
  · exact absurd hu.ctx.nonneg (not_le.mpr hneg)
  · exact absurd hu.nonneg (not_le.mpr hneg)
  have hnew : Tenants (spawned s i parentPid path) := h.create hi hc hpos _ _
  -- the same steps, watched by both invariants
  cases (keeps_tenants henv s.nextPid).spawnFile hfile hnew with
  | unwound ht _ habandon =>
    refine ⟨(abandon_tenants ht 0 habandon).tenants ht, .inl ?_, nofun⟩
    cases (keeps_spawning henv hu).spawnFile hfile (spawning_spawned hu hc parentPid path) with
    | unwound ht' _ habandon' =>
      obtain ⟨t', ht', hrestored⟩ := ht'.abandon hu hi hc
      rw [habandon'] at ht'
      cases ht'
      exact hrestored
  | ready ht _ =>
    refine ⟨ht, .inr ⟨i, c, ?_⟩, fun _ hp => ⟨(Prepared.ready.inj hp).symm, hparent⟩⟩
    cases (keeps_spawning henv hu).spawnFile hfile (spawning_spawned hu hc parentPid path) with
    | ready ht' _ => exact ht'

end Calls

end ExoCore.Proc
