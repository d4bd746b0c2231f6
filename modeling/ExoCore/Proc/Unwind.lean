/-
  ExoCore.Proc.Unwind — a spawn that FAILS.

  Each unwinding of `proc_spawn_exec` looks the process up again and destroys the
  context it names.  From the creation to the start one invariant holds,
  `Spawning`: one process slot, one context and the block entries with the new id
  are taken, and nothing else differs.  `abandon` gives back exactly these, as long
  as the new pid and the new context id are found where they were put.

  They are not when the counters have wrapped: a context with a negative id is never
  given back, and an id that is in use finds somebody else's entry.

  Main results:
    • `Charged.destroy`, `Spawning.abandon` — the unwinding, from any of its places;
    • `failed_spawn` — a failed spawn leaves nothing behind EXACTLY as long as the two
      ids are new;
    • `failed_spawn_leaks` — a context that stays when `next_ctx_id` is negative.
-/
import ExoCore.Proc.Ledger
import ExoCore.Proc.Lives

namespace ExoCore.Proc

open ExoCore.Lib ExoCore.Vfs Function

/-! ## §1. The memory contexts. -/

/-- The id that `memctx_create` will put into slot `c` is a new one. -/
structure CtxUnclaimed (m : MemctxState) (c : CtxSlot) : Prop where
  nonneg : 0 ≤ m.nextCtxId
  first : ∀ d < c, (m.contexts d).active = true → (m.contexts d).id ≠ m.nextCtxId
  blocks : ∀ b, ¬ m.Carries m.nextCtxId b

/-- **`m'` is `m` with the new context in slot `c`** and the blocks allocated for it. -/
structure Charged (m : MemctxState) (c : CtxSlot) (m' : MemctxState) : Prop where
  contexts : ∀ d, d ≠ c → m'.contexts d = m.contexts d
  active : (m'.contexts c).active = true
  id : (m'.contexts c).id = m.nextCtxId
  kept : ∀ b, (m.blocks b).ptr ≠ 0 → m'.blocks b = m.blocks b
  taken : ∀ b, (m.blocks b).ptr = 0 → (m'.blocks b).ptr ≠ 0 → (m'.blocks b).ctxId = m.nextCtxId
  fresh : ∀ b, m'.Carries m.nextCtxId b → m.live (m'.blocks b).ptr = none
  other : ∀ p, (∀ b, m'.Carries m.nextCtxId b → (m'.blocks b).ptr ≠ p) → m'.live p = m.live p
  freeable : Freeable m' m.nextCtxId

section Charged

variable {m m' : MemctxState} {c : CtxSlot}

theorem charged_opened (hu : CtxUnclaimed m c) (ownerPid : ℤ) (quota : ℕ) :
    Charged m c (opened m c ownerPid quota) := by
  have hnone : ∀ b, ¬ (opened m c ownerPid quota).Carries m.nextCtxId b := hu.blocks
  refine ⟨fun d hd => ?_, ?_, ?_, fun _ _ => rfl, fun b h0 hb => absurd h0 hb,
    fun b hb => absurd hb (hnone b), fun _ _ => rfl,
    fun b hb => absurd hb (hnone b), fun b _ hb => absurd hb (hnone b)⟩
  · rw [opened_context, if_neg hd]
  · rw [opened_context, if_pos rfl]
  · rw [opened_context, if_pos rfl]

section

variable (h : Charged m c m')
include h

/-- The new context is the one that is found by its id. -/
theorem Charged.findCtx (hu : CtxUnclaimed m c) : findCtx m' m.nextCtxId = some c := by
  refine find?_finRange_eq_some.mpr ⟨by simp [h.active, h.id], fun d hd => ?_⟩
  rw [h.contexts d hd.ne]
  have hfirst := hu.first d hd
  cases hactive : (m.contexts d).active with
  | false => rfl
  | true => simpa using hfirst hactive

/-- **One entry is written** that was free before the context was there, and the heap at the
pointer that it has, or had. -/
theorem Charged.write {t : MemctxState} {st : MemctxStats} {b : BlockSlot} {x : MemctxBlock}
    {q : ℕ} {v : Option ℕ}
    (hctx : t.contexts = update m'.contexts c { m'.contexts c with stats := st })
    (hblk : t.blocks = update m'.blocks b x) (hlive : t.live = update m'.live q v)
    (hfree : (m.blocks b).ptr = 0) (hx : x.ptr ≠ 0 → x.ctxId = m.nextCtxId ∧ m.live x.ptr = none)
    (hq : (m'.blocks b).ptr ≠ 0 → (m'.blocks b).ptr = q)
    (hv : x.ptr ≠ 0 ∧ x.ptr = q ∨ v = m.live q) (hfreeable : Freeable t m.nextCtxId) :
    Charged m c t := by
  have hself : t.blocks b = x := by rw [hblk, update_self]
  have hblock : ∀ {b'}, b' ≠ b → t.blocks b' = m'.blocks b' := by
    intro b' hb'
    rw [hblk, update_of_ne hb']
  have hcarries : ∀ {b'}, b' ≠ b → (t.Carries m.nextCtxId b' ↔ m'.Carries m.nextCtxId b') := by
    intro b' hb'
    unfold MemctxState.Carries
    rw [hblock hb']
  refine ⟨fun d hd => ?_, ?_, ?_, fun b' hb' => ?_, fun b' h0 hb' => ?_, fun b' hb' => ?_,
    fun p hp => ?_, hfreeable⟩
  · rw [hctx, update_of_ne hd]
    exact h.contexts d hd
  · rw [hctx, update_self]
    exact h.active
  · rw [hctx, update_self]
    exact h.id
  · have hne : b' ≠ b := by
      rintro rfl
      exact hb' hfree
    rw [hblock hne]
    exact h.kept b' hb'
  · by_cases hne : b' = b
    · rw [hne, hself] at hb' ⊢
      exact (hx hb').1
    · rw [hblock hne] at hb' ⊢
      exact h.taken b' h0 hb'
  · by_cases hne : b' = b
    · have hptr := hb'.1
      rw [hne, hself] at hptr ⊢
      exact (hx hptr).2
    · rw [hblock hne]
      exact h.fresh b' ((hcarries hne).mp hb')
  · rw [hlive]
    by_cases hpq : p = q
    · subst hpq
      rw [update_self]
      -- a pointer that is entered now is not in question
      refine hv.resolve_left fun hxq => ?_
      have hp' := hp b
      unfold MemctxState.Carries at hp'
      rw [hself] at hp'
      exact hp' ⟨hxq.1, (hx hxq.1).1⟩ hxq.2
    · rw [update_of_ne hpq]
      refine h.other p fun b' hb' => ?_
      by_cases hne : b' = b
      · rw [hne] at hb' ⊢
        rw [hq hb'.1]
        exact Ne.symm hpq
      · rw [← hblock hne]
        exact hp b' ((hcarries hne).mpr hb')

/-- **`memctx_alloc`** for the new context. -/
theorem Charged.alloc (hu : CtxUnclaimed m c) {alloc : HeapAlloc} {size : ℕ}
    (hfresh : alloc size = 0 ∨ m'.live (alloc size) = none) :
    Charged m c (memctxAlloc alloc m' m.nextCtxId size).2 := by
  rcases memctxAlloc_cases alloc m' m.nextCtxId size with
    heq | ⟨i, slot, hi, hslot, -, hptr, -, heq⟩
  · rw [heq]
    exact h
  have hlive := hfresh.resolve_left hptr
  have hic : i = c := by
    rw [h.findCtx hu] at hi
    exact (Option.some.inj hi).symm
  subst hic
  rw [heq]
  -- the slot is free now, so it was free before
  have hfree : (m.blocks slot).ptr = 0 := by
    by_contra hne
    rw [h.kept slot hne] at hslot
    exact hne hslot
  refine h.write rfl rfl rfl hfree (fun _ => ⟨rfl, ?_⟩) (absurd hslot) (.inl ⟨hptr, rfl⟩)
    (h.freeable.note i slot size hlive)
  -- what was not live in `m'` was not live in `m`
  show m.live (alloc size) = none
  rw [← h.other (alloc size) fun b' hb' he => ?_]
  · exact hlive
  · obtain ⟨n, hn, -⟩ := h.freeable.backed b' hb'
    rw [he, hlive] at hn
    cases hn

/-- **`memctx_free`** for the new context. -/
theorem Charged.free (hu : CtxUnclaimed m c) {ptr : ℕ} {ok : Bool} {m'' : MemctxState}
    (hfree : memctxFree m' m.nextCtxId ptr = some (ok, m'')) : Charged m c m'' := by
  rcases h.freeable.memctxFree_cases ptr with heq | ⟨i, b, hi, hb, -, heq⟩
  · rw [heq] at hfree
    cases hfree
    exact h
  have hic : i = c := by
    rw [h.findCtx hu] at hi
    exact (Option.some.inj hi).symm
  subst hic
  rw [heq] at hfree
  cases hfree
  -- blocks and heap are those of one turn of the loop of `memctx_destroy`
  have hdrop := h.freeable.dropBlock hb
  refine h.write rfl rfl rfl ?_ (absurd rfl) (fun _ => rfl) (.inr (h.fresh b hb).symm)
    ⟨hdrop.backed, hdrop.apart⟩
  by_contra hne
  refine hu.blocks b ?_
  unfold MemctxState.Carries
  rw [← h.kept b hne]
  exact hb

/-- The tables of `memctx.c` are as they were, but for what is not in use. -/
structure MemctxRestored (m m' : MemctxState) : Prop where
  contexts : AgreeOn (fun c => c.active = true) m.contexts m'.contexts
  blocks : AgreeOn (fun b => b.ptr ≠ 0) m.blocks m'.blocks
  live : m'.live = m.live

/-- **`memctx_destroy`** of the new context gives back what was taken for it. -/
theorem Charged.destroy (hu : CtxUnclaimed m c) (hc : (m.contexts c).active = false) :
    ∃ m'', memctxDestroy m' m.nextCtxId = some (true, m'') ∧ MemctxRestored m m'' := by
  obtain ⟨m'', heq, hd⟩ := h.freeable.memctxDestroy (h.findCtx hu)
  refine ⟨m'', heq, ?_, fun b => ?_, ?_⟩
  · rw [hd.contexts]
    refine agreeOn_of_ne (fun d hdc => ?_) (Bool.eq_false_iff.mp hc) ?_
    · rw [update_of_ne hdc]
      exact h.contexts d hdc
    · rw [update_self]
      exact Bool.false_ne_true
  · by_cases h0 : (m.blocks b).ptr = 0
    · have hzero : (m''.blocks b).ptr = 0 := by
        rw [hd.blocks b]
        by_cases hb : m'.Carries m.nextCtxId b
        · rw [if_pos hb]
          rfl
        · rw [if_neg hb]
          exact not_not.mp fun hne => hb ⟨hne, h.taken b h0 hne⟩
      exact ⟨iff_of_false (not_not.mpr hzero) (not_not.mpr h0), fun hne => absurd h0 hne⟩
    · have hb : ¬ m'.Carries m.nextCtxId b := by
        unfold MemctxState.Carries
        rw [h.kept b h0]
        exact hu.blocks b
      have hsame : m''.blocks b = m.blocks b := by
        rw [hd.blocks b, if_neg hb]
        exact h.kept b h0
      exact ⟨by rw [hsame], fun _ => hsame⟩
  · funext p
    rw [hd.live p]
    split
    · rename_i hp
      obtain ⟨b, hb, rfl⟩ := hp
      exact (h.fresh b hb).symm
    · rename_i hp
      exact h.other p fun b hb he => hp ⟨b, hb, he⟩

end

end Charged

/-! ## §2. The process. -/

/-- The same files, and the same entries of `open_files` in use. -/
def SameFiles (v v' : VfsState) : Prop :=
  ∃ f, v' = { v with openFiles := f } ∧ AgreeOn (fun o => o.used = true) v.openFiles f

theorem SameFiles.close {v v' : VfsState} {k : Slot} (h : SameFiles v v')
    (hk : (v'.openFiles k).used = false) : SameFiles v (v'.setOpen k VfsOpen.zero) := by
  obtain ⟨f, rfl, hf⟩ := h
  have hold : ¬ (v.openFiles k).used = true := by
    intro hused
    have hf' : (f k).used = true := (hf k).1.mpr hused
    rw [show (f k).used = false from hk] at hf'
    cases hf'
  exact ⟨_, rfl, hf.update hold Bool.false_ne_true⟩

/-- **Nothing is left behind**: of what is in use, `s'` has what `s` had. -/
structure Restored (s s' : ProcState) : Prop where
  procs : AgreeOn (fun e => e.used = true) s.procs s'.procs
  currentPid : s'.currentPid = s.currentPid
  memctx : MemctxRestored s.memctx s'.memctx
  vfs : SameFiles s.vfs s'.vfs

theorem SameFiles.refl (v : VfsState) : SameFiles v v := ⟨v.openFiles, rfl, .refl _ _⟩

theorem MemctxRestored.refl (m : MemctxState) : MemctxRestored m m :=
  ⟨.refl _ _, .refl _ _, rfl⟩

theorem Restored.refl (s : ProcState) : Restored s s := ⟨.refl _ _, rfl, .refl _, .refl _⟩

/-- The pid and the context id that a spawn will put into slots `i` and `c` are new ones. -/
structure Unclaimed (s : ProcState) (i : ProcSlot) (c : CtxSlot) : Prop where
  nonneg : 0 ≤ s.nextPid
  first : ∀ j < i, (s.procs j).used = true → (s.procs j).info.pid ≠ s.nextPid
  ctx : CtxUnclaimed s.memctx c

/-- **`t` is `s` with the new process in slot `i`** and what was taken for it. -/
structure Spawning (s : ProcState) (i : ProcSlot) (c : CtxSlot) (t : ProcState) : Prop where
  procs : ∀ j, j ≠ i → t.procs j = s.procs j
  used : (t.procs i).used = true
  pid : (t.procs i).info.pid = s.nextPid
  memctx : (t.procs i).info.memctx = s.memctx.nextCtxId
  state : (t.procs i).info.state = .ready
  currentPid : t.currentPid = s.currentPid
  charged : Charged s.memctx c t.memctx
  vfs : SameFiles s.vfs t.vfs

section Spawning

variable {s t t' : ProcState} {i : ProcSlot} {c : CtxSlot}

theorem spawning_spawned (hu : Unclaimed s i c) (hc : freeCtx s.memctx = some c) (parentPid : ℤ)
    (path : Str) : Spawning s i c (spawned s i parentPid path) := by
  unfold spawned enrolled
  rw [memctxCreate_free hc]
  have hentry : ∀ e, update s.procs i e i = e := fun e => update_self ..
  refine ⟨fun j hj => update_of_ne hj _ _, ?_, ?_, ?_, ?_, rfl, charged_opened hu.ctx _ _,
    SameFiles.refl s.vfs⟩
  · exact congrArg ProcEntry.used (hentry _)
  · exact congrArg (fun e => e.info.pid) (hentry _)
  · exact congrArg (fun e => e.info.memctx) (hentry _)
  · exact congrArg (fun e => e.info.state) (hentry _)

/-- The new process is the one that is found by its pid. -/
theorem Spawning.findProc (h : Spawning s i c t) (hu : Unclaimed s i c) :
    findProc t s.nextPid = some i := by
  refine find?_finRange_eq_some.mpr ⟨by simp [h.used, h.pid], fun j hj => ?_⟩
  rw [h.procs j hj.ne]
  have hfirst := hu.first j hj
  cases hused : (s.procs j).used with
  | false => rfl
  | true => simpa using hfirst hused

/-- The heap hands out no pointer that is live. -/
def FreshHeap (env : SpawnEnv) : Prop :=
  ∀ live size, env.heap live size = 0 ∨ live (env.heap live size) = none

/-- A heap of three blocks: for the file, the image and the stack. -/
def threeBlocks : SpawnEnv :=
  ⟨fun live _ => ([0x3000, 0x4000, 0x5000].find? fun p => (live p).isNone).getD 0, fun _ => none⟩

theorem threeBlocks_fresh : FreshHeap threeBlocks := by
  intro live size
  unfold threeBlocks
  dsimp only
  cases h : [0x3000, 0x4000, 0x5000].find? fun p => (live p).isNone with
  | none => exact .inl rfl
  | some p =>
    have hfree := List.find?_some h
    exact .inr (Option.isNone_iff_eq_none.mp hfree)

/-- **Every step of a spawn** takes for the new process only. -/
theorem keeps_spawning {env : SpawnEnv} (henv : FreshHeap env) (hu : Unclaimed s i c) :
    Keeps env s.nextPid (Spawning s i c) where
  alloc := by
    intro t size h
    have hcharged := h.charged.alloc hu.ctx (henv t.memctx.live size)
    rw [← h.memctx] at hcharged
    unfold procAlloc
    rw [h.findProc hu]
    exact { h with charged := hcharged }
  free := by
    intro t t' ptr r h hfree
    unfold procFree at hfree
    rw [h.findProc hu] at hfree
    dsimp only at hfree
    split at hfree
    · cases hfree
    · rename_i ok m hm
      rw [h.memctx] at hm
      cases hfree
      exact { h with charged := h.charged.free hu.ctx hm }
  read := by
    intro t path size file v h hv
    rcases readVfsFile_state hv with rfl | ⟨k, hk, rfl⟩
    · exact h
    · exact { h with vfs := h.vfs.close hk }
  record := by
    intro t j info h hj hsame
    rw [h.findProc hu] at hj
    cases hj
    have hentry : (t.setInfo i info).procs i = { t.procs i with info := info } :=
      update_self ..
    refine ⟨fun j hj => ?_, ?_, ?_, ?_, ?_, h.currentPid, h.charged, h.vfs⟩
    · exact (update_of_ne hj _ _).trans (h.procs j hj)
    · rw [hentry]
      exact h.used
    · rw [hentry]
      exact hsame.pid.trans h.pid
    · rw [hentry]
      exact hsame.memctx.trans h.memctx
    · rw [hentry]
      exact hsame.state.trans h.state

/-- **The unwinding**, from any place: it never halts, and it leaves nothing behind. -/
theorem Spawning.abandon (h : Spawning s i c t) (hu : Unclaimed s i c) (hi : freeProc s = some i)
    (hc : freeCtx s.memctx = some c) : ∃ t', abandon t s.nextPid = .ok t' ∧ Restored s t' := by
  obtain ⟨m, hm, hrestored⟩ := h.charged.destroy hu.ctx (freeCtx_some hc)
  refine ⟨{ t with memctx := m }.setProc i ProcEntry.zero, ?_, ?_, h.currentPid, hrestored, h.vfs⟩
  · unfold Proc.abandon
    rw [h.findProc hu]
    dsimp only
    rw [h.memctx, hm]
  · refine agreeOn_of_ne (fun j hj => ?_) (Bool.eq_false_iff.mp (freeProc_some hi)) ?_
    · exact (update_of_ne hj _ _).trans (h.procs j hj)
    · show ¬ (update t.procs i ProcEntry.zero i).used = true
      rw [update_self]
      exact Bool.false_ne_true

/-- A process that was got ready is started. -/
theorem Spawning.startEnter (h : Spawning s i c t) (hu : Unclaimed s i c)
    (hloaded : Loaded t s.nextPid) : ∃ t', startEnter t s.nextPid = some t' := by
  have hi := h.findProc hu
  obtain ⟨j, hj, hentry⟩ := hloaded
  rw [hi] at hj
  cases hj
  have hlive : procIsTerminalState (t.procs i).info.state = false := by
    rw [h.state]
    rfl
  unfold Proc.startEnter procSetCurrent
  rw [hi]
  dsimp only
  rw [if_neg (by simp [hentry, hlive])]
  simp [hlive]

end Spawning

/-! ## §3. A failed spawn. -/

/-- `proc_spawn_exec` gets as far as taking slot `i` of the table and context `c`. -/
structure Reaches (s : ProcState) (parentPid : ℤ) (path : Str) (i : ProcSlot) (c : CtxSlot) :
    Prop where
  parent : findProc s parentPid ≠ none
  accepts : Accepts s parentPid
  file : Runnable s path
  proc : freeProc s = some i
  ctx : freeCtx s.memctx = some c

/-- A spawn that answers a negative number, whatever the heap answers and the program does,
leaves nothing behind. -/
def FailsCleanly (s : ProcState) (parentPid : ℤ) (path : Str) : Prop :=
  ∀ (env : SpawnEnv) (body : ProcState → Except Halt ProcState) (r : ℤ) (s' : ProcState),
    FreshHeap env → procSpawnExec env body s parentPid path = .ok (r, s') → r < 0 → Restored s s'

section Spawn

variable {s : ProcState} {parentPid : ℤ} {path : Str}

/-- Without a context only a pid is used up. -/
theorem restored_enrolled_zero {i : ProcSlot} (hi : freeProc s = some i)
    (hc : freeCtx s.memctx = none) : Restored s (enrolled s i ProcEntry.zero) := by
  have hmem : (memctxCreate s.memctx s.nextPid 0).2 = s.memctx := by
    unfold memctxCreate
    rw [hc]
  unfold enrolled
  rw [hmem]
  refine ⟨?_, rfl, .refl _, .refl _⟩
  exact (AgreeOn.refl _ s.procs).update (Bool.eq_false_iff.mp (freeProc_some hi)) Bool.false_ne_true

/-- The ids are new: the spawn fails cleanly. -/
theorem failsCleanly_of_unclaimed (h : ∀ i c, Reaches s parentPid path i c → Unclaimed s i c) :
    FailsCleanly s parentPid path := by
  intro env body r s' henv hspawn hr
  obtain ⟨⟨p, s₁⟩, hprep, hrest⟩ := bind_ok.mp hspawn
  rcases spawnPrepare_cases hprep with ⟨r₁, -, rfl, rfl⟩ | ⟨i, hi, hparent, haccepts, hrun, hend⟩
  · cases hrest
    exact .refl _
  cases hc : freeCtx s.memctx with
  | none =>
    have hneg : (memctxCreate s.memctx s.nextPid 0).1 < 0 := by
      unfold memctxCreate
      rw [hc]
      exact (by decide : (-1 : ℤ) < 0)
    rcases hend with ⟨-, rfl, rfl⟩ | ⟨hctx, -⟩ | ⟨size, hctx, -⟩
    · cases hrest
      exact restored_enrolled_zero hi hc
    · exact absurd hneg (not_lt.mpr hctx)
    · exact absurd hneg (not_lt.mpr hctx)
  | some c =>
    have hu := h i c ⟨hparent, haccepts, hrun, hi, hc⟩
    have hid : (memctxCreate s.memctx s.nextPid 0).1 = s.memctx.nextCtxId := by
      rw [memctxCreate_free hc]
    rw [hid] at hend
    rcases hend with ⟨hctx, -⟩ | ⟨-, hpid, -⟩ | ⟨size, -, -, hfile⟩
    · exact absurd hu.ctx.nonneg (not_le.mpr hctx)
    · exact absurd hu.nonneg (not_le.mpr hpid)
    cases (keeps_spawning henv hu).spawnFile hfile (spawning_spawned hu hc parentPid path) with
    | unwound ht hneg habandon =>
      obtain ⟨t', ht', hrestored⟩ := ht.abandon hu hi hc
      rw [habandon] at ht'
      cases ht'
      cases hrest
      exact hrestored
    | ready ht hloaded =>
      -- it was started, and the answer is its pid
      obtain ⟨t', henter⟩ := ht.startEnter hu hloaded
      obtain ⟨⟨start, s₂⟩, hstart, hret⟩ := bind_ok.mp hrest
      unfold procStartFlat at hstart
      rw [henter] at hstart
      obtain ⟨s₃, -, hstart⟩ := bind_ok.mp hstart
      obtain ⟨s₄, -, hstart⟩ := bind_ok.mp hstart
      cases hstart
      cases hret
      exact absurd hr (not_lt.mpr hu.nonneg)

/-- Every entry in use can be freed, and no two of them have the same pointer. -/
structure Backed (m : MemctxState) : Prop where
  live : ∀ b, (m.blocks b).ptr ≠ 0 → ∃ n, m.live (m.blocks b).ptr = some n ∧ (m.blocks b).size ≤ n
  apart : ∀ b b', (m.blocks b).ptr ≠ 0 → (m.blocks b).ptr = (m.blocks b').ptr → b = b'

variable {m : MemctxState}

theorem Backed.freeable (h : Backed m) (ctxId : ℤ) : Freeable m ctxId :=
  ⟨fun b hb => h.live b hb.1, fun b b' hb _ => h.apart b b' hb.1⟩

theorem Freeable.destroys {ctxId : ℤ} (h : Freeable m ctxId) :
    ∃ ok m', Proc.memctxDestroy m ctxId = some (ok, m') := by
  rcases h.memctxDestroy_cases with heq | ⟨-, m', -, -, heq⟩
  · exact ⟨false, m, heq⟩
  · exact ⟨true, m', heq⟩

/-- A heap that has nothing left. -/
def noHeap : SpawnEnv := ⟨fun _ _ => 0, fun _ => none⟩

theorem noHeap_fresh : FreshHeap noHeap := fun _ _ => .inl rfl

theorem procAlloc_noHeap (t : ProcState) (pid : ℤ) (size : ℕ) :
    procAlloc (noHeap.at t) t pid size = (0, t) := by
  unfold procAlloc
  split
  · rfl
  rename_i i _
  rcases memctxAlloc_cases (noHeap.at t).heap t.memctx (t.procs i).info.memctx size with
    heq | ⟨-, -, -, -, -, hptr, -⟩
  · dsimp only
    rw [heq]
  · exact absurd rfl hptr

variable {i : ProcSlot} {c : CtxSlot} {r : ℤ} {s' : ProcState}

theorem spawned_entry (s : ProcState) (i : ProcSlot) (parentPid : ℤ) (path : Str) :
    (spawned s i parentPid path).procs i = newEntry s.nextPid parentPid
      (memctxCreate s.memctx s.nextPid 0).1 (basenameFromPath path) :=
  update_self ..

theorem spawned_memctx (hc : freeCtx s.memctx = some c) :
    (spawned s i parentPid path).memctx = opened s.memctx c s.nextPid 0 := by
  show (memctxCreate s.memctx s.nextPid 0).2 = _
  rw [memctxCreate_free hc]

theorem abandon_spawned {k : ProcSlot} {ok : Bool}
    (hk : findProc (spawned s i parentPid path) s.nextPid = some k)
    (hm : memctxDestroy (spawned s i parentPid path).memctx
      ((spawned s i parentPid path).procs k).info.memctx = some (ok, m)) :
    abandon (spawned s i parentPid path) s.nextPid =
      .ok ({ spawned s i parentPid path with memctx := m }.setProc k ProcEntry.zero) := by
  unfold abandon
  rw [hk]
  dsimp only
  rw [hm]

section

variable (h : Reaches s parentPid path i c)
include h

/-- What `proc_create` answers to a spawn that gets so far. -/
theorem Reaches.procCreate (name : Str) :
    (s.memctx.nextCtxId < 0 ∧
        procCreate s name parentPid = (procErrNomem, enrolled s i ProcEntry.zero)) ∨
      (0 ≤ s.memctx.nextCtxId ∧ procCreate s name parentPid =
        (s.nextPid, enrolled s i (newEntry s.nextPid parentPid
          (memctxCreate s.memctx s.nextPid 0).1 name))) := by
  have hid : (memctxCreate s.memctx s.nextPid 0).1 = s.memctx.nextCtxId := by
    rw [memctxCreate_free h.ctx]
  rcases procCreate_cases s name parentPid with ⟨r, -, -, hfull⟩ | ⟨j, hj, -, hend⟩
  · have hnone := (hfull h.accepts).1
    rw [h.proc] at hnone
    cases hnone
  · rw [h.proc] at hj
    cases hj
    rw [hid] at hend ⊢
    exact hend

/-- `spawnPrepare` past its first checks. -/
theorem Reaches.spawnPrepare (env : SpawnEnv) {t : ProcState}
    (hcreate : Proc.procCreate s (basenameFromPath path) parentPid = (r, t)) :
    ∃ size, spawnPrepare env s parentPid path =
      if r < 0 then .ok (.failed r, t) else spawnFile env t r path size := by
  obtain ⟨st, hst, htype, hsize⟩ := h.file
  refine ⟨st.size, ?_⟩
  unfold Proc.spawnPrepare
  rw [if_neg h.parent, hst]
  dsimp only
  rw [if_neg (by simp [htype, hsize]), hcreate]

/-- With no heap the spawn is unwound at once. -/
theorem Reaches.spawnPrepare_noHeap (hctx : 0 ≤ s.memctx.nextCtxId) (hpid : 0 ≤ s.nextPid)
    (habandon : abandon (spawned s i parentPid path) s.nextPid = .ok s') :
    Proc.spawnPrepare noHeap s parentPid path = .ok (.failed procErrNomem, s') := by
  rcases h.procCreate (basenameFromPath path) with ⟨hctx', -⟩ | ⟨-, hcreate⟩
  · exact absurd hctx (not_le.mpr hctx')
  obtain ⟨size, hprep⟩ := h.spawnPrepare noHeap hcreate
  rw [if_neg (not_lt.mpr hpid)] at hprep
  rw [hprep]
  show spawnFile noHeap (spawned s i parentPid path) s.nextPid path size = _
  unfold spawnFile
  rw [procAlloc_noHeap]
  show giveUp (spawned s i parentPid path) s.nextPid procErrNomem = _
  unfold giveUp
  rw [habandon]
  rfl

end

section

variable (hclean : FailsCleanly s parentPid path)
include hclean

/-- With no heap and no program, what the preparation answers is the answer. -/
theorem FailsCleanly.prepared
    (hprep : spawnPrepare noHeap s parentPid path = .ok (.failed r, s')) (hr : r < 0) :
    Restored s s' := by
  refine hclean noHeap .ok r s' noHeap_fresh ?_ hr
  unfold procSpawnExec
  rw [hprep]
  rfl

variable (h : Reaches s parentPid path i c)
include h

/-- A negative context id: `proc_create` gives up, and the context stays. -/
theorem FailsCleanly.ctx_nonneg : 0 ≤ s.memctx.nextCtxId := by
  rcases h.procCreate (basenameFromPath path) with ⟨-, hcreate⟩ | ⟨hctx, -⟩
  · exfalso
    obtain ⟨size, hprep⟩ := h.spawnPrepare noHeap hcreate
    rw [if_pos (show procErrNomem < 0 by decide)] at hprep
    have hrestored := hclean.prepared hprep (by decide)
    have hactive : ((enrolled s i ProcEntry.zero).memctx.contexts c).active = true := by
      show ((memctxCreate s.memctx s.nextPid 0).2.contexts c).active = true
      rw [memctxCreate_free h.ctx]
      show ((opened s.memctx c s.nextPid 0).contexts c).active = true
      rw [opened_context, if_pos rfl]
    have hold : (s.memctx.contexts c).active = true := (hrestored.memctx.contexts c).1.mp hactive
    rw [freeCtx_some h.ctx] at hold
    cases hold
  · exact hctx

/-- A negative pid: the answer is the pid, and the process stays. -/
theorem FailsCleanly.pid_nonneg : 0 ≤ s.nextPid := by
  by_contra hneg
  have hctx := hclean.ctx_nonneg h
  rcases h.procCreate (basenameFromPath path) with ⟨hctx', -⟩ | ⟨-, hcreate⟩
  · exact absurd hctx (not_le.mpr hctx')
  obtain ⟨size, hprep⟩ := h.spawnPrepare noHeap hcreate
  rw [if_pos (not_le.mp hneg)] at hprep
  have hrestored := hclean.prepared hprep (not_le.mp hneg)
  have hused : ((spawned s i parentPid path).procs i).used = true := by
    rw [spawned_entry]
    rfl
  have hold : (s.procs i).used = true := (hrestored.procs i).1.mp hused
  rw [freeProc_some h.proc] at hold
  cases hold

theorem FailsCleanly.unwound
    (habandon : abandon (spawned s i parentPid path) s.nextPid = .ok s') : Restored s s' :=
  hclean.prepared (h.spawnPrepare_noHeap (hclean.ctx_nonneg h) (hclean.pid_nonneg h) habandon)
    (by decide)

variable (hbacked : Backed s.memctx)
include hbacked

/-- The lookup of the new pid finds the new process: the process it finds is cleared. -/
theorem FailsCleanly.findProc :
    findProc (spawned s i parentPid path) s.nextPid = some i := by
  obtain ⟨k, hk⟩ : ∃ k, Proc.findProc (spawned s i parentPid path) s.nextPid = some k := by
    refine Option.ne_none_iff_exists'.mp fun hnone => ?_
    have hi := find?_finRange_eq_none.mp hnone i
    rw [spawned_entry] at hi
    simp [newEntry] at hi
  have hfreeable : ∀ ctxId, Freeable (spawned s i parentPid path).memctx ctxId := by
    intro ctxId
    rw [spawned_memctx h.ctx]
    exact ⟨(hbacked.freeable ctxId).backed, (hbacked.freeable ctxId).apart⟩
  obtain ⟨ok, m, hm⟩ := (hfreeable ((spawned s i parentPid path).procs k).info.memctx).destroys
  have hrestored := hclean.unwound h (abandon_spawned hk hm)
  by_cases hki : k = i
  · rw [hki] at hk
    exact hk
  · exfalso
    obtain ⟨hused, -⟩ := findProc_some hk
    rw [show (spawned s i parentPid path).procs k = s.procs k from
      update_of_ne hki _ _] at hused
    have hstill : (update (spawned s i parentPid path).procs k ProcEntry.zero k).used =
        true := (hrestored.procs k).1.mpr hused
    rw [update_self] at hstill
    cases hstill

/-- The lookup of the new context id finds the new context, and no older block has that id:
the context it finds is cleared with its blocks. -/
theorem FailsCleanly.findCtx :
    findCtx (opened s.memctx c s.nextPid 0) s.memctx.nextCtxId = some c ∧
      ∀ b, ¬ s.memctx.Carries s.memctx.nextCtxId b := by
  have hfreeable : Freeable (opened s.memctx c s.nextPid 0) s.memctx.nextCtxId :=
    ⟨(hbacked.freeable _).backed, (hbacked.freeable _).apart⟩
  obtain ⟨d, hd⟩ : ∃ d, Proc.findCtx (opened s.memctx c s.nextPid 0) s.memctx.nextCtxId =
      some d := by
    refine Option.ne_none_iff_exists'.mp fun hnone => ?_
    have hc := find?_finRange_eq_none.mp hnone c
    rw [opened_context, if_pos rfl] at hc
    simp at hc
  obtain ⟨m, hm, hdestroyed⟩ := hfreeable.memctxDestroy hd
  have hm' : memctxDestroy (spawned s i parentPid path).memctx
      ((spawned s i parentPid path).procs i).info.memctx = some (true, m) := by
    rw [spawned_memctx h.ctx, spawned_entry, memctxCreate_free h.ctx]
    exact hm
  have hrestored := hclean.unwound h (abandon_spawned (hclean.findProc h hbacked) hm')
  refine ⟨?_, fun b hb => ?_⟩
  · by_cases hdc : d = c
    · rw [hdc] at hd
      exact hd
    · exfalso
      obtain ⟨hactive, -⟩ := findCtx_some hd
      rw [opened_context, if_neg hdc] at hactive
      have hstill : (m.contexts d).active = true := (hrestored.memctx.contexts d).1.mpr hactive
      rw [hdestroyed.contexts, update_self] at hstill
      cases hstill
  · have hstill : (m.blocks b).ptr ≠ 0 := (hrestored.memctx.blocks b).1.mpr hb.1
    rw [hdestroyed.blocks b,
      if_pos (show (opened s.memctx c s.nextPid 0).Carries s.memctx.nextCtxId b from hb)] at hstill
    exact hstill rfl

/-- **The condition is needed**, when every block in use is backed by the heap. -/
theorem FailsCleanly.unclaimed :
    Unclaimed s i c := by
  obtain ⟨-, hpid⟩ := find?_finRange_eq_some.mp (hclean.findProc h hbacked)
  obtain ⟨hctx, hblocks⟩ := hclean.findCtx h hbacked
  obtain ⟨-, hctx⟩ := find?_finRange_eq_some.mp hctx
  refine ⟨hclean.pid_nonneg h, fun j hj hused heq => ?_, hclean.ctx_nonneg h,
    fun d hd hactive heq => ?_, hblocks⟩
  · have hmiss := hpid j hj
    rw [show (spawned s i parentPid path).procs j = s.procs j from
      update_of_ne hj.ne _ _, hused, heq] at hmiss
    simp at hmiss
  · have hmiss := hctx d hd
    rw [opened_context, if_neg hd.ne, hactive, heq] at hmiss
    simp at hmiss

end

end Spawn

/-- **A failed spawn leaves nothing behind** as long as the pid and the context id it takes are
new.  In a state whose blocks are all backed by the heap this is also necessary. -/
theorem failed_spawn (s : ProcState) (parentPid : ℤ) (path : Str) :
    ((∀ i c, Reaches s parentPid path i c → Unclaimed s i c) → FailsCleanly s parentPid path) ∧
      (Backed s.memctx → FailsCleanly s parentPid path →
        ∀ i c, Reaches s parentPid path i c → Unclaimed s i c) :=
  ⟨failsCleanly_of_unclaimed, fun hbacked hclean _ _ h => hclean.unclaimed h hbacked⟩

/-- A file of one byte, `/p`, and no open file. -/
def oneFile : VfsState :=
  { nodes := fun n =>
      if n = 0 then { VfsNode.zero with used := true, inode := 1, type := .dir }
      else if n = 1 then
        { used := true, inode := 2, type := .file, parent := 0, name := [0x70], data := 0x1000,
          size := 1, capacity := 64 }
      else VfsNode.zero
    openFiles := fun _ => VfsOpen.zero
    nextInode := 3
    cwdNode := 0
    ready := true
    bufs := fun p => if p = 0x1000 then some ⟨64, fun _ => 0⟩ else none }

/-- `/p`. -/
def pathP : Str := [0x2F, 0x70]

/-- Process 1 alone, with its context, and both counters at `next`. -/
def initOnly (next : ℤ) : ProcState :=
  { procs := fun i => if i = 0 then newEntry 1 0 1 [] else ProcEntry.zero
    nextPid := next
    currentPid := 1
    memctx :=
      { contexts := fun c => if c = 0 then ⟨true, 1, 1, ⟨0, 0, 0, 0⟩⟩ else Memctx.zero
        blocks := fun _ => MemctxBlock.zero
        nextCtxId := next
        live := fun _ => none }
    vfs := oneFile }

/-- The first spawn of process 1 meets a heap with nothing left, and fails cleanly. -/
theorem failed_spawn_nomem : ∃ s', procSpawnExec noHeap .ok (initOnly 2) 1 pathP =
    .ok (procErrNomem, s') ∧ Restored (initOnly 2) s' := by
  have hnew : ∀ i c, Reaches (initOnly 2) 1 pathP i c → Unclaimed (initOnly 2) i c := by
    intro i c h
    have hi : i = 1 := (Option.some.inj (h.proc.symm.trans rfl))
    have hc : c = 1 := (Option.some.inj (h.ctx.symm.trans rfl))
    subst hi hc
    exact ⟨by decide, by decide, by decide, by decide, by decide⟩
  obtain ⟨s', hspawn⟩ : ∃ s', procSpawnExec noHeap .ok (initOnly 2) 1 pathP =
      .ok (procErrNomem, s') := ⟨_, rfl⟩
  exact ⟨s', hspawn, (failed_spawn (initOnly 2) 1 pathP).1 hnew noHeap .ok _ _ noHeap_fresh hspawn
    (by decide)⟩

/-- After `2^31 - 1` creations both counters are negative: the spawn answers `PROC_ERR_NOMEM`,
and a context stays active that no process owns. -/
theorem failed_spawn_leaks : ∃ s', FreshHeap noHeap ∧
    procSpawnExec noHeap .ok (initOnly (toInt (2 ^ 31))) 1 pathP = .ok (procErrNomem, s') ∧
    ((initOnly (toInt (2 ^ 31))).memctx.contexts 1).active = false ∧
    (s'.memctx.contexts 1).active = true ∧ ¬ Restored (initOnly (toInt (2 ^ 31))) s' := by
  obtain ⟨s', hspawn, hactive⟩ : ∃ s', procSpawnExec noHeap .ok (initOnly (toInt (2 ^ 31))) 1 pathP =
      .ok (procErrNomem, s') ∧ (s'.memctx.contexts 1).active = true := ⟨_, rfl, rfl⟩
  refine ⟨s', noHeap_fresh, hspawn, rfl, hactive, fun h => ?_⟩
  have hold : ((initOnly (toInt (2 ^ 31))).memctx.contexts 1).active = true :=
    (h.memctx.contexts 1).1.mp hactive
  cases hold

end ExoCore.Proc
