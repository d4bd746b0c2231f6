/-
  ExoCore.Proc.Current — THE CURRENT PROCESS.

  Two invariants of the abstract table, each checked against the seven steps:

    * `TStep.numbered` — pids and context ids are issued in LOCKSTEP, up to the wrap of
      the two counters; after the wrap no process can be created any more, so that a
      pid is never issued twice;
    * `TStep.current` — `current_pid` and the `RUNNING` state agree;

  and from them, over whole runs with programs nested to any depth:

    * `current_process`.
-/
import ExoCore.Lib.Tables
import ExoCore.Proc.Prepare
import ExoCore.Proc.Table
import Mathlib.Data.Fintype.Card
import Mathlib.Data.Finset.Card

namespace ExoCore.Proc

open ExoCore.Lib ExoCore.Vfs Function Finset

/-! ## §1. Pids and context ids. -/

/-- Before the counters wrap: both stand at the same number, above every pid, and every
active context belongs to a process. -/
structure Lockstep (t : Table) : Prop where
  pos : 1 ≤ t.nextPid
  small : t.nextPid < 2 ^ 31
  same : t.nextCtx = t.nextPid
  below : ∀ i, (t.rows i).used = true → (t.rows i).pid < t.nextPid
  owned : ∀ c id, t.ctxs c = some id → ∃ i, (t.rows i).used = true ∧ (t.rows i).memctx = id
  distinct : ∀ c c' id, t.ctxs c = some id → t.ctxs c' = some id → c = c'

/-- The contexts with a negative id. -/
def Table.negative (t : Table) : Finset CtxSlot :=
  Finset.univ.filter fun c => ∃ id, t.ctxs c = some id ∧ id < 0

/-- After the wrap: every negative id issued is still in its context, so at most 32 are
ever issued and the counter stays negative. -/
def Wrapped (t : Table) : Prop := t.nextCtx + 2 ^ 31 = (t.negative.card : ℤ)

/-- An unused row is cleared; a process has a positive pid and the context with its own number. -/
structure RowOk (r : Row) : Prop where
  unused : r.used = false → r.state = .unused
  pos : r.used = true → 1 ≤ r.pid
  memctx : r.used = true → r.memctx = r.pid

/-- The rows; no pid is there twice. -/
structure RowsOk (rows : ProcSlot → Row) : Prop where
  row : ∀ i, RowOk (rows i)
  distinct : ∀ i j, (rows i).used = true → (rows j).used = true → (rows i).pid = (rows j).pid → i = j

/-- The numbers in the table. -/
structure Numbered (t : Table) : Prop extends RowsOk t.rows where
  phase : Lockstep t ∨ Wrapped t

section Rows

variable {rows rows' : ProcSlot → Row} {i : ProcSlot}

/-- Only states of used rows changed. -/
def SameRows (rows rows' : ProcSlot → Row) : Prop :=
  ∀ j, (rows' j).used = (rows j).used ∧ (rows' j).pid = (rows j).pid ∧
    (rows' j).memctx = (rows j).memctx ∧ ((rows j).used = false → (rows' j).state = (rows j).state)

theorem RowsOk.states (h : RowsOk rows) (hrows : SameRows rows rows') : RowsOk rows' := by
  refine ⟨fun i => ?_, fun i j hi hj hij => ?_⟩
  · obtain ⟨hused, hpid, hctx, hstate⟩ := hrows i
    obtain ⟨hunused, hpos, hmemctx⟩ := h.row i
    rw [← hused, ← hpid] at hpos hmemctx
    rw [← hused] at hunused hstate
    exact ⟨fun hi => (hstate hi).trans (hunused hi), hpos, fun hi => hctx.trans (hmemctx hi)⟩
  · rw [(hrows i).1] at hi
    rw [(hrows j).1] at hj
    rw [(hrows i).2.1, (hrows j).2.1] at hij
    exact h.distinct i j hi hj hij

/-- A row is written, with a pid that no other one has. -/
theorem RowsOk.write {r : Row} (h : RowsOk rows) (hr : RowOk r)
    (hfresh : r.used = true → ∀ j, (rows j).used = true → (rows j).pid ≠ r.pid) (i : ProcSlot) :
    RowsOk (update rows i r) := by
  refine ⟨(forall_update_iff _ fun _ => RowOk).mpr ⟨hr, fun j _ => h.row j⟩, ?_⟩
  refine distinct_write (·.used = true) Row.pid i h.distinct (fun j hj => ?_) ?_
  · exact update_of_ne hj _ _
  · rw [update_self]
    exact fun hused j _ => hfresh hused j

theorem rowOk_zero : RowOk Row.zero := by
  refine ⟨fun _ => rfl, fun h => ?_, fun h => ?_⟩ <;> cases h

theorem RowsOk.clear (h : RowsOk rows) (i : ProcSlot) : RowsOk (update rows i Row.zero) :=
  h.write rowOk_zero (fun hu => (by cases hu)) i

/-- `find_proc` finds the one process with that pid. -/
theorem RowsOk.find {t : Table} (h : RowsOk t.rows) (hi : (t.rows i).used = true) :
    t.find (t.rows i).pid = some i := by
  refine find?_finRange_unique (by simp [hi]) fun j hj => ?_
  simp only [Bool.and_eq_true, beq_iff_eq] at hj
  exact h.distinct j i hj.1 hi hj.2

end Rows

section Numbers

variable {t t' : Table}

theorem Wrapped.range (h : Wrapped t) : -2 ^ 31 ≤ t.nextCtx ∧ t.nextCtx ≤ -2 ^ 31 + 32 := by
  have hcard : t.negative.card ≤ 32 := (card_le_univ _).trans (by simp)
  unfold Wrapped at h
  omega

/-- 16 processes cannot hold 32 contexts. -/
theorem Lockstep.free (h : Lockstep t) : ∃ c, t.ctxs c = none := by
  by_contra hall
  have hown : ∀ c : CtxSlot, ∃ i : ProcSlot, t.ctxs c = some (t.rows i).memctx := by
    intro c
    obtain ⟨id, hid⟩ := Option.ne_none_iff_exists'.mp fun hc => hall ⟨c, hc⟩
    obtain ⟨i, -, hi⟩ := h.owned c id hid
    exact ⟨i, by rw [hid, hi]⟩
  choose f hf using hown
  have hinj : Function.Injective f := by
    intro c c' hcc
    exact h.distinct c c' _ (hf c) (by rw [hcc]; exact hf c')
  have hcard := Fintype.card_le_of_injective f hinj
  simp at hcard

/-- A step that only changes states and `current_pid`. -/
theorem Numbered.states (h : Numbered t) (hrows : SameRows t.rows t'.rows)
    (hpid : t'.nextPid = t.nextPid) (hctxs : t'.ctxs = t.ctxs) (hctx : t'.nextCtx = t.nextCtx) :
    Numbered t' := by
  refine ⟨h.toRowsOk.states hrows, ?_⟩
  rcases h.phase with hl | hw
  · refine .inl ⟨?_, ?_, ?_, fun i hi => ?_, fun c id hc => ?_, fun c c' id hc hc' => ?_⟩
    · rw [hpid]
      exact hl.pos
    · rw [hpid]
      exact hl.small
    · rw [hpid, hctx]
      exact hl.same
    · rw [(hrows i).1] at hi
      rw [(hrows i).2.1, hpid]
      exact hl.below i hi
    · rw [hctxs] at hc
      obtain ⟨i, hi, hid⟩ := hl.owned c id hc
      exact ⟨i, by rw [(hrows i).1, hi], by rw [(hrows i).2.2.1, hid]⟩
    · rw [hctxs] at hc hc'
      exact hl.distinct c c' id hc hc'
  · refine .inr ?_
    unfold Wrapped Table.negative at hw ⊢
    rw [hctx, hctxs]
    exact hw

variable {c : CtxSlot} {i : ProcSlot}

/-- In lockstep an active context has the pid of a process for its id. -/
theorem Lockstep.ids (hl : Lockstep t) (h : RowsOk t.rows) {id : ℤ}
    (hc : t.ctxs c = some id) : 1 ≤ id ∧ id < t.nextPid := by
  obtain ⟨j, hj, hjid⟩ := hl.owned c id hc
  rw [(h.row j).memctx hj] at hjid
  rw [← hjid]
  exact ⟨(h.row j).pos hj, hl.below j hj⟩

section Create

variable {i : ProcSlot} {c : CtxSlot} (hl : Lockstep t) (h : RowsOk t.rows)
  (hfree : (t.rows i).used = false)
  (hrows : t'.rows = update t.rows i ⟨true, t.nextPid, .ready, t.nextPid⟩)
  (hctxs : t'.ctxs = update t.ctxs c (some t.nextPid))

include hl h hfree hrows hctxs in
/-- A new process takes the next pid and the context with that number. -/
theorem Lockstep.create (hpid : t'.nextPid = t.nextPid + 1) (hctx : t'.nextCtx = t.nextPid + 1)
    (hsmall : t.nextPid + 1 < 2 ^ 31) : Lockstep t' := by
  have hne : ∀ {j}, (t.rows j).used = true → j ≠ i := by
    intro j hj he
    rw [he, hfree] at hj
    cases hj
  have hpos := hl.pos
  -- no old context has the new id
  have hnew : ∀ {c' id}, c' ≠ c → t'.ctxs c' = some id → t.ctxs c' = some id ∧ id ≠ t.nextPid := by
    intro c' id hcc hc'
    rw [hctxs, update_of_ne hcc] at hc'
    exact ⟨hc', (hl.ids h hc').2.ne⟩
  have hself : ∀ {id}, t'.ctxs c = some id → id = t.nextPid := by
    intro id hc'
    rw [hctxs, update_self] at hc'
    exact (Option.some.inj hc').symm
  refine ⟨by omega, by omega, by omega, ?_, fun c' id hc' => ?_, fun c₁ c₂ id h₁ h₂ => ?_⟩
  · rw [hrows, hpid]
    refine (forall_update_iff _ fun _ (r : Row) => r.used = true → r.pid < t.nextPid + 1).mpr
      ⟨?_, fun j _ hj => ?_⟩
    · intro _
      show t.nextPid < t.nextPid + 1
      omega
    · have := hl.below j hj
      omega
  · by_cases hcc : c' = c
    · subst hcc
      refine ⟨i, ?_⟩
      rw [hrows, update_self, hself hc']
      exact ⟨rfl, rfl⟩
    · obtain ⟨j, hj, hjid⟩ := hl.owned c' id (hnew hcc hc').1
      refine ⟨j, ?_⟩
      rw [hrows, update_of_ne (hne hj)]
      exact ⟨hj, hjid⟩
  · by_cases h1 : c₁ = c
    · by_cases h2 : c₂ = c
      · rw [h1, h2]
      · subst h1
        exact absurd (hself h₁) (hnew h2 h₂).2
    · by_cases h2 : c₂ = c
      · subst h2
        exact absurd (hself h₂) (hnew h1 h₁).2
      · exact hl.distinct c₁ c₂ id (hnew h1 h₁).1 (hnew h2 h₂).1

include hl h hctxs in
/-- The last pid: from now on context ids are negative, and none of them is in use yet. -/
theorem Lockstep.wrap (hctx : t'.nextCtx = -2 ^ 31) : Wrapped t' := by
  have hempty : t'.negative = ∅ := by
    refine filter_eq_empty_iff.mpr fun c' _ => ?_
    rintro ⟨id, hc', hneg⟩
    rw [hctxs] at hc'
    by_cases hcc : c' = c
    · rw [hcc, update_self] at hc'
      have hpos := hl.pos
      rw [Option.some.inj hc'] at hpos
      omega
    · rw [update_of_ne hcc] at hc'
      have hpos := (hl.ids h hc').1
      omega
  unfold Wrapped
  rw [hempty, hctx]
  simp

end Create

/-- Creating a process happens in lockstep only, and keeps it or wraps both counters. -/
theorem Numbered.create (h : Numbered t)
    (hfree : (t.rows i).used = false) (hid : 0 ≤ t.nextCtx) :
    Numbered
      { rows := update t.rows i ⟨true, t.nextPid, .ready, t.nextCtx⟩
        nextPid := toInt (t.nextPid + 1)
        current := t.current
        ctxs := update t.ctxs c (some t.nextCtx)
        nextCtx := toInt (t.nextCtx + 1) } := by
  rcases h.phase with hl | hw
  swap
  · have hrange := hw.range
    omega
  have hpos := hl.pos
  rw [hl.same]
  have hrow : RowOk ⟨true, t.nextPid, .ready, t.nextPid⟩ :=
    ⟨fun hu => (by cases hu), fun _ => hl.pos, fun _ => rfl⟩
  refine ⟨h.write hrow (fun _ j hj => (hl.below j hj).ne) i, ?_⟩
  rcases toInt_succ (by omega) hl.small with ⟨hsmall, hsucc⟩ | ⟨-, hsucc⟩
  · exact .inl (hl.create h.toRowsOk hfree rfl rfl hsucc hsucc hsmall)
  · exact .inr (hl.wrap h.toRowsOk rfl hsucc)

/-- A context that is lost with a negative id counts as one more of them. -/
theorem Wrapped.leak (h : Wrapped t) (hc : t.ctxs c = none) (hid : t.nextCtx < 0)
    (hctxs : t'.ctxs = update t.ctxs c (some t.nextCtx))
    (hnext : t'.nextCtx = toInt (t.nextCtx + 1)) : Wrapped t' := by
  have hnew : t'.negative = insert c t.negative := by
    ext c'
    unfold Table.negative
    rw [hctxs]
    by_cases hcc : c' = c
    · subst hcc
      simp [hid]
    · simp [hcc]
  have hnot : c ∉ t.negative := by
    intro hmem
    obtain ⟨-, id, he, -⟩ := mem_filter.mp hmem
    rw [hc] at he
    cases he
  have hrange := h.range
  unfold Wrapped at h ⊢
  rw [hnext, toInt_of_range (by omega) (by omega), hnew, card_insert_of_notMem hnot]
  push_cast
  omega

/-- Destroying the context of a process takes away no negative id. -/
theorem Wrapped.drop {id : ℤ} (h : Wrapped t) (hpos : 1 ≤ id) (hctxs : t'.ctxs = t.dropCtx id)
    (hnext : t'.nextCtx = t.nextCtx) : Wrapped t' := by
  have hsame : t'.negative = t.negative := by
    ext c
    unfold Table.negative
    rw [hctxs]
    simp only [mem_filter, mem_univ, true_and]
    unfold Table.dropCtx
    by_cases hf : t.findCtx id = some c
    · rw [if_pos hf, Table.findCtx_some hf]
      constructor
      · rintro ⟨id', he, -⟩
        cases he
      · rintro ⟨id', he, hneg⟩
        cases he
        omega
    · rw [if_neg hf]
  unfold Wrapped at h ⊢
  rw [hsame, hnext]
  exact h

/-- Destroying the context of a process leaves no context without an owner. -/
theorem Lockstep.drop (hl : Lockstep t) :
    Lockstep { t with
      rows := update t.rows i Row.zero
      ctxs := t.dropCtx (t.rows i).memctx } := by
  have hkept : ∀ {c id}, t.dropCtx (t.rows i).memctx c = some id →
      t.ctxs c = some id ∧ t.findCtx (t.rows i).memctx ≠ some c := by
    intro c id hc
    unfold Table.dropCtx at hc
    split at hc
    · cases hc
    · exact ⟨hc, by assumption⟩
  refine ⟨hl.pos, hl.small, hl.same, ?_, fun c id hc => ?_, fun c c' id hc hc' => ?_⟩
  · refine (forall_update_iff _ fun _ (r : Row) => r.used = true → r.pid < t.nextPid).mpr
      ⟨?_, fun j _ => hl.below j⟩
    intro hu
    cases hu
  · obtain ⟨hold, hfound⟩ := hkept hc
    obtain ⟨j, hj, hid⟩ := hl.owned c id hold
    have hji : j ≠ i := by
      intro he
      subst he
      -- the context found for that id is this one
      cases hf : t.findCtx (t.rows j).memctx with
      | none =>
        rw [hid] at hf
        exact Table.findCtx_none hf c hold
      | some c' =>
        have hc' := Table.findCtx_some hf
        rw [hid] at hc'
        rw [hl.distinct c' c id hc' hold] at hf
        exact hfound hf
    refine ⟨j, ?_, ?_⟩
    · show (update t.rows i Row.zero j).used = true
      rw [update_of_ne hji]
      exact hj
    · show (update t.rows i Row.zero j).memctx = id
      rw [update_of_ne hji]
      exact hid
  · exact hl.distinct c c' id (hkept hc).1 (hkept hc').1

/-- A process goes, and its context with it. -/
theorem Numbered.drop (h : Numbered t) (hused : (t.rows i).used = true) :
    Numbered { t with
      rows := update t.rows i Row.zero
      ctxs := t.dropCtx (t.rows i).memctx } := by
  refine ⟨h.toRowsOk.clear i, ?_⟩
  rcases h.phase with hl | hw
  · exact .inl hl.drop
  · refine .inr (hw.drop ?_ rfl rfl)
    rw [(h.row i).memctx hused]
    exact (h.row i).pos hused

/-- The state of one used row is written. -/
theorem SameRows.write {f : ProcSlot → Row} (h : SameRows rows f) (hused : (rows i).used = true)
    (st : ProcStatus) : SameRows rows (update f i { rows i with state := st }) := by
  intro j
  by_cases hji : j = i
  · subst hji
    rw [update_self]
    refine ⟨rfl, rfl, rfl, fun hu => ?_⟩
    rw [hused] at hu
    cases hu
  · rw [update_of_ne hji]
    exact h j

theorem sameRows_refl (rows : ProcSlot → Row) : SameRows rows rows :=
  fun _ => ⟨rfl, rfl, rfl, fun _ => rfl⟩

theorem sameRows_park (t : Table) : SameRows t.rows t.park := by
  intro j
  unfold Table.park
  split
  · rename_i hpark
    refine ⟨rfl, rfl, rfl, fun hu => ?_⟩
    rw [(Table.find_some hpark.2.1).1] at hu
    cases hu
  · exact ⟨rfl, rfl, rfl, fun _ => rfl⟩

theorem TStep.numbered (h : TStep t t') (ht : Numbered t) : Numbered t' := by
  cases h with
  | create hfree _ hid => exact ht.create hfree hid
  | @leak i c _ hc hid =>
    refine ⟨ht.toRowsOk.clear i, ?_⟩
    rcases ht.phase with hl | hw
    · have h1 := hl.pos
      have h2 := hl.same
      omega
    · exact .inr (hw.leak hc hid rfl rfl)
  | @full i _ hall =>
    refine ⟨ht.toRowsOk.clear i, ?_⟩
    rcases ht.phase with hl | hw
    · obtain ⟨c, hc⟩ := hl.free
      exact absurd hc (hall c)
    · exact .inr hw
  | @setCurrent i hlive => exact ht.states ((sameRows_park t).write hlive.1 _) rfl rfl rfl
  | @exit i hlive _ => exact ht.states ((sameRows_refl _).write hlive.1 _) rfl rfl rfl
  | drop hused _ => exact ht.drop hused
  | idle => exact ht.states (fun _ => ⟨rfl, rfl, rfl, fun _ => rfl⟩) rfl rfl rfl

end Numbers

/-! ## §2. The current process. -/

/-- `current_pid` and the states agree, and process 1 does not end. -/
structure Current (t : Table) : Prop where
  names : t.current ≠ 0 →
    ∃ i, (t.rows i).used = true ∧ (t.rows i).pid = t.current ∧ (t.rows i).state = .running
  only : ∀ i, (t.rows i).state = .running → (t.rows i).pid = t.current
  init : ∀ i, (t.rows i).used = true → (t.rows i).pid = 1 →
    procIsTerminalState (t.rows i).state = false

section CurrentPid

variable {t t' : Table}

variable {i : ProcSlot}

/-- A running row is in use. -/
theorem RowsOk.used_of_running {rows : ProcSlot → Row} (h : RowsOk rows)
    (hi : (rows i).state = .running) : (rows i).used = true := by
  by_contra hu
  rw [(h.row i).unused (by simpa using hu)] at hi
  cases hi

/-- A row that is not running was written, with one that is not running either. -/
theorem Current.write {r : Row} (h : Current t)
    (hold : (t.rows i).state ≠ .running) (hnew : r.state ≠ .running)
    (hinit : r.used = true → r.pid = 1 → procIsTerminalState r.state = false)
    (hrows : t'.rows = update t.rows i r) (hcur : t'.current = t.current) :
    Current t' := by
  refine ⟨fun h0 => ?_, ?_, ?_⟩
  · rw [hcur] at h0 ⊢
    obtain ⟨j, hj, hpid, hrun⟩ := h.names h0
    have hji : j ≠ i := by
      intro he
      exact hold (he ▸ hrun)
    refine ⟨j, ?_⟩
    rw [hrows, update_of_ne hji]
    exact ⟨hj, hpid, hrun⟩
  · rw [hrows, hcur]
    exact (forall_update_iff _ fun _ (x : Row) => x.state = .running → x.pid = t.current).mpr
      ⟨fun he => absurd he hnew, fun j _ => h.only j⟩
  · rw [hrows]
    exact (forall_update_iff _ fun _ (x : Row) => x.used = true → x.pid = 1 →
      procIsTerminalState x.state = false).mpr ⟨hinit, fun j _ => h.init j⟩

theorem Current.setCurrent (h : Current t) (ht : Numbered t)
    (hlive : (t.rows i).live) :
    Current { t with
      rows := update t.park i { t.rows i with state := .running }
      current := (t.rows i).pid } := by
  refine ⟨fun _ => ⟨i, ?_⟩, ?_, ?_⟩
  · dsimp only
    rw [update_self]
    exact ⟨hlive.1, rfl, rfl⟩
  · refine (forall_update_iff _ fun _ (r : Row) => r.state = .running → r.pid = (t.rows i).pid).mpr
      ⟨fun _ => rfl, ?_⟩
    intro j _ hrun
    -- a row still running after parking would have been the current one, and parked
    unfold Table.park at hrun
    split at hrun
    · cases hrun
    · rename_i hpark
      have hused := ht.used_of_running hrun
      have hcur := h.only j hrun
      have hfind := ht.find hused
      rw [hcur] at hfind
      have hpos := (ht.row j).pos hused
      exact absurd ⟨by omega, hfind, hrun⟩ hpark
  · refine (forall_update_iff _ fun _ (r : Row) => r.used = true → r.pid = 1 →
      procIsTerminalState r.state = false).mpr ⟨fun _ _ => rfl, ?_⟩
    intro j _ hj hpid
    unfold Table.park at hj hpid ⊢
    split
    · rfl
    · rename_i hpark
      rw [if_neg hpark] at hj hpid
      exact h.init j hj hpid

theorem Current.exit (h : Current t) (ht : Numbered t) (hlive : (t.rows i).live)
    (hpid : (t.rows i).pid ≠ 1) :
    Current { t with
      rows := update t.rows i { t.rows i with state := .exited }
      current := if t.current = (t.rows i).pid then 0 else t.current } := by
  refine ⟨fun h0 => ?_, ?_, ?_⟩
  · dsimp only at h0 ⊢
    split at h0
    · exact absurd rfl h0
    rename_i hcur
    rw [if_neg hcur]
    obtain ⟨j, hj, hjpid, hrun⟩ := h.names h0
    have hji : j ≠ i := by
      intro he
      exact hcur (he ▸ hjpid.symm)
    refine ⟨j, ?_⟩
    rw [update_of_ne hji]
    exact ⟨hj, hjpid, hrun⟩
  · refine (forall_update_iff _ fun _ (r : Row) => r.state = .running →
      r.pid = if t.current = (t.rows i).pid then 0 else t.current).mpr ⟨?_, ?_⟩
    · intro he
      cases he
    · intro j hji hrun
      have hjpid := h.only j hrun
      rw [if_neg, hjpid]
      intro hcur
      exact hji (ht.distinct j i (ht.used_of_running hrun) hlive.1 (hjpid.trans hcur))
  · exact (forall_update_iff _ fun _ (r : Row) => r.used = true → r.pid = 1 →
      procIsTerminalState r.state = false).mpr ⟨fun _ he => absurd he hpid, fun j _ => h.init j⟩

theorem TStep.current (h : TStep t t') (ht : Numbered t) (hc : Current t) : Current t' := by
  have hfree : ∀ {i}, (t.rows i).used = false → (t.rows i).state ≠ .running := by
    intro i hi he
    rw [(ht.row i).unused hi] at he
    cases he
  have hzero : Row.zero.state ≠ .running := by decide
  have hzero' : Row.zero.used = true → Row.zero.pid = 1 →
      procIsTerminalState Row.zero.state = false := fun _ _ => rfl
  cases h with
  | create hf => exact hc.write (hfree hf) (by simp) (fun _ _ => rfl) rfl rfl
  | leak hf => exact hc.write (hfree hf) hzero hzero' rfl rfl
  | full hf => exact hc.write (hfree hf) hzero hzero' rfl rfl
  | setCurrent hlive => exact hc.setCurrent ht hlive
  | exit hlive hpid => exact hc.exit ht hlive hpid
  | drop _ hidle =>
    refine hc.write ?_ hzero hzero' rfl rfl
    rcases hidle with hexit | ⟨hready, -⟩
    · rw [hexit]
      decide
    · rw [hready]
      decide
  | @idle pid hcur hgone =>
    -- `current_pid` names a running process, so it was 0 already
    have h0 : t.current = 0 := by
      by_contra h0
      obtain ⟨i, hi, hpid, hrun⟩ := hc.names h0
      have hterm := hgone i (by rw [← hcur, ← hpid]; exact ht.find hi)
      rw [hrun] at hterm
      cases hterm
    refine ⟨fun h => absurd rfl h, fun i hi => ?_, hc.init⟩
    rw [hc.only i hi, h0]

/-- Process 1 stays in the table. -/
theorem TStep.keepsInit (h : TStep t t') (hc : Current t)
    (hinit : ∃ i, (t.rows i).used = true ∧ (t.rows i).pid = 1) :
    ∃ i, (t'.rows i).used = true ∧ (t'.rows i).pid = 1 := by
  obtain ⟨k, hk, hpid⟩ := hinit
  have hother : ∀ {i r}, k ≠ i → (update t.rows i r k).used = true ∧
      (update t.rows i r k).pid = 1 := by
    intro i r hki
    rw [update_of_ne hki]
    exact ⟨hk, hpid⟩
  have hne : ∀ {i}, (t.rows i).used = false → k ≠ i := by
    intro i hi he
    rw [← he, hk] at hi
    cases hi
  cases h with
  | create hf => exact ⟨k, hother (hne hf)⟩
  | leak hf => exact ⟨k, hother (hne hf)⟩
  | full hf => exact ⟨k, hother (hne hf)⟩
  | @setCurrent i hlive =>
    have hrow := (sameRows_park t).write hlive.1 .running k
    exact ⟨k, hrow.1.trans hk, hrow.2.1.trans hpid⟩
  | @exit i hlive _ =>
    have hrow := (sameRows_refl t.rows).write hlive.1 .exited k
    exact ⟨k, hrow.1.trans hk, hrow.2.1.trans hpid⟩
  | @drop i hused hidle =>
    refine ⟨k, hother fun he => ?_⟩
    rcases hidle with hexit | ⟨-, hne⟩
    · have hterm := hc.init k hk hpid
      rw [he, hexit] at hterm
      cases hterm
    · exact hne (he ▸ hpid)
  | idle => exact ⟨k, hk, hpid⟩

end CurrentPid

/-- The two invariants together. -/
structure TableInv (t : Table) : Prop where
  numbered : Numbered t
  current : Current t

variable {t t' : Table}

theorem TStep.inv (h : TStep t t') (ht : TableInv t) : TableInv t' :=
  ⟨h.numbered ht.numbered, h.current ht.numbered ht.current⟩

theorem TRun.inv (h : TRun t t') (ht : TableInv t) : TableInv t' :=
  inv_of_run TableInv h ht fun hinv hstep => hstep.inv hinv

theorem boot_inv (s : ProcState) : TableInv (boot s).state.table := by
  have hused : ∀ i, ((boot s).state.table.rows i).used ≠ true := fun i hi => by cases hi
  have hctx : ∀ c, (boot s).state.table.ctxs c = none := fun _ => rfl
  refine ⟨⟨⟨fun _ => rowOk_zero, ?_⟩, .inl ⟨?_, ?_, rfl, ?_, ?_, ?_⟩⟩, ⟨?_, ?_, ?_⟩⟩
  · exact fun i _ hi => absurd hi (hused i)
  · show (1 : ℤ) ≤ 1
    exact le_refl _
  · show (1 : ℤ) < 2 ^ 31
    decide
  · exact fun i hi => absurd hi (hused i)
  · intro c id hc
    rw [hctx] at hc
    cases hc
  · intro c _ id hc
    rw [hctx] at hc
    cases hc
  · exact fun h => absurd rfl h
  · intro i hi
    cases hi
  · exact fun i hi => absurd hi (hused i)

/-! ## §3. A spawn. -/

section Spawn

variable {s s' : ProcState} {env : SpawnEnv} {parentPid : ℤ} {path : Str} {i : ProcSlot}

/-- The steps between the creation and the start do not touch the table. -/
theorem keeps_table (env : SpawnEnv) (pid : ℤ) (t : Table) :
    Keeps env pid fun s => s.table = t where
  alloc := by
    intro s size h
    rcases procAlloc_memory (env.at s) s pid size with heq | ⟨i, -, hmem⟩
    · rw [heq]
      exact h
    · exact (hmem.table (memctxAlloc_keys _ _ _ _)).trans h
  free := by
    intro s s' ptr r h hfree
    rcases procFree_memory hfree with rfl | ⟨i, ok, m, -, hm, hmem⟩
    · exact h
    · exact (hmem.table (memctxFree_keys hm)).trans h
  read := fun h _ => h
  record := fun h _ hsame => ((onlyMemory_setInfo hsame).table ⟨rfl, rfl⟩).trans h

/-- As long as there are contexts to be had, the next pid is above all others. -/
theorem TableInv.lockstep (ht : TableInv s.table)
    (hctx : 0 ≤ (memctxCreate s.memctx s.nextPid 0).1) : Lockstep s.table := by
  have hnext : 0 ≤ s.memctx.nextCtxId := by
    rcases memctxCreate_cases s.memctx s.nextPid 0 with ⟨-, heq⟩ | ⟨c, -, heq⟩
    · rw [heq] at hctx
      exact absurd hctx (show ¬ (0 : ℤ) ≤ -1 by decide)
    · rw [heq] at hctx
      exact hctx
  refine ht.numbered.phase.resolve_right fun hw => ?_
  have hrange := hw.range.2
  rw [show s.table.nextCtx = s.memctx.nextCtxId from rfl] at hrange
  omega

theorem enrolled_rows (s : ProcState) (i : ProcSlot) (e : ProcEntry) :
    (enrolled s i e).table.rows = update s.table.rows i e.row :=
  update_row s.procs i e

/-- The row of the new process. -/
theorem spawned_row (s : ProcState) (i : ProcSlot) (parentPid : ℤ) (path : Str) :
    (spawned s i parentPid path).table.rows i =
      ⟨true, s.nextPid, .ready, (memctxCreate s.memctx s.nextPid 0).1⟩ := by
  rw [spawned, enrolled_rows, update_self]
  rfl

/-- The unwinding finds the new process, and drops it. -/
theorem abandon_spawned_table {t : ProcState} (hi : freeProc s = some i)
    (hctx : 0 ≤ (memctxCreate s.memctx s.nextPid 0).1) (ht : TableInv s.table)
    (hsame : t.table = (spawned s i parentPid path).table) (h : abandon t s.nextPid = .ok s') :
    ∃ ok m, memctxDestroy t.memctx (t.procs i).info.memctx = some (ok, m) ∧
      s' = { t with memctx := m }.setProc i ProcEntry.zero := by
  have hinv : TableInv (spawned s i parentPid path).table :=
    (created_table hi hctx parentPid _).inv ht
  have hrow := spawned_row s i parentPid path
  have hfind : findProc t s.nextPid = some i := by
    have hat := hinv.numbered.find (i := i) (congrArg Row.used hrow)
    rw [hrow] at hat
    rw [findProc_eq, hsame]
    exact hat
  obtain ⟨j, ok, m, hj, hm, rfl⟩ := abandon_cases h
  rw [hfind] at hj
  cases hj
  exact ⟨ok, m, hm, rfl⟩

/-- **A spawn is a run of the abstract table**, up to the start of its program. -/
theorem spawnPrepare_table {p : Prepared} (ht : TableInv s.table)
    (h : spawnPrepare env s parentPid path = .ok (p, s')) : TRun s.table s'.table := by
  rcases spawnPrepare_cases h with
    ⟨r, -, -, rfl⟩ | ⟨i, hi, hparent, -, -, ⟨hctx, -, rfl⟩ | ⟨hctx, -, -, rfl⟩ | ⟨size, hctx, -, hfile⟩⟩
  · exact .refl
  · exact .single (cleared_table hi hctx)
  · exact .single (created_table hi hctx parentPid _)
  have hcreate : TRun s.table (spawned s i parentPid path).table :=
    .single (created_table hi hctx parentPid _)
  cases (keeps_table env s.nextPid (spawned s i parentPid path).table).spawnFile hfile rfl with
  | @unwound t _ _ hsame _ habandon =>
    obtain ⟨ok, m, hm, rfl⟩ := abandon_spawned_table hi hctx ht hsame habandon
    have hrow : t.table.rows i = _ := (congrArg (·.rows i) hsame).trans (spawned_row s i parentPid path)
    -- the parent has a pid below the new one
    have hne : s.nextPid ≠ 1 := by
      obtain ⟨k, hk⟩ := Option.ne_none_iff_exists'.mp hparent
      have hused := (findProc_some hk).1
      have hpos := (ht.numbered.row k).pos hused
      have hbelow := (ht.lockstep hctx).below k hused
      rw [show s.table.nextPid = s.nextPid from rfl] at hbelow
      omega
    rw [table_drop hm]
    refine hcreate.tail ?_
    rw [← hsame]
    refine .drop (by rw [hrow]) (.inr ⟨by rw [hrow], ?_⟩)
    rw [hrow]
    exact hne
  | ready hsame _ =>
    rw [hsame]
    exact hcreate

end Spawn

/-! ## §4. Runs. -/

/-- **Refinement**: a step of the kernel is a run of the abstract table. -/
theorem step_table {m m' : Machine} {e : Event} (ht : TableInv m.state.table) (h : Step m e m') :
    TRun m.state.table m'.state.table := by
  cases h with
  | call h => exact exec_table h
  | spawn h => exact spawnPrepare_table ht h
  | enter h => exact startEnter_table h
  | leave h => exact startLeave_table h

theorem Run.inv {m m' : Machine} {l : List Event} (h : Run m l m')
    (hm : TableInv m.state.table) : TableInv m'.state.table :=
  Trace.inv (fun m => TableInv m.state.table) h hm fun ha hstep => (step_table ha hstep).inv ha

/-- Process 1 is in the table. -/
def HasInit (s : ProcState) : Prop := ∃ i, (s.procs i).used = true ∧ (s.procs i).info.pid = 1

theorem TRun.keepsInit (h : TRun t t') (ht : TableInv t)
    (hinit : ∃ i, (t.rows i).used = true ∧ (t.rows i).pid = 1) :
    ∃ i, (t'.rows i).used = true ∧ (t'.rows i).pid = 1 := by
  have hboth := inv_of_run
    (fun t => TableInv t ∧ ∃ i, (t.rows i).used = true ∧ (t.rows i).pid = 1) h ⟨ht, hinit⟩
    fun hinv hstep => ⟨hstep.inv hinv.1, hstep.keepsInit hinv.1.current hinv.2⟩
  exact hboth.2

theorem Run.keepsInit {m m' : Machine} {l : List Event} (h : Run m l m')
    (hm : TableInv m.state.table) (hinit : HasInit m.state) : HasInit m'.state := by
  refine (Trace.inv (fun m => TableInv m.state.table ∧ HasInit m.state) h ⟨hm, hinit⟩ ?_).2
  intro a b e ha hstep
  have hrun := step_table ha.1 hstep
  exact ⟨hrun.inv ha.1, hrun.keepsInit ha.1 ha.2⟩

/-- A process of the table in the state `RUNNING`. -/
def IsRunning (s : ProcState) (i : ProcSlot) : Prop :=
  (s.procs i).used = true ∧ (s.procs i).info.state = .running

/-- What holds of the process table at any time. -/
structure CurrentOk (s : ProcState) : Prop where
  one : ∀ i j, IsRunning s i → IsRunning s j → i = j
  current : s.currentPid ≠ 0 → ∃ i, IsRunning s i ∧ (s.procs i).info.pid = s.currentPid
  running : ∀ i, IsRunning s i → (s.procs i).info.pid = s.currentPid
  distinct : ∀ i j, (s.procs i).used = true → (s.procs j).used = true →
    (s.procs i).info.pid = (s.procs j).info.pid → i = j
  init : ∀ i, (s.procs i).used = true → (s.procs i).info.pid = 1 →
    procIsTerminalState (s.procs i).info.state = false

theorem TableInv.currentOk {s : ProcState} (h : TableInv s.table) : CurrentOk s := by
  have honly : ∀ i, IsRunning s i → (s.procs i).info.pid = s.currentPid :=
    fun i hi => h.current.only i hi.2
  refine ⟨fun i j hi hj => ?_, fun h0 => ?_, honly, h.numbered.distinct, h.current.init⟩
  · exact h.numbered.distinct i j hi.1 hj.1 ((honly i hi).trans (honly j hj).symm)
  · obtain ⟨i, hused, hpid, hrun⟩ := h.current.names h0
    exact ⟨i, ⟨hused, hrun⟩, hpid⟩

/-- **The current process.**  In every state of every run, in the middle of programs
nested to any depth, `current_pid` and the states agree and the pids are distinct; and
once process 1 is there it stays, in no terminal state. -/
theorem current_process (s : ProcState) {l : List Event} {m : Machine} (h : Run (boot s) l m) :
    CurrentOk m.state ∧
      (HasInit m.state → ∀ l' m', Run m l' m' → HasInit m'.state ∧ CurrentOk m'.state) := by
  have hinv := h.inv (boot_inv s)
  refine ⟨hinv.currentOk, fun hinit l' m' h' => ?_⟩
  exact ⟨h'.keepsInit hinv hinit, (h'.inv hinv).currentOk⟩

/-- Memory before `proc_init`. -/
def blank : ProcState :=
  { procs := fun _ => ProcEntry.zero
    nextPid := 0
    currentPid := 0
    memctx := ⟨fun _ => Memctx.zero, fun _ => MemctxBlock.zero, 0, fun _ => none⟩
    vfs := ⟨fun _ => VfsNode.zero, fun _ => VfsOpen.zero, 0, 0, false, fun _ => none⟩ }

/-- A heap that answers `0x2000` to the memory contexts and nothing to the VFS. -/
def env0 : Env := ⟨fun _ => 0x2000, fun _ => none⟩

/-- Process 1 starts a program that kills itself before it returns: the run is in the
middle of the program first, and then back in process 1. -/
theorem current_process_nested : ∃ l m l' m',
    Run (boot blank) l m ∧ Run m l' m' ∧ m.state.currentPid = 2 ∧ m'.state.currentPid = 1 ∧
      HasInit m.state ∧ CurrentOk m.state ∧ HasInit m'.state ∧ CurrentOk m'.state := by
  have h := run_perform (show [Event.call (.create [] 0), .call (.create [] 1),
    .call (.attachImage 2 [] (some ⟨0, 0, 0x1000, 0x1000, 0x1000⟩)), .call (.setCurrent 1),
    .enter 2].foldlM (perform env0) (boot blank) = some _ from rfl)
  obtain ⟨hok, hlater⟩ := current_process blank h
  obtain ⟨hinit', hok'⟩ := hlater ⟨0, rfl, rfl⟩ [.call (.kill 2 9), .leave] _
    (@run_perform env0 _ _ _ rfl)
  exact ⟨_, _, [.call (.kill 2 9), .leave], _, h, @run_perform env0 _ _ _ rfl, rfl, rfl,
    ⟨0, rfl, rfl⟩, hok, hinit', hok'⟩

end ExoCore.Proc
