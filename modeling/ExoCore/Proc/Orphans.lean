/-
  ExoCore.Proc.Orphans — every process has a parent that can REAP it.

  `proc_exit_locked` hands the children of a process to process 1, so whoever is in
  the table has a parent that has not ended.  `proc_create` looks only whether the
  parent is IN the table: it accepts one that has ended already, and when that one
  is reaped its new child is left with a parent that does not exist.

  Main results:
    • `CallStep.tended`  — one call keeps parents alive, if no child is created under
      a process that has ended;
    • `no_orphans`       — every run of such calls;
    • `orphan_is_left`   — five calls after which a process can be reaped by nobody.
-/
import ExoCore.Proc.Lives

namespace ExoCore.Proc

open ExoCore.Lib ExoCore.Vfs Function

/-! ## §1. The invariant. -/

/-- **Everybody is looked after**: the parent is alive, and process 1 is there. -/
structure Tended (l : Lives) : Prop where
  parent : ∀ i, (l i).used = true → (l i).pid ≠ 1 → ∃ j, (l j).Live ∧ (l j).pid = (l i).parentPid
  init : (∃ i, (l i).used = true) → ∃ j, (l j).used = true ∧ (l j).pid = 1

/-- No process is created under one that has ended. -/
def UnderLive (s : ProcState) : Op → Prop
  | .create _ parentPid => parentPid = 0 ∨ LiveProc s parentPid
  | _ => True

instance (s : ProcState) (op : Op) : Decidable (UnderLive s op) := by
  cases op <;> unfold UnderLive LiveProc <;> infer_instance

section Steps

variable {l l' : Lives} {i : ProcSlot}

/-- A slot that was not in use is written: the others stay. -/
theorem used_update {x : Life} {j : ProcSlot} (hfree : (l i).used = false)
    (hj : (l j).used = true) : update l i x j = l j := by
  refine update_of_ne (fun he => ?_) _ _
  rw [he, hfree] at hj
  cases hj

theorem Tended.write (h : Tended l) {x : Life} (hfree : (l i).used = false)
    (hx : x.used = true → x.pid ≠ 1 → ∃ j, (l j).Live ∧ (l j).pid = x.parentPid)
    (hinit : x.used = true → x.pid = 1 ∨ ∃ j, (l j).used = true) :
    Tended (update l i x) := by
  have hkeep : ∀ {p}, (∃ j, (l j).used = true ∧ (l j).pid = p) →
      ∃ j, (update l i x j).used = true ∧ (update l i x j).pid = p := by
    rintro p ⟨j, hj, hp⟩
    refine ⟨j, ?_⟩
    rw [used_update hfree hj]
    exact ⟨hj, hp⟩
  have hlive : ∀ {p}, (∃ j, (l j).Live ∧ (l j).pid = p) →
      ∃ j, (update l i x j).Live ∧ (update l i x j).pid = p := by
    rintro p ⟨j, hj, hp⟩
    refine ⟨j, ?_⟩
    rw [used_update hfree hj.1]
    exact ⟨hj, hp⟩
  refine ⟨fun k hk hpid => ?_, ?_⟩
  · by_cases hki : k = i
    · subst hki
      rw [update_self] at hk hpid ⊢
      exact hlive (hx hk hpid)
    · rw [update_of_ne hki] at hk hpid ⊢
      exact hlive (h.parent k hk hpid)
  · rintro ⟨k, hk⟩
    by_cases hki : k = i
    · subst hki
      rw [update_self] at hk
      rcases hinit hk with h1 | hother
      · exact ⟨k, by rw [update_self]; exact hk, by rw [update_self]; exact h1⟩
      · exact hkeep (h.init hother)
    · rw [update_of_ne hki] at hk
      exact hkeep (h.init ⟨k, hk⟩)

theorem Tended.moved (h : Tended l) (hs : OnlyStates l l') : Tended l' := by
  refine ⟨fun k hk hk1 => ?_, ?_⟩
  · rw [hs.used] at hk
    rw [hs.pid] at hk1
    obtain ⟨j, hj, hp⟩ := h.parent k hk hk1
    exact ⟨j, (hs.live_iff j).mpr hj, by rw [hs.pid, hs.parentPid]; exact hp⟩
  · rintro ⟨k, hk⟩
    rw [hs.used] at hk
    obtain ⟨j, hj, h1⟩ := h.init ⟨k, hk⟩
    exact ⟨j, by rw [hs.used]; exact hj, by rw [hs.pid]; exact h1⟩

/-- **A process ends**: its children go to process 1, and nobody else is its child. -/
theorem Tended.buried (h : Tended l) {pid : ℤ} (status : ℤ) (hpid : (l i).pid = pid) (hne : pid ≠ 1)
    (hinit : ∀ j, (l j).used = true → (l j).pid = 1 → procIsTerminalState (l j).state = false) :
    Tended (l.buried i pid status) := by
  -- whoever is not `pid` is as alive as before
  have hlive : ∀ {j}, (l j).Live → (l j).pid ≠ pid → (l.buried i pid status j).Live := by
    intro j hj hjp
    have hji : j ≠ i := by
      intro he
      rw [he] at hjp
      exact hjp hpid
    refine ⟨by rw [buried_used]; exact hj.1, ?_⟩
    rw [(buried_other l pid status hji).1]
    exact hj.2
  refine ⟨fun k hk hk1 => ?_, ?_⟩
  · rw [buried_used] at hk
    rw [buried_pid] at hk1
    rw [buried_parentPid]
    split
    · obtain ⟨j, hj, h1⟩ := h.init ⟨k, hk⟩
      refine ⟨j, hlive ⟨hj, hinit j hj h1⟩ ?_, by rw [buried_pid]; exact h1⟩
      rw [h1]
      exact hne.symm
    · rename_i hother
      obtain ⟨j, hj, hp⟩ := h.parent k hk hk1
      refine ⟨j, hlive hj ?_, by rw [buried_pid]; exact hp⟩
      rw [hp]
      exact fun he => hother ⟨hk, he⟩
  · rintro ⟨k, hk⟩
    rw [buried_used] at hk
    obtain ⟨j, hj, h1⟩ := h.init ⟨k, hk⟩
    exact ⟨j, by rw [buried_used]; exact hj, by rw [buried_pid]; exact h1⟩

/-- **A process is reaped**: it had ended, so it was nobody's parent. -/
theorem Tended.reaped (h : Tended l) (hi : (l i).state = .exited)
    (hinit : ∀ j, (l j).used = true → (l j).pid = 1 → procIsTerminalState (l j).state = false) :
    Tended (update l i Life.zero) := by
  have hlive : ∀ {j}, (l j).Live → j ≠ i := by
    intro j hj he
    rw [he] at hj
    have hterm := hj.2
    rw [hi] at hterm
    cases hterm
  have hne : ∀ {k}, (update l i Life.zero k).used = true → k ≠ i := by
    intro k hk he
    rw [he, update_self] at hk
    cases hk
  refine ⟨fun k hk hk1 => ?_, ?_⟩
  · have hki := hne hk
    rw [update_of_ne hki] at hk hk1 ⊢
    obtain ⟨j, hj, hp⟩ := h.parent k hk hk1
    refine ⟨j, ?_⟩
    rw [update_of_ne (hlive hj)]
    exact ⟨hj, hp⟩
  · rintro ⟨k, hk⟩
    have hki := hne hk
    rw [update_of_ne hki] at hk
    obtain ⟨j, hj, h1⟩ := h.init ⟨k, hk⟩
    refine ⟨j, ?_⟩
    rw [update_of_ne (hlive ⟨hj, hinit j hj h1⟩)]
    exact ⟨hj, h1⟩

end Steps

/-- **One call.** -/
theorem CallStep.tended {s s' : ProcState} (hstep : CallStep UnderLive s s')
    (hinv : TableInv s.table) (h : Tended s.lives) : Tended s'.lives := by
  have hok := hinv.currentOk
  cases hstep with
  | @call env op r _ _ hop hexec =>
    have hlife := exec_life hexec
    generalize s'.lives = l' at hlife
    cases hlife with
    | quiet _ => exact h
    | cleared hfree _ => exact h.write hfree (fun hu => by cases hu) fun hu => by cases hu
    | @born name parentPid i hfree hparent =>
      refine h.write hfree (fun _ hpid => ?_) fun _ => ?_
      · -- the first process is process 1; the others have a live parent
        rcases hop with h0 | ⟨j, hj, hlive⟩
        · rcases hparent with ⟨-, h1⟩ | ⟨j, hj, hp⟩
          · exact absurd h1 hpid
          · have hpos := (hinv.numbered.row j).pos hj
            rw [h0] at hp
            have : (s.table.rows j).pid = 0 := hp
            omega
        · exact ⟨j, ⟨(findProc_life hj).1, hlive⟩, (findProc_life hj).2⟩
      · rcases hparent with ⟨-, h1⟩ | ⟨j, hj, -⟩
        · exact .inl h1
        · exact .inr ⟨j, hj⟩
    | moved hs => exact h.moved hs
    | buried _ _ hpid hne => exact h.buried _ hpid hne hok.init
    | reaped _ _ _ hstate => exact h.reaped hstate hok.init

/-- **No orphan without a reaper**: in every run from `proc_init` in which no process is
created under one that has ended, every process other than 1 has a parent in the table,
the parent has not ended, and `proc_wait` by the parent does not refuse a child that has. -/
theorem no_orphans (s₀ : ProcState) {s : ProcState} (hrun : CallRun UnderLive (procInit s₀) s)
    {i : ProcSlot} (hi : (s.procs i).used = true) (hpid : (s.procs i).info.pid ≠ 1) :
    ∃ j, (s.procs j).used = true ∧ (s.procs j).info.pid = (s.procs i).info.parentPid ∧
      procIsTerminalState (s.procs j).info.state = false ∧
      ((s.procs i).info.state = .exited → ∀ r s',
        procWait s (s.procs j).info.pid (s.procs i).info.pid = .ok (r, s') →
          r = some (s.procs i).info.exitStatus) := by
  have hinit : Tended (procInit s₀).lives := by
    refine ⟨fun i hi => ?_, ?_⟩
    · cases hi
    · rintro ⟨i, hi⟩
      cases hi
  obtain ⟨hinv, h⟩ := inv_of_run (fun s : ProcState => TableInv s.table ∧ Tended s.lives) hrun
    ⟨procInit_inv s₀, hinit⟩ fun h hstep => ⟨hstep.inv h.1, hstep.tended h.1 h.2⟩
  obtain ⟨j, hj, hp⟩ := h.parent i hi hpid
  refine ⟨j, hj.1, hp, hj.2, fun hexit r s' hwait => ?_⟩
  have hfind : findProc s (s.procs i).info.pid = some i := hinv.numbered.find (i := i) hi
  unfold procWait at hwait
  rw [hfind] at hwait
  dsimp only at hwait
  rw [if_neg (fun hor => hor.elim (fun he => he hp.symm) fun he => he hexit)] at hwait
  split at hwait
  · cases hwait
  · cases hwait
    rfl

/-- Process 1 has a child that has ended. -/
theorem no_orphans_child : ∃ s, CallRun UnderLive (procInit blank) s ∧
    ∃ j, (s.procs j).info.pid = 1 ∧ ∀ r s', procWait s (s.procs j).info.pid 2 = .ok (r, s') →
      r = some 7 := by
  have hrun := callRun_calls (show calls UnderLive env0 (procInit blank)
    [.create [] 0, .create [] 1, .exit 2 7] = some _ from rfl)
  refine ⟨_, hrun, ?_⟩
  obtain ⟨j, -, hp, -, hwait⟩ := no_orphans blank hrun (i := 1) rfl (by decide)
  exact ⟨j, hp, hwait rfl⟩

/-- **A child of the dead**: process 2 ends, process 3 is created under it, process 1 reaps
process 2.  Process 3 now has a parent that is not in the table, and once it has ended
`proc_wait` refuses it to everybody who is. -/
theorem orphan_is_left : ∃ s i, CallRun (fun _ _ => True) (procInit blank) s ∧
    (s.procs i).used = true ∧ (s.procs i).info.pid = 3 ∧ (s.procs i).info.state = .exited ∧
      ∀ j, (s.procs j).used = true → (s.procs j).info.pid ≠ (s.procs i).info.parentPid := by
  have hrun := callRun_calls (show calls (fun _ _ => True) env0 (procInit blank)
    [.create [] 0, .create [] 1, .exit 2 7, .create [] 2, .wait 1 2, .exit 3 5] = some _ from rfl)
  refine ⟨_, 2, hrun, rfl, rfl, rfl, ?_⟩
  decide

end ExoCore.Proc
