/-
  ExoCore.Proc.Focus — who is current AROUND a program.

  `Focus t p`: as long as process `p` can run it is the current one, and once it
  cannot, nobody is.  Each call that `p` makes keeps this; `proc_start_flat` gives the
  focus to the process it starts and afterwards hands it back to the process that was
  current before, whatever the program did in between (`startFlat_focus`).
-/
import ExoCore.Proc.Lives

namespace ExoCore.Proc

open ExoCore.Lib ExoCore.Vfs Function

/-! ## §1. The focus. -/

/-- The process `p` is there and can run. -/
def Table.LiveAt (t : Table) (p : ℤ) : Prop := ∃ i, (t.rows i).live ∧ (t.rows i).pid = p

/-- **`p` is current while it can run**, and afterwards nobody is. -/
structure Focus (t : Table) (p : ℤ) : Prop where
  live : t.LiveAt p → t.current = p
  gone : ¬ t.LiveAt p → t.current = 0

section Table

variable {t t' : Table} {p : ℤ} {i : ProcSlot}

theorem liveProc_iff {s : ProcState} (h : RowsOk s.table.rows) :
    LiveProc s p ↔ s.table.LiveAt p := by
  constructor
  · rintro ⟨i, hi, hlive⟩
    obtain ⟨hused, hpid⟩ := findProc_some hi
    exact ⟨i, ⟨hused, hlive⟩, hpid⟩
  · rintro ⟨i, hlive, rfl⟩
    exact ⟨i, h.find hlive.1, hlive.2⟩

/-- Whoever is current can run. -/
theorem TableInv.current_live (h : TableInv t) (h0 : t.current ≠ 0) : t.LiveAt t.current := by
  obtain ⟨i, hused, hpid, hrun⟩ := h.current.names h0
  refine ⟨i, ⟨hused, ?_⟩, hpid⟩
  rw [hrun]
  rfl

theorem TableInv.focus_current (h : TableInv t) : Focus t t.current := by
  refine ⟨fun _ => rfl, fun hgone => ?_⟩
  by_contra h0
  exact hgone (h.current_live h0)

/-- Pid 0 is nobody. -/
theorem TableInv.not_live_zero (h : TableInv t) : ¬ t.LiveAt 0 := by
  rintro ⟨i, hlive, hpid⟩
  have hpos := (h.numbered.row i).pos hlive.1
  omega

/-- A row of another process was written. -/
theorem Focus.write {r : Row} (h : Focus t p) (hold : (t.rows i).live → (t.rows i).pid ≠ p)
    (hnew : r.live → r.pid ≠ p) (hrows : t'.rows = update t.rows i r)
    (hcur : t'.current = t.current) : Focus t' p := by
  have hiff : t'.LiveAt p ↔ t.LiveAt p := by
    constructor
    · rintro ⟨j, hlive, hpid⟩
      rw [hrows] at hlive hpid
      by_cases hji : j = i
      · subst hji
        rw [update_self] at hlive hpid
        exact absurd hpid (hnew hlive)
      · rw [update_of_ne hji] at hlive hpid
        exact ⟨j, hlive, hpid⟩
    · rintro ⟨j, hlive, hpid⟩
      have hji : j ≠ i := by
        intro he
        subst he
        exact hold hlive hpid
      refine ⟨j, ?_⟩
      rw [hrows, update_of_ne hji]
      exact ⟨hlive, hpid⟩
  refine ⟨fun hl => ?_, fun hl => ?_⟩
  · rw [hcur]
    exact h.live (hiff.mp hl)
  · rw [hcur]
    exact h.gone fun hx => hl (hiff.mpr hx)

/-- `proc_exit_locked` for the process in slot `i`. -/
theorem Focus.exit (h : Focus t p) (ht : TableInv t) (hlive : (t.rows i).live) :
    Focus { t with
      rows := update t.rows i { t.rows i with state := .exited }
      current := if t.current = (t.rows i).pid then 0 else t.current } p := by
  have hdead : ¬ Row.live { t.rows i with state := .exited } := fun hx => by cases hx.2
  by_cases hpid : (t.rows i).pid = p
  · -- `p` itself: it was current, and nobody is afterwards
    have hcur : t.current = (t.rows i).pid := (h.live ⟨i, hlive, hpid⟩).trans hpid.symm
    have hgone : ¬ Table.LiveAt { t with
        rows := update t.rows i { t.rows i with state := .exited }
        current := if t.current = (t.rows i).pid then 0 else t.current } p := by
      rintro ⟨j, hj, hjp⟩
      dsimp only at hj hjp
      by_cases hji : j = i
      · subst hji
        rw [update_self] at hj
        exact hdead hj
      · rw [update_of_ne hji] at hj hjp
        exact hji (ht.numbered.distinct j i hj.1 hlive.1 (hjp.trans hpid.symm))
    exact ⟨fun hx => absurd hx hgone, fun _ => if_pos hcur⟩
  · have hcur : t.current ≠ (t.rows i).pid := by
      intro he
      have hpos := (ht.numbered.row i).pos hlive.1
      by_cases hp : t.LiveAt p
      · exact hpid (he.symm.trans (h.live hp))
      · have h0 := h.gone hp
        omega
    exact h.write (fun _ => hpid) (fun hx => absurd hx hdead) rfl (if_neg hcur)

end Table

/-! ## §2. The calls. -/

section Calls

variable {s s' : ProcState} {p : ℤ}

theorem exitEntry_focus {i : ProcSlot} {pid : ℤ} (status : ℤ) (h : Focus s.table p)
    (ht : TableInv s.table) (hi : findProc s pid = some i)
    (hlive : procIsTerminalState (s.procs i).info.state = false) :
    Focus (exitEntry s i pid status).table p := by
  obtain ⟨hused, hpid⟩ := findProc_some hi
  rw [exitEntry_table, ← hpid]
  exact h.exit ht ⟨hused, hlive⟩

theorem ExitOutcome.focus {pid status r : ℤ} (hexit : ExitOutcome s pid status r s')
    (h : Focus s.table p) (ht : TableInv s.table) : Focus s'.table p := by
  cases hexit with
  | refused => exact h
  | ended hi hlive => exact exitEntry_focus status h ht hi hlive

/-- A child that is reaped could not run any more. -/
theorem procWait_focus {parentPid childPid : ℤ} {r : Option ℤ} (h : Focus s.table p)
    (hwait : procWait s parentPid childPid = .ok (r, s')) : Focus s'.table p := by
  rcases procWait_cases hwait with ⟨-, rfl⟩ | ⟨i, ok, m, hi, -, hstate, -, -, rfl⟩
  · exact h
  refine h.write (i := i) (r := Row.zero) (fun hlive => ?_) (fun hx => by cases hx.1) ?_ rfl
  · have hterm := hlive.2
    rw [show (s.table.rows i).state = .exited from hstate] at hterm
    cases hterm
  · exact update_row s.procs i ProcEntry.zero

/-- The processes that can run are the same. -/
theorem liveAt_of_lives (h : OnlyStates s.lives s'.lives) : s'.table.LiveAt p ↔ s.table.LiveAt p := by
  have hiff : ∀ i, ((s'.table.rows i).live ∧ (s'.table.rows i).pid = p) ↔
      ((s.table.rows i).live ∧ (s.table.rows i).pid = p) := by
    intro i
    have hpid : (s'.lives i).pid = (s.lives i).pid := h.pid i
    exact and_congr (h.live_iff i) (by rw [show (s'.table.rows i).pid = (s.table.rows i).pid from hpid])
  exact exists_congr hiff

theorem startEnter_focus (h : startEnter s p = some s') (ht : TableInv s.table) :
    TableInv s'.table ∧ Focus s'.table p := by
  have ht' := (startEnter_table h).inv ht
  refine ⟨ht', ?_⟩
  have hfocus := ht'.focus_current
  obtain ⟨i, -, -, rfl⟩ := startEnter_cases h
  exact hfocus

/-- The exit at the end of a program leaves nobody current. -/
theorem exitIfLive_focus (h : exitIfLive s p = .ok s') (ht : TableInv s.table)
    (hf : Focus s.table p) :
    TableInv s'.table ∧ ¬ s'.table.LiveAt p ∧ s'.table.current = 0 := by
  obtain ⟨hrun, hgone⟩ := exitIfLive_table h
  have ht' := hrun.inv ht
  have hdead : ¬ s'.table.LiveAt p := fun hlive =>
    hgone ((liveProc_iff ht'.numbered.toRowsOk).mpr hlive)
  have hf' : Focus s'.table p := by
    rcases exitIfLive_cases h with ⟨-, rfl⟩ | ⟨i, hi, hlive, -, rfl⟩
    · exact hf
    · exact exitEntry_focus 0 hf ht hi hlive
  exact ⟨ht', hdead, hf'.gone hdead⟩

/-- **Handing the focus back.** -/
theorem resume_focus (previous : ℤ) (ht : TableInv s.table) (hdead : ¬ s.table.LiveAt p)
    (hcur : s.table.current = 0) :
    ¬ (resume s p previous).table.LiveAt p ∧ Focus (resume s p previous).table previous := by
  -- when nothing is done, `previous` cannot run
  have hsame : ¬ s.table.LiveAt previous → Focus s.table previous := fun hgone =>
    ⟨fun hx => absurd hx hgone, fun _ => hcur⟩
  unfold resume
  split
  · rcases procSetCurrent_cases s previous with ⟨hgone, heq⟩ | ⟨i, hi, hlive, heq⟩
    · rw [heq]
      exact ⟨hdead, hsame fun hx => hgone ((liveProc_iff ht.numbered.toRowsOk).mpr hx)⟩
    · rw [heq]
      refine ⟨fun hx => hdead ((liveAt_of_lives (focused_lives hi hlive)).mp hx), ?_⟩
      exact ((focused_table hi hlive).inv ht).focus_current
  · rename_i hprev
    have hgone : ¬ s.table.LiveAt previous := by
      intro hlive
      refine hprev ⟨?_, ?_, ?_⟩
      · intro h0
        rw [h0] at hlive
        exact ht.not_live_zero hlive
      · intro he
        rw [he] at hlive
        exact hdead hlive
      · obtain ⟨j, hj, -⟩ := (liveProc_iff ht.numbered.toRowsOk).mpr hlive
        rw [hj]
        exact Option.some_ne_none j
    split
    · exact ⟨hdead, fun hx => absurd hx hgone, fun _ => rfl⟩
    · exact ⟨hdead, hsame hgone⟩

/-- **`proc_start_flat` around a program** that keeps the focus on the process it runs for:
afterwards that process cannot run, and the focus is back where it was. -/
theorem startFlat_focus {body : ProcState → Except Halt ProcState} {r : ℤ}
    (hbody : ∀ t t', startEnter s p = some t → body t = .ok t' →
      TableInv t'.table ∧ Focus t'.table p)
    (h : procStartFlat body s p = .ok (r, s')) :
    (r = -1 ∧ s' = s) ∨
      (r = 0 ∧ ¬ s'.table.LiveAt p ∧ Focus s'.table s.currentPid) := by
  unfold procStartFlat at h
  split at h
  · cases h
    exact .inl ⟨rfl, rfl⟩
  rename_i t henter
  obtain ⟨t', hrun, h⟩ := bind_ok.mp h
  obtain ⟨t'', hleave, h⟩ := bind_ok.mp h
  cases h
  obtain ⟨ht', hf⟩ := hbody t t' henter hrun
  obtain ⟨s₁, hexit, rfl⟩ := map_ok.mp hleave
  obtain ⟨ht₁, hdead, hcur⟩ := exitIfLive_focus hexit ht' hf
  exact .inr ⟨rfl, resume_focus s.currentPid ht₁ hdead hcur⟩

end Calls

/-! ## §3. A spawn. -/

section Spawn

variable {s s' : ProcState} {p : ℤ} {env : SpawnEnv} {parentPid : ℤ} {path : Str}

/-- What a spawn, up to the start of the program, does to the table. -/
structure SpawnOk (s : ProcState) (q : Prepared) (s' : ProcState) : Prop where
  inv : TableInv s'.table
  current : s'.currentPid = s.currentPid
  /-- A spawn that failed does not move the focus. -/
  failed : ∀ r, q = .failed r → ∀ p, Focus s.table p → Focus s'.table p

/-- **A spawn**, up to the start of the program. -/
theorem spawnPrepare_ok {q : Prepared} (ht : TableInv s.table)
    (h : spawnPrepare env s parentPid path = .ok (q, s')) : SpawnOk s q s' := by
  have hinv := (spawnPrepare_table ht h).inv ht
  have hcleared : ∀ {i}, freeProc s = some i → s'.table.rows = update s.table.rows i Row.zero →
      s'.table.current = s.table.current → SpawnOk s q s' := by
    intro i hi hrows hcur
    refine ⟨hinv, hcur, fun _ _ p hf => ?_⟩
    refine hf.write (fun hx => ?_) (fun hx => by cases hx.1) hrows hcur
    rw [Row.live, show (s.table.rows i).used = false from freeProc_some hi] at hx
    cases hx.1
  rcases spawnPrepare_cases h with
    ⟨r, -, -, rfl⟩ | ⟨i, hi, -, -, -, ⟨-, -, rfl⟩ | ⟨hctx, hneg, -, -⟩ | ⟨size, hctx, -, hfile⟩⟩
  · exact ⟨ht, rfl, fun _ _ _ hf => hf⟩
  · exact hcleared hi (enrolled_rows s i _) rfl
  · have hpos : 1 ≤ s.nextPid := (ht.lockstep hctx).pos
    omega
  cases (keeps_table env s.nextPid (spawned s i parentPid path).table).spawnFile hfile rfl with
  | unwound hsame _ habandon =>
    obtain ⟨ok, m, hm, rfl⟩ := abandon_spawned_table hi hctx ht hsame habandon
    rw [table_drop hm, hsame] at hcleared
    refine hcleared hi ?_ rfl
    show update (spawned s i parentPid path).table.rows i Row.zero = _
    rw [spawned, enrolled_rows, update_idem]
  | ready hsame _ => exact ⟨hinv, congrArg Table.current hsame, fun r hr => by cases hr⟩

end Spawn

end ExoCore.Proc
