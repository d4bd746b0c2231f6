/-
  ExoCore.Proc.Status — an exit status is delivered EXACTLY ONCE.

  Slots are cleared and used again, and parents change; what is said here is said of
  whole histories.  `Story` is the history a caller can keep from the calls and their
  answers: who created a pid, with which status it ended, whether it was reaped.
  `StoryOk` ties the history to the table, and `Lawful` is what the history allows
  the next call to answer.

  Main results:
    • `Told.step` — every call keeps the history and the table together;
    • `exit_status_once` — after every run the next call is lawful.
-/
import ExoCore.Proc.Lives
import ExoCore.Proc.Ledger

namespace ExoCore.Proc

open ExoCore.Lib ExoCore.Vfs Function

/-! ## §1. The history. -/

/-- What has been answered so far. -/
structure Story where
  /-- The parent a pid was created under. -/
  creator : ℤ → Option ℤ
  /-- The status of the first `proc_exit` or `proc_kill` that succeeded. -/
  status : ℤ → Option ℤ
  /-- Whether a `proc_wait` has succeeded. -/
  reaped : ℤ → Bool
  /-- Whether the creator has ended since. -/
  handed : ℤ → Bool

def Story.start : Story := ⟨fun _ => none, fun _ => none, fun _ => false, fun _ => false⟩

/-- A `proc_exit` or `proc_kill` of `pid` has succeeded. -/
def Story.ended (h : Story) (pid status : ℤ) : Story :=
  { h with
    status := update h.status pid (some status)
    handed := fun p => if h.creator p = some pid then true else h.handed p }

/-- The history after one more call. -/
def Story.next (h : Story) : Op → Ret → Story
  | .create _ parentPid, .int pid =>
    if 0 ≤ pid then { h with creator := update h.creator pid (some parentPid) } else h
  | .exit pid status, .int r => if r = 0 then h.ended pid status else h
  | .kill pid status, .int r => if r = 0 then h.ended pid status else h
  | .wait _ childPid, .status (some _) => { h with reaped := update h.reaped childPid true }
  | _, _ => h

/-- What the history allows a `proc_exit` or `proc_kill` to do: the first one that succeeds
sets the status, and every later one fails and changes nothing. -/
structure ExitLawful (h : Story) (s : ProcState) (pid status r : ℤ) (s' : ProcState) : Prop where
  later : h.status pid ≠ none → r < 0 ∧ s' = s
  first : r = 0 → h.status pid = none ∧ h.creator pid ≠ none ∧ h.reaped pid = false ∧
    ∃ i, findProc s' pid = some i ∧ (s'.procs i).info.state = .exited ∧
      (s'.procs i).info.exitStatus = status
  failed : r ≠ 0 → s' = s

/-- What the history allows a `proc_wait` that answers `status` to do. -/
structure WaitLawful (h : Story) (s : ProcState) (parentPid childPid status : ℤ) (s' : ProcState) :
    Prop where
  delivered : h.status childPid = some status
  once : h.reaped childPid = false
  /-- The caller is the parent of this moment. -/
  parent : ∃ i, findProc s childPid = some i ∧ (s.procs i).info.parentPid = parentPid
  /-- The parent of this moment is the creator, or 1 once the creator has ended. -/
  creator : ∃ c, h.creator childPid = some c ∧ parentPid = (if h.handed childPid then 1 else c) ∧
    (h.handed childPid = true → h.status c ≠ none)
  /-- Nobody else's entry is touched. -/
  others : ∀ j, (s.procs j).used = true → (s.procs j).info.pid ≠ childPid → s'.procs j = s.procs j

/-- **What the history allows the next call to do.** -/
def Lawful (h : Story) (s : ProcState) : Op → Ret → ProcState → Prop
  | .create _ _, .int pid, _ => 0 ≤ pid → h.creator pid = none
  | .exit pid status, .int r, s' => ExitLawful h s pid status r s'
  | .kill pid status, .int r, s' => ExitLawful h s pid status r s'
  | .wait parentPid childPid, .status (some status), s' =>
    WaitLawful h s parentPid childPid status s'
  | _, _, _ => True

/-! ## §2. The history and the table. -/

/-- What the history says of a process in the table. -/
structure Story.Row (h : Story) (x : Life) : Prop where
  parent : ∃ c, h.creator x.pid = some c ∧ x.parentPid = (if h.handed x.pid then 1 else c) ∧
    (h.handed x.pid = true → h.status c ≠ none)
  here : h.reaped x.pid = false
  live : procIsTerminalState x.state = false → h.status x.pid = none
  ended : procIsTerminalState x.state = true →
    x.state = .exited ∧ h.status x.pid = some x.exitStatus

/-- **The table is where the history says.** -/
structure StoryOk (h : Story) (l : Lives) (nextCtx : ℤ) : Prop where
  /-- The pids issued are below the counter, until it wraps. -/
  issued : ∀ p, h.creator p ≠ none → 0 ≤ nextCtx → p < nextCtx
  /-- A pid that was not issued has no history. -/
  fresh : ∀ p, h.creator p = none → h.status p = none ∧ h.reaped p = false ∧ h.handed p = false
  row : ∀ i, (l i).used = true → h.Row (l i)

section Steps

variable {h : Story} {l l' : Lives} {n n' : ℤ} {i : ProcSlot}

theorem StoryOk.mono (hs : StoryOk h l n) (hn : 0 ≤ n' → 0 ≤ n ∧ n ≤ n') : StoryOk h l n' := by
  refine { hs with issued := fun p hp h0 => ?_ }
  have := hs.issued p hp (hn h0).1
  have := (hn h0).2
  omega

section

variable (hs : StoryOk h l n)
include hs

/-- A pid in the table has been issued. -/
theorem StoryOk.created (hi : (l i).used = true) : h.creator (l i).pid ≠ none := by
  obtain ⟨c, hc, -⟩ := (hs.row i hi).parent
  rw [hc]
  exact Option.some_ne_none c

/-- A slot is cleared; what the history says of the others is as before. -/
theorem StoryOk.clear {reaped : ℤ → Bool}
    (hreaped : ∀ j, j ≠ i → (l j).used = true → reaped (l j).pid = false)
    (hfresh : ∀ p, h.creator p = none → reaped p = false) :
    StoryOk { h with reaped := reaped } (update l i Life.zero) n := by
  refine ⟨hs.issued, fun p hp => ⟨(hs.fresh p hp).1, hfresh p hp, (hs.fresh p hp).2.2⟩,
    fun j hj => ?_⟩
  by_cases hji : j = i
  · rw [hji, update_self] at hj
    cases hj
  · rw [update_of_ne hji] at hj ⊢
    exact { hs.row j hj with here := hreaped j hji hj }

/-- **A process is created** with a pid that has no history. -/
theorem StoryOk.born (hfree : (l i).used = false) {pid : ℤ} (parentPid : ℤ)
    (hnew : h.creator pid = none) (hn : 0 ≤ n' → pid < n' ∧ 0 ≤ n ∧ n ≤ n') :
    StoryOk { h with creator := update h.creator pid (some parentPid) }
      (update l i ⟨true, pid, parentPid, .ready, 0⟩) n' := by
  obtain ⟨hst, hre, hha⟩ := hs.fresh pid hnew
  -- nobody in the table has the new pid
  have hother : ∀ {j}, (l j).used = true → (l j).pid ≠ pid := fun hj he =>
    hs.created hj (he ▸ hnew)
  refine ⟨fun p hp h0 => ?_, fun p hp => ?_, fun j hj => ?_⟩
  · obtain ⟨h1, h2, h3⟩ := hn h0
    by_cases hpp : p = pid
    · rw [hpp]
      exact h1
    · dsimp only at hp
      rw [update_of_ne hpp] at hp
      have := hs.issued p hp h2
      omega
  · by_cases hpp : p = pid
    · dsimp only at hp
      rw [hpp, update_self] at hp
      cases hp
    · dsimp only at hp
      rw [update_of_ne hpp] at hp
      exact hs.fresh p hp
  · by_cases hji : j = i
    · subst hji
      rw [update_self]
      refine ⟨⟨parentPid, update_self _ _ _, ?_, fun hx => ?_⟩, hre, fun _ => hst, nofun⟩
      · show parentPid = if h.handed pid then 1 else parentPid
        rw [hha]
        rfl
      · exact absurd (hx.symm.trans hha) (by decide)
    · rw [update_of_ne hji] at hj ⊢
      refine { hs.row j hj with parent := ?_ }
      dsimp only
      rw [update_of_ne (hother hj)]
      exact (hs.row j hj).parent

theorem StoryOk.moved (hm : OnlyStates l l') : StoryOk h l' n := by
  refine ⟨hs.issued, hs.fresh, fun j hj => ?_⟩
  have hrow := hs.row j (hm.used j ▸ hj)
  by_cases hst : (l' j).state = (l j).state
  · rw [hm.rest j, hst]
    exact hrow
  · -- a state that moved is not terminal
    obtain ⟨hold, hnew⟩ := hm.live j hst
    rw [hm.rest j]
    refine { hrow with live := fun _ => hrow.live hold.2, ended := fun hterm => ?_ }
    exact absurd (hnew.symm.trans hterm) (by decide)

variable (hd : ∀ i j, (l i).used = true → (l j).used = true → (l i).pid = (l j).pid → i = j)
include hd

/-- **A process ends**, for the first time: its status stands, and the children it had can say
that their creator has ended. -/
theorem StoryOk.buried {pid : ℤ} (status : ℤ) (hi : (l i).Live) (hpid : (l i).pid = pid)
    (hne : pid ≠ 1) : StoryOk (h.ended pid status) (l.buried i pid status) n := by
  refine ⟨hs.issued, fun p hp => ?_, fun j hj => ?_⟩
  · have hpp : p ≠ pid := fun he => hs.created hi.1 (hpid ▸ he ▸ hp)
    refine ⟨(update_of_ne hpp _ _).trans (hs.fresh p hp).1, (hs.fresh p hp).2.1, ?_⟩
    refine (if_neg fun hc => ?_).trans (hs.fresh p hp).2.2
    rw [show h.creator p = none from hp] at hc
    cases hc
  · rw [buried_used] at hj
    have hrow := hs.row j hj
    obtain ⟨c, hc, hpar, hend⟩ := hrow.parent
    have hparent : ∃ c, (h.ended pid status).creator (l j).pid = some c ∧
        (l.buried i pid status j).parentPid =
          (if (h.ended pid status).handed (l j).pid then 1 else c) ∧
        ((h.ended pid status).handed (l j).pid = true → (h.ended pid status).status c ≠ none) := by
      refine ⟨c, hc, ?_, fun hx => ?_⟩
      · rw [buried_parentPid, hpar]
        simp only [Story.ended, hc]
        -- whose child was it: still its creator's, or process 1's already
        by_cases hx : h.handed (l j).pid = true <;> by_cases hcp : c = pid <;>
          simp [hx, hcp, hj, hne.symm]
      · simp only [Story.ended, hc] at hx ⊢
        by_cases hcp : c = pid
        · rw [hcp, update_self]
          exact Option.some_ne_none _
        · rw [update_of_ne hcp]
          exact hend (by simpa [hcp] using hx)
    by_cases hji : j = i
    · subst hji
      obtain ⟨hstate, hstatus⟩ := buried_self l j pid status
      refine ⟨by rwa [buried_pid], by rw [buried_pid]; exact hrow.here, ?_, fun _ => ⟨hstate, ?_⟩⟩
      · rw [hstate]
        nofun
      · rw [buried_pid, hpid, hstatus]
        exact update_self _ _ _
    · obtain ⟨hstate, hstatus⟩ := buried_other l pid status hji
      have hother : (h.ended pid status).status (l j).pid = h.status (l j).pid :=
        update_of_ne (fun he => hji (hd j i hj hi.1 (he.trans hpid.symm))) _ _
      refine ⟨by rwa [buried_pid], by rw [buried_pid]; exact hrow.here, ?_, ?_⟩
      · rw [hstate, buried_pid, hother]
        exact hrow.live
      · rw [hstate, hstatus, buried_pid, hother]
        exact hrow.ended

/-- **A process is reaped.** -/
theorem StoryOk.reaped (hi : (l i).used = true) {pid : ℤ} (hpid : (l i).pid = pid) :
    StoryOk { h with reaped := update h.reaped pid true } (update l i Life.zero) n := by
  refine hs.clear (fun j hji hj => ?_) fun p hp => ?_
  · have hne : (l j).pid ≠ pid := fun he => hji (hd j i hj hi (he.trans hpid.symm))
    exact (update_of_ne hne _ _).trans (hs.row j hj).here
  · have hne : p ≠ pid := fun he => hs.created hi (hpid ▸ he ▸ hp)
    exact (update_of_ne hne _ _).trans (hs.fresh p hp).2.1

end

end Steps

/-! ## §3. The counter. -/

/-- A context counter that is not negative after a step was not before, and has not gone
down. -/
theorem TStep.nextCtx_le {t t' : Table} (h : TStep t t') (ht : Numbered t) (h0 : 0 ≤ t'.nextCtx) :
    0 ≤ t.nextCtx ∧ t.nextCtx ≤ t'.nextCtx := by
  cases h with
  | create _ _ hid =>
    rcases ht.phase with hl | hw
    · have hsmall : t.nextCtx < 2 ^ 31 := by
        rw [hl.same]
        exact hl.small
      dsimp only at h0 ⊢
      rcases toInt_succ hid hsmall with ⟨-, he⟩ | ⟨-, he⟩ <;> omega
    · have := hw.range
      omega
  | leak _ _ hid =>
    rcases ht.phase with hl | hw
    · have := hl.pos
      have := hl.same
      omega
    · have hrange := hw.range
      dsimp only at h0
      rw [toInt_of_range (by omega) (by omega)] at h0
      omega
  | full => exact ⟨h0, le_refl _⟩
  | setCurrent => exact ⟨h0, le_refl _⟩
  | exit => exact ⟨h0, le_refl _⟩
  | drop => exact ⟨h0, le_refl _⟩
  | idle => exact ⟨h0, le_refl _⟩

theorem TRun.nextCtx_le {t t' : Table} (h : TRun t t') (ht : TableInv t) :
    0 ≤ t'.nextCtx → 0 ≤ t.nextCtx ∧ t.nextCtx ≤ t'.nextCtx := by
  refine (inv_of_run (fun x => TableInv x ∧ (0 ≤ x.nextCtx → 0 ≤ t.nextCtx ∧ t.nextCtx ≤ x.nextCtx))
    h ⟨ht, fun h0 => ⟨h0, le_refl _⟩⟩ ?_).2
  intro a b ha hstep
  refine ⟨hstep.inv ha.1, fun h0 => ?_⟩
  obtain ⟨h1, h2⟩ := hstep.nextCtx_le ha.1.numbered h0
  obtain ⟨h3, h4⟩ := ha.2 h1
  exact ⟨h3, h4.trans h2⟩

/-- **A pid that is issued** is the number of its context, and the counter moves past it. -/
theorem TableInv.created {s : ProcState} (h : TableInv s.table)
    (hctx : 0 ≤ (memctxCreate s.memctx s.nextPid 0).1) :
    0 ≤ s.nextPid ∧ s.nextPid = s.memctx.nextCtxId ∧
      (0 ≤ (memctxCreate s.memctx s.nextPid 0).2.nextCtxId →
        s.nextPid < (memctxCreate s.memctx s.nextPid 0).2.nextCtxId) := by
  rcases memctxCreate_cases s.memctx s.nextPid 0 with ⟨-, heq⟩ | ⟨c, -, heq⟩
  · rw [heq] at hctx
    exact absurd hctx (show ¬ (0 : ℤ) ≤ -1 by decide)
  rw [heq] at hctx ⊢
  dsimp only at hctx
  rcases h.numbered.phase with hl | hw
  · have hpos : 1 ≤ s.nextPid := hl.pos
    have hsame : s.memctx.nextCtxId = s.nextPid := hl.same
    have hsmall : s.nextPid < 2 ^ 31 := hl.small
    refine ⟨by omega, hsame.symm, fun h0 => ?_⟩
    have hnext : (opened s.memctx c s.nextPid 0).nextCtxId = toInt (s.nextPid + 1) := by
      show toInt (s.memctx.nextCtxId + 1) = _
      rw [hsame]
    rw [hnext] at h0 ⊢
    rcases toInt_succ (by omega) hsmall with ⟨-, he⟩ | ⟨-, he⟩ <;> omega
  · have hrange : s.memctx.nextCtxId ≤ -2 ^ 31 + 32 := hw.range.2
    omega

/-! ## §4. One call. -/

section Call

variable {h : Story} {s s' : ProcState} {env : Env} {op : Op} {r : Ret}

/-- The history and the state. -/
abbrev Told (h : Story) (s : ProcState) : Prop := StoryOk h s.lives s.memctx.nextCtxId

theorem Told.create (hinv : TableInv s.table) (hs : Told h s) (name : Str) (parentPid : ℤ) :
    Lawful h s (.create name parentPid) (.int (procCreate s name parentPid).1)
        (procCreate s name parentPid).2 ∧
      Told (h.next (.create name parentPid) (.int (procCreate s name parentPid).1))
        (procCreate s name parentPid).2 := by
  have hmono := (procCreate_table s name parentPid).nextCtx_le hinv
  rcases procCreate_cases s name parentPid with
    ⟨r, hr, heq, -⟩ | ⟨i, hfree, -, ⟨-, heq⟩ | ⟨hctx, heq⟩⟩
  · rw [heq]
    refine ⟨fun h0 => absurd h0 (not_le.mpr hr), ?_⟩
    show Told (if 0 ≤ r then _ else h) s
    rw [if_neg (not_le.mpr hr)]
    exact hs
  · rw [heq] at hmono ⊢
    refine ⟨fun h0 => absurd h0 (show ¬ 0 ≤ procErrNomem by decide), ?_⟩
    show StoryOk h (enrolled s i ProcEntry.zero).lives _
    refine StoryOk.mono ?_ hmono
    refine Eq.subst (motive := fun l => StoryOk h l _) (lives_setProc _ i ProcEntry.zero).symm ?_
    exact hs.clear (fun j _ hj => (hs.row j hj).here) fun p hp => (hs.fresh p hp).2.1
  · obtain ⟨h0, hpid, hnext⟩ := hinv.created hctx
    rw [heq] at hmono ⊢
    -- every pid issued so far is below the counter, and this one is the counter
    have hnew : h.creator s.nextPid = none := by
      by_contra hne
      have := hs.issued s.nextPid hne (by omega)
      omega
    refine ⟨fun _ => hnew, ?_⟩
    show StoryOk (if 0 ≤ s.nextPid then _ else h) _ _
    rw [if_pos h0]
    refine Eq.subst (motive := fun l => StoryOk _ l _) (lives_setProc _ i _).symm ?_
    exact hs.born (freeProc_some hfree) parentPid hnew fun hn => ⟨hnext hn, hmono hn⟩

/-- `proc_exit` and `proc_kill`, taken apart. -/
theorem Told.exit {pid status r : ℤ} (hinv : TableInv s.table) (hinv' : TableInv s'.table)
    (hs : Told h s) (hmono : 0 ≤ s'.memctx.nextCtxId →
      0 ≤ s.memctx.nextCtxId ∧ s.memctx.nextCtxId ≤ s'.memctx.nextCtxId)
    (hexit : ExitOutcome s pid status r s') :
    ExitLawful h s pid status r s' ∧
      Told (if r = 0 then h.ended pid status else h) s' := by
  rcases hexit with hr | @⟨i, hi, hlive, hpid⟩
  · refine ⟨⟨fun _ => ⟨hr, rfl⟩, fun h0 => absurd h0 hr.ne, fun _ => rfl⟩, ?_⟩
    rw [if_neg hr.ne]
    exact hs
  obtain ⟨hused, hip⟩ := findProc_life hi
  have hlife : (s.lives i).Live := ⟨hused, hlive⟩
  have hnone : h.status pid = none := by
    rw [← hip]
    exact (hs.row i hused).live hlive
  have hlives := exitEntry_lives s i status hpid
  have hself := buried_self s.lives i pid status
  have htold : Told (h.ended pid status) (exitEntry s i pid status) := by
    unfold Told
    rw [hlives]
    exact (hs.buried hinv.numbered.distinct status hlife hip hpid).mono hmono
  rw [← hlives] at hself
  refine ⟨⟨fun hne => absurd hnone hne, fun _ => ⟨hnone, ?_, ?_, i, ?_, hself⟩,
    fun hne => absurd rfl hne⟩, htold⟩
  · rw [← hip]
    exact hs.created hused
  · rw [← hip]
    exact (hs.row i hused).here
  · -- the pids did not change, so the process is found in its slot
    have hsame := congrFun hlives i
    have hfind := hinv'.numbered.find (i := i) ((congrArg Life.used hsame).trans (by simpa using hused))
    rwa [show ((exitEntry s i pid status).table.rows i).pid = pid from
      (congrArg Life.pid hsame).trans (by simpa using hip)] at hfind

theorem Told.wait {parentPid childPid : ℤ} {r : Option ℤ} (hinv : TableInv s.table)
    (hs : Told h s) (hmono : 0 ≤ s'.memctx.nextCtxId →
      0 ≤ s.memctx.nextCtxId ∧ s.memctx.nextCtxId ≤ s'.memctx.nextCtxId)
    (hwait : procWait s parentPid childPid = .ok (r, s')) :
    Lawful h s (.wait parentPid childPid) (.status r) s' ∧
      Told (h.next (.wait parentPid childPid) (.status r)) s' := by
  rcases procWait_cases hwait with ⟨rfl, rfl⟩ | ⟨i, ok, m, hi, hparent, hstate, -, rfl, rfl⟩
  · exact ⟨trivial, hs⟩
  obtain ⟨hused, hip⟩ := findProc_life hi
  have hrow := hs.row i hused
  have hended := hrow.ended (by
    show procIsTerminalState (s.procs i).info.state = true
    rw [hstate]
    rfl)
  have hhere := hrow.here
  obtain ⟨c, hc, hpar, hend⟩ := hrow.parent
  rw [hip] at hended hhere hc hpar hend
  refine ⟨⟨hended.2, hhere, ⟨i, hi, hparent⟩, ⟨c, hc, hparent.symm.trans hpar, hend⟩,
    fun j hj hne => ?_⟩, ?_⟩
  · refine update_of_ne (fun he => hne ?_) _ _
    rw [he]
    exact hip
  · refine StoryOk.mono ?_ hmono
    refine Eq.subst (motive := fun l => StoryOk _ l _) (lives_setProc _ i ProcEntry.zero).symm ?_
    exact hs.reaped hinv.numbered.distinct hused hip

/-- Every other call leaves the history alone. -/
theorem LifeStep.only_states {l l' : Lives} {n : ℤ} (hl : LifeStep l n op r l')
    (hq : ¬ Effective op r) (hop : ∀ name parentPid, op ≠ .create name parentPid) :
    OnlyStates l l' := by
  cases hl with
  | quiet _ => exact .refl l
  | cleared => exact absurd rfl (hop _ _)
  | born => exact absurd rfl (hop _ _)
  | moved hm => exact hm
  | buried hx =>
    rcases hx with rfl | rfl
    · exact absurd rfl hq
    · exact absurd rfl hq
  | reaped => exact absurd rfl hq

/-- **One call**: it is lawful, and the history stays true. -/
theorem Told.step (hinv : TableInv s.table) (hs : Told h s) (hexec : exec env s op = .ok (r, s')) :
    Lawful h s op r s' ∧ Told (h.next op r) s' := by
  have hmono := (exec_table hexec).nextCtx_le hinv
  have hinv' := (exec_table hexec).inv hinv
  have hlife := exec_life hexec
  cases op with
  | create name parentPid =>
    cases hexec
    exact hs.create hinv name parentPid
  | exit pid status =>
    obtain ⟨⟨a, s₁⟩, hexit, heq⟩ := map_ok.mp hexec
    cases heq
    exact hs.exit hinv hinv' hmono (procExitLocked_cases hexit)
  | kill pid status =>
    obtain ⟨⟨a, s₁⟩, hkill, heq⟩ := map_ok.mp hexec
    cases heq
    exact hs.exit hinv hinv' hmono (procKill_cases hkill)
  | wait parentPid childPid =>
    obtain ⟨⟨a, s₁⟩, hwait, heq⟩ := map_ok.mp hexec
    cases heq
    exact hs.wait hinv hmono hwait
  | _ =>
    refine ⟨trivial, StoryOk.mono ?_ hmono⟩
    exact hs.moved (hlife.only_states id fun _ _ he => by cases he)

end Call

/-! ## §5. Runs. -/

/-- The state, with the history of the calls that led to it. -/
structure Annals where
  state : ProcState
  story : Story

/-- One call, written down. -/
inductive ToldStep : Annals → Annals → Prop
  | call {env : Env} {op : Op} {r : Ret} {s s' : ProcState} {h : Story}
      (hexec : exec env s op = .ok (r, s')) : ToldStep ⟨s, h⟩ ⟨s', h.next op r⟩

/-- Any number of calls. -/
abbrev ToldRun : Annals → Annals → Prop := Relation.ReflTransGen ToldStep

/-- **Exit statuses are delivered exactly once.**  After any calls from `proc_init`, the next
call that returns is lawful: a pid it issues is new; it ends a process that has not ended, or
fails and changes nothing; it reaps a process for the parent of this moment only, with the
status the process ended with, never a second time, and without touching another entry. -/
theorem exit_status_once (s₀ : ProcState) {a : Annals} (hrun : ToldRun ⟨procInit s₀, .start⟩ a)
    {env : Env} {op : Op} {r : Ret} {s' : ProcState} (hexec : exec env a.state op = .ok (r, s')) :
    Lawful a.story a.state op r s' := by
  have hinit : Told .start (procInit s₀) := by
    have hused : ∀ i, ((procInit s₀).lives i).used ≠ true := fun i hi => by cases hi
    exact ⟨fun p hp => absurd rfl hp, fun _ _ => ⟨rfl, rfl, rfl⟩, fun i hi => absurd hi (hused i)⟩
  obtain ⟨hinv, hs⟩ := inv_of_run (fun a : Annals => TableInv a.state.table ∧ Told a.story a.state)
    hrun ⟨procInit_inv s₀, hinit⟩ fun ha hstep => by
      cases hstep with
      | call hexec => exact ⟨(exec_table hexec).inv ha.1, (ha.2.step ha.1 hexec).2⟩
  exact (hs.step hinv hexec).1

/-- The calls and their history, computed. -/
def tell (env : Env) (a : Annals) (ops : List Op) : Option Annals :=
  ops.foldlM (fun a op =>
    (exec env a.state op).toOption.map fun x => ⟨x.2, a.story.next op x.1⟩) a

theorem toldRun_tell {env : Env} {ops : List Op} {a a' : Annals} (h : tell env a ops = some a') :
    ToldRun a a' := by
  induction ops generalizing a with
  | nil =>
    cases h
    exact .refl
  | cons op ops ih =>
    obtain ⟨a₁, h1, h2⟩ := Option.bind_eq_some_iff.mp h
    obtain ⟨⟨r, s₂⟩, hexec, heq⟩ := Option.map_eq_some_iff.mp h1
    cases heq
    exact .head (.call (toOption_some hexec)) (ih h2)

/-- Process 1 reaps its child: the status is the one the child ended with. -/
theorem exit_status_once_reaped : ∃ a s', ToldRun ⟨procInit blank, .start⟩ a ∧
    exec env0 a.state (.wait 1 2) = .ok (.status (some 7), s') ∧
      WaitLawful a.story a.state 1 2 7 s' := by
  obtain ⟨a, hrun, s', hwait⟩ : ∃ a, ToldRun ⟨procInit blank, .start⟩ a ∧
      ∃ s', exec env0 a.state (.wait 1 2) = .ok (.status (some 7), s') :=
    ⟨_, toldRun_tell (show tell env0 ⟨procInit blank, .start⟩
      [.create [] 0, .create [] 1, .exit 2 7] = some _ from rfl), _, rfl⟩
  exact ⟨a, s', hrun, hwait, exit_status_once blank hrun hwait⟩

end ExoCore.Proc
