/-
  ExoCore.Proc.Descriptors — DESCRIPTORS AND THE FILES BEHIND THEM.

  `dup` and `dup2` put several descriptors over one slot of the VFS, and no count of
  them is kept.  A history beside the machine remembers which opening each slot serves
  and for which opening each descriptor was made.

    * `descriptors_owned` — as long as a slot is only closed through its last
      descriptor, every descriptor still names the opening it was made for, one of its
      own process; a step that does not look breaks exactly that; and no step of one
      process touches a descriptor of another;
    * `descriptors_dangle` — open, dup, close;
    * `ended_inert` — a process that has ended has none, and calls in its name do nothing.
-/
import ExoCore.Proc.FdTable

namespace ExoCore.Proc

open ExoCore.Lib ExoCore.Vfs Function

/-! ## §1. Openings. -/

/-- One successful open: the process that made it, and a number of its own. -/
structure Opening where
  pid : ℤ
  serial : ℕ
  deriving Repr, DecidableEq

/-- What the kernel does not remember: the opening a slot serves, the opening a
descriptor was made for, and the number of the next step. -/
structure History where
  opened : Slot → Option Opening
  given : ProcSlot → Fd → Option Opening
  serial : ℕ

theorem backing_lt {b : ℤ} (h : 0 ≤ b ∧ b < 32) : b.toNat < 32 := by omega

/-- The slot a descriptor value names. -/
def slotOf (b : ℤ) : Option Slot := if h : 0 ≤ b ∧ b < 32 then some ⟨b.toNat, backing_lt h⟩ else none

/-- The openings after a step of process `pid`: a slot that was not open before was
opened by it. -/
def History.openedNext (h : History) (pid : ℤ) (t t' : FdTable) (slot : Slot) : Option Opening :=
  if (t'.files slot).isSome then
    if (t.files slot).isSome then h.opened slot else some ⟨pid, h.serial⟩
  else none

/-- A descriptor is made whenever its entry changes, for the opening its slot serves then. -/
def History.next (h : History) (pid : ℤ) (t t' : FdTable) : History :=
  { opened := h.openedNext pid t t'
    given := fun i k =>
      if (t'.rows i).fds k = (t.rows i).fds k then h.given i k
      else (slotOf ((t'.rows i).fds k)).bind (h.openedNext pid t t')
    serial := h.serial + 1 }

/-- Descriptor `k` of slot `i` names an open slot, the opening it was made for, and the
opening is one of its own process. -/
def FdOwned (t : FdTable) (h : History) (i : ProcSlot) (k : Fd) : Prop :=
  ∃ slot o, (t.rows i).fds k = (slot.val : ℤ) ∧ (t.files slot).isSome = true ∧
    h.opened slot = some o ∧ h.given i k = some o ∧ o.pid = (t.rows i).pid

/-- Every descriptor of every process does. -/
def FdsOwned (t : FdTable) (h : History) : Prop :=
  ∀ i k, (t.rows i).used = true → 0 ≤ (t.rows i).fds k → FdOwned t h i k

theorem slotOf_val (slot : Slot) : slotOf (slot.val : ℤ) = some slot := by
  have hlt := slot.isLt
  unfold slotOf
  rw [dif_pos (by omega)]
  rfl

section Owned

variable {t t' : FdTable} {h : History} {pid : ℤ}

/-- A slot that is open before and after serves the same opening. -/
theorem History.openedNext_kept {slot : Slot} (hold : (t.files slot).isSome = true)
    (hnew : (t'.files slot).isSome = true) : h.openedNext pid t t' slot = h.opened slot := by
  rw [History.openedNext, if_pos hnew, if_pos hold]

variable {i j : ProcSlot} {k k' : Fd} {ok : Prop}

/-- Nothing that a descriptor depends on has changed. -/
theorem FdOwned.kept (hown : FdOwned t h i k)
    (hpid : (t'.rows i).pid = (t.rows i).pid) (hfds : (t'.rows i).fds k = (t.rows i).fds k)
    (hfiles : ∀ slot : Slot, (t.rows i).fds k = (slot.val : ℤ) → t'.files slot = t.files slot) :
    FdOwned t' (h.next pid t t') i k := by
  obtain ⟨slot, o, hslot, hopen, hopened, hgiven, ho⟩ := hown
  have hsame := hfiles slot hslot
  have hopen' : (t'.files slot).isSome = true := by
    rw [hsame]
    exact hopen
  refine ⟨slot, o, hfds.trans hslot, hopen', ?_, ?_, ho.trans hpid.symm⟩
  · exact (History.openedNext_kept hopen hopen').trans hopened
  · show (if _ then _ else _) = _
    rw [if_pos hfds]
    exact hgiven

/-- Pids are distinct. -/
def Distinct (t : FdTable) : Prop :=
  ∀ i j, (t.rows i).used = true → (t.rows j).used = true → (t.rows i).pid = (t.rows j).pid → i = j

/-- A process that has ended has no descriptors. -/
def EndedClosed (t : FdTable) : Prop :=
  ∀ i k, (t.rows i).used = true → (t.rows i).terminal = true → (t.rows i).fds k < 0

/-- A slot that a descriptor names is open. -/
theorem FdsOwned.isOpen (hown : FdsOwned t h) (hj : (t.rows j).used = true)
    (h0 : 0 ≤ (t.rows j).fds k') {slot : Slot} (hslot : (t.rows j).fds k' = (slot.val : ℤ)) :
    (t.files slot).isSome = true := by
  obtain ⟨slot', o, hslot', hopen, -⟩ := hown j k' hj h0
  have he : slot' = slot := Fin.ext (by omega)
  rwa [he] at hopen

/-- It is not one that was closed and is opened now. -/
theorem FdsOwned.update_open (hown : FdsOwned t h) (hj : (t.rows j).used = true)
    (h0 : 0 ≤ (t.rows j).fds k') {slot slot' : Slot} (hclosed : t.files slot = none)
    (hslot' : (t.rows j).fds k' = (slot'.val : ℤ)) (n : Option NodeId) :
    update t.files slot n slot' = t.files slot' := by
  refine update_of_ne ?_ _ _
  rintro rfl
  have hopen := hown.isOpen hj h0 hslot'
  rw [hclosed] at hopen
  cases hopen

/-- Two processes never name one slot. -/
theorem FdsOwned.disjoint (hown : FdsOwned t h) (hdist : Distinct t)
    (hi : (t.rows i).used = true) (hj : (t.rows j).used = true) (h0 : 0 ≤ (t.rows i).fds k)
    (heq : (t.rows i).fds k = (t.rows j).fds k') : i = j := by
  obtain ⟨slot, o, hslot, -, ho, -, hpid⟩ := hown i k hi h0
  obtain ⟨slot', o', hslot', -, ho', -, hpid'⟩ := hown j k' hj (heq ▸ h0)
  have hss : slot = slot' := Fin.ext (by omega)
  rw [hss, ho'] at ho
  cases ho
  exact hdist i j hi hj (hpid.symm.trans hpid')

/-! ## §2. One step. -/

theorem FdRow.setFd_self (r : FdRow) (k : Fd) (b : ℤ) : (r.setFd k b).fds k = b :=
  update_self ..

theorem FdRow.setFd_of_ne (r : FdRow) (hk : k' ≠ k) (b : ℤ) :
    (r.setFd k b).fds k' = r.fds k' :=
  update_of_ne hk ..

/-- A slot that was closed under another descriptor of the same process. -/
theorem not_owned_of_closed {b : ℤ} {h' : History} (hused : (t.rows i).used = true)
    (hrows : t'.rows = update t.rows i ((t.rows i).setFd k b)) (h0 : 0 ≤ (t.rows i).fds k)
    (hclosed : ∀ slot : Slot, (slot.val : ℤ) = (t.rows i).fds k → t'.files slot = none)
    (hk' : k' ≠ k) (he : (t.rows i).fds k' = (t.rows i).fds k) : ¬FdsOwned t' h' := by
  intro hown
  have hrow : t'.rows i = (t.rows i).setFd k b := by rw [hrows, update_self]
  have hfd : (t'.rows i).fds k' = (t.rows i).fds k := by rw [hrow, FdRow.setFd_of_ne _ hk', he]
  obtain ⟨slot, o, hslot, hopen, -⟩ := hown i k' (by rw [hrow]; exact hused)
    (le_of_le_of_eq h0 hfd.symm)
  rw [hclosed slot (hslot.symm.trans hfd)] at hopen
  cases hopen

/-- An entry that is set to name another slot is a descriptor for what that slot serves. -/
theorem FdOwned.set {b : ℤ} (slot : Slot) (o : Opening) (hb : b = (slot.val : ℤ))
    (hrows : t'.rows = update t.rows i ((t.rows i).setFd k b)) (hne : b ≠ (t.rows i).fds k)
    (hopen : (t'.files slot).isSome = true) (hopened : h.openedNext pid t t' slot = some o)
    (ho : o.pid = (t.rows i).pid) : FdOwned t' (h.next pid t t') i k := by
  have hrow : t'.rows i = (t.rows i).setFd k b := by rw [hrows, update_self]
  have hfd : (t'.rows i).fds k = (slot.val : ℤ) := by rw [hrow, FdRow.setFd_self, hb]
  refine ⟨slot, o, hfd, hopen, hopened, ?_, by rw [hrow]; exact ho⟩
  show (if _ then _ else _) = _
  rw [if_neg (by rw [hfd, ← hb]; exact hne), hfd, slotOf_val]
  exact hopened

/-- The rule for a step that rewrites row `i`: what has to be shown is that its descriptors
are owned afterwards and that the files of all other rows are kept. -/
theorem FdsOwned.setRow {r : FdRow} (hown : FdsOwned t h) (hrows : t'.rows = update t.rows i r)
    (hself : r.used = true → ∀ k, 0 ≤ r.fds k → FdOwned t' (h.next pid t t') i k)
    (hother : ∀ j k', j ≠ i → (t.rows j).used = true → 0 ≤ (t.rows j).fds k' →
      ∀ slot : Slot, (t.rows j).fds k' = (slot.val : ℤ) → t'.files slot = t.files slot) :
    FdsOwned t' (h.next pid t t') := by
  intro j k' hj h0
  by_cases hji : j = i
  · subst hji
    rw [hrows, update_self] at hj h0
    exact hself hj k' h0
  · have hrow : t'.rows j = t.rows j := by rw [hrows, update_of_ne hji]
    rw [hrow] at hj h0
    exact (hown j k' hj h0).kept (by rw [hrow]) (by rw [hrow]) (hother j k' hji hj h0)

/-- When only the descriptor `k` of the row changes. -/
theorem FdsOwned.setFd {b : ℤ} (hown : FdsOwned t h)
    (hrows : t'.rows = update t.rows i ((t.rows i).setFd k b))
    (hself : 0 ≤ b → FdOwned t' (h.next pid t t') i k)
    (hsame : ∀ k', k' ≠ k → (t.rows i).used = true → 0 ≤ (t.rows i).fds k' →
      ∀ slot : Slot, (t.rows i).fds k' = (slot.val : ℤ) → t'.files slot = t.files slot)
    (hother : ∀ j k', j ≠ i → (t.rows j).used = true → 0 ≤ (t.rows j).fds k' →
      ∀ slot : Slot, (t.rows j).fds k' = (slot.val : ℤ) → t'.files slot = t.files slot) :
    FdsOwned t' (h.next pid t t') := by
  have hrow : t'.rows i = (t.rows i).setFd k b := by rw [hrows, update_self]
  refine hown.setRow hrows (fun hi k' h0 => ?_) hother
  by_cases hk : k' = k
  · subst hk
    rw [FdRow.setFd_self] at h0
    exact hself h0
  · rw [FdRow.setFd_of_ne _ hk] at h0
    refine (hown i k' hi h0).kept (by rw [hrow]; rfl) ?_ (hsame k' hk hi h0)
    rw [hrow, FdRow.setFd_of_ne _ hk]

/-- **One step**: ownership survives exactly when the step met its condition. -/
theorem DStep.owned (hstep : DStep pid t ok t') (hown : FdsOwned t h)
    (hdist : Distinct t) : FdsOwned t' (h.next pid t t') ↔ ok := by
  cases hstep with
  | same =>
    refine iff_of_true ?_ trivial
    intro i k hi h0
    exact (hown i k hi h0).kept rfl rfl fun _ _ => rfl
  | create hfree p =>
    refine iff_of_true ?_ trivial
    exact hown.setRow rfl (fun _ _ h0 => absurd h0 (Int.negSucc_not_nonneg 0).mp) fun _ _ _ _ _ _ _ => rfl
  | clear _ =>
    refine iff_of_true ?_ trivial
    refine hown.setRow rfl ?_ fun _ _ _ _ _ _ _ => rfl
    intro hu
    cases hu
  | @«open» i k slot n hused hpid hlive hk hslot =>
    refine iff_of_true ?_ trivial
    refine hown.setFd rfl (fun _ => ?_)
      (fun k' _ hi h0 slot' hs' => hown.update_open hi h0 hslot hs' _)
      fun j k' _ hj h0 slot' hs' => hown.update_open hj h0 hslot hs' _
    refine .set slot ⟨pid, h.serial⟩ rfl rfl (by omega) (by simp) ?_ hpid.symm
    unfold History.openedNext
    rw [if_pos (by simp), if_neg (by rw [hslot]; decide)]
  | @put i k b files hused hpid hb hfiles =>
    constructor
    · intro hafter hne h0 k' hk' he
      refine not_owned_of_closed hused rfl h0 (fun slot hslot => ?_) hk' he hafter
      exact (hfiles slot).trans (if_pos ⟨hslot, hne⟩)
    · intro halone
      refine hown.setFd rfl (fun h0 => ?_) (fun k' hk' _ h0 slot hslot => ?_)
        fun j k' hji hj h0 slot hslot => ?_
      · obtain ⟨k₀, hold, rfl⟩ := hb.resolve_left (by omega)
        obtain ⟨slot, o, hslot, hopen, hopened, -, ho⟩ := hown i k₀ hused hold
        -- the slot of `k₀` is not the one that is closed
        have hopen' : (files slot).isSome = true := by
          rw [hfiles slot, if_neg fun h => h.2 (by omega)]
          exact hopen
        by_cases hsame : (t.rows i).fds k = (t.rows i).fds k₀
        · have hrow : update t.rows i ((t.rows i).setFd k ((t.rows i).fds k₀)) i = t.rows i := by
            rw [update_self, ← hsame, FdRow.setFd, update_eq_self]
          exact (hown i k hused (by omega)).kept (congrArg FdRow.pid hrow)
            (congrFun (congrArg FdRow.fds hrow) k) fun slot _ =>
              (hfiles slot).trans (if_neg fun h => h.2 hsame)
        · exact .set slot o hslot rfl (Ne.symm hsame) hopen'
            ((History.openedNext_kept hopen hopen').trans hopened) ho
      · refine (hfiles slot).trans (if_neg fun he => ?_)
        exact halone he.2 (by omega) k' hk' (by omega)
      · refine (hfiles slot).trans (if_neg fun he => hji ?_)
        exact (hown.disjoint hdist hused hj (by omega) (he.1.symm.trans hslot.symm)).symm
  | @exit i files hused hpid hlive hclosed =>
    refine iff_of_true ?_ trivial
    refine hown.setRow rfl (fun _ k h0 => ?_) fun j k' hji hj h0 slot hslot => ?_
    · have hneg : (if 0 ≤ (t.rows i).fds k then (-1 : ℤ) else (t.rows i).fds k) < 0 := by
        split <;> omega
      exact absurd h0 (not_le.mpr hneg)
    · show files slot = t.files slot
      rw [hclosed slot, if_neg]
      rintro ⟨fd, hfd⟩
      exact hji (hown.disjoint hdist hj hused h0 (by rw [hslot, hfd]))

/-- Ended processes stay without descriptors: they cannot open any. -/
theorem DStep.ended (hstep : DStep pid t ok t') (hend : EndedClosed t) :
    EndedClosed t' := by
  have hrow : ∀ {i : ProcSlot} {r : FdRow},
      (r.used = true → r.terminal = true → ∀ k, r.fds k < 0) →
      ∀ j k', (update t.rows i r j).used = true →
        (update t.rows i r j).terminal = true → (update t.rows i r j).fds k' < 0 := by
    intro i r hr
    exact (forall_update_iff t.rows fun _ q => ∀ k, q.used = true → q.terminal = true → q.fds k < 0).mpr
      ⟨fun k hu ht => hr hu ht k, fun j _ => hend j⟩
  -- a row that changes one descriptor to a slot is not terminal
  have hset : ∀ {i : ProcSlot} {k : Fd} {b : ℤ},
      ((t.rows i).used = true → (t.rows i).terminal = true → b < 0) →
      EndedClosed ⟨update t.rows i ((t.rows i).setFd k b), t'.files⟩ := by
    intro i k b hb
    refine hrow fun hu ht => ?_
    exact (forall_update_iff (t.rows i).fds fun _ b => b < 0).mpr
      ⟨hb hu ht, fun k' _ => hend i k' hu ht⟩
  cases hstep with
  | same => exact hend
  | create => exact hrow fun _ _ _ => Int.negSucc_lt_zero 0
  | clear =>
    refine hrow fun hu => ?_
    cases hu
  | @«open» i _ _ _ _ _ hlive =>
    refine hset fun _ ht => ?_
    rw [hlive] at ht
    cases ht
  | @put i _ _ _ hused _ hb =>
    refine hset fun _ ht => ?_
    rcases hb with rfl | ⟨k₀, hold, rfl⟩
    · decide
    · exact hend i k₀ hused ht
  | @exit i _ _ _ _ _ =>
    refine hrow fun _ _ k => ?_
    show (if 0 ≤ (t.rows i).fds k then (-1 : ℤ) else (t.rows i).fds k) < 0
    split <;> omega

/-- Nothing happened to descriptor `k` of slot `i`: it names the same slot, open on the
same node for the same opening. -/
structure FdKept (t t' : FdTable) (h h' : History) (i : ProcSlot) (k : Fd) : Prop where
  used : (t'.rows i).used = true
  pid : (t'.rows i).pid = (t.rows i).pid
  fds : (t'.rows i).fds k = (t.rows i).fds k
  file : ∀ slot : Slot, (t.rows i).fds k = (slot.val : ℤ) →
    t'.files slot = t.files slot ∧ h'.opened slot = h.opened slot

/-- **The other processes**: whatever a step does, and whether it meets its condition or
not, it leaves every descriptor of every other process alone. -/
theorem DStep.others (hstep : DStep pid t ok t') (hown : FdsOwned t h)
    (hdist : Distinct t) (hend : EndedClosed t)
    (hj : (t.rows j).used = true) (hjpid : (t.rows j).pid ≠ pid) (h0 : 0 ≤ (t.rows j).fds k') :
    FdKept t t' h (h.next pid t t') j k' := by
  -- the step acts on another row, and keeps the file behind this descriptor
  have hkept : ∀ {i r} {files : Slot → Option NodeId}, j ≠ i →
      t' = ⟨update t.rows i r, files⟩ →
      (∀ slot : Slot, (t.rows j).fds k' = (slot.val : ℤ) → files slot = t.files slot) →
      FdKept t t' h (h.next pid t t') j k' := by
    intro i r files hji ht' hfiles
    have hrow : t'.rows j = t.rows j := by
      rw [ht']
      exact update_of_ne hji _ _
    refine ⟨by rw [hrow]; exact hj, by rw [hrow], by rw [hrow], fun slot hslot => ?_⟩
    have hsame : t'.files slot = t.files slot := by
      rw [ht']
      exact hfiles slot hslot
    have hopen := hown.isOpen hj h0 hslot
    exact ⟨hsame, History.openedNext_kept hopen (by rw [hsame]; exact hopen)⟩
  have hne : ∀ {i}, (t.rows i).pid = pid → j ≠ i := by
    intro i hi he
    rw [← he] at hi
    exact hjpid hi
  cases hstep with
  | same =>
    refine ⟨hj, rfl, rfl, fun slot hslot => ⟨rfl, ?_⟩⟩
    have hopen := hown.isOpen hj h0 hslot
    exact History.openedNext_kept hopen hopen
  | @create i hfree p =>
    refine hkept (fun he => ?_) rfl fun _ _ => rfl
    rw [← he, hj] at hfree
    cases hfree
  | @clear i hor =>
    refine hkept (fun he => ?_) rfl fun _ _ => rfl
    rcases hor with hfree | hterm
    · rw [← he, hj] at hfree
      cases hfree
    · have hneg := hend j k' hj (by rw [he]; exact hterm)
      omega
  | @«open» i k slot n hused hpid _ _ hslot =>
    exact hkept (hne hpid) rfl fun slot' hs' => hown.update_open hj h0 hslot hs' _
  | put hused hpid _ hfiles =>
    refine hkept (hne hpid) rfl fun slot hslot => ?_
    refine (hfiles slot).trans (if_neg fun he => hne hpid ?_)
    exact (hown.disjoint hdist hused hj (by omega) (he.1.symm.trans hslot.symm)).symm
  | exit hused hpid _ hclosed =>
    refine hkept (hne hpid) rfl fun slot hslot => ?_
    rw [hclosed slot, if_neg]
    rintro ⟨fd, hfd⟩
    exact hne hpid (hown.disjoint hdist hj hused h0 (by rw [hslot, hfd]))

end Owned

/-! ## §3. Runs. -/

/-- The machine with its history. -/
structure Watched where
  machine : Machine
  history : History

abbrev Watched.state (w : Watched) : ProcState := w.machine.state

/-- At boot nothing has been opened. -/
def watch (m : Machine) : Watched := ⟨m, ⟨fun _ => none, fun _ _ => none, 0⟩⟩

/-- A step of the machine, with its record. -/
structure WStep (w : Watched) (e : Event) (w' : Watched) : Prop where
  step : Step w.machine e w'.machine
  record : w'.history =
    w.history.next (e.actor w.machine) w.state.fdTable w'.state.fdTable

/-- A step that closes a slot only through its last descriptor. -/
def CarefulStep (w : Watched) (e : Event) (w' : Watched) : Prop :=
  WStep w e w' ∧ CloseOk w.state e

/-- Every descriptor of every process in the table names an open slot, the opening it was
made for, and an opening of its own process. -/
def DescriptorsOwned (w : Watched) : Prop := FdsOwned w.state.fdTable w.history

/-- Descriptors of processes other than the one the event belongs to are left alone. -/
def OthersKept (w : Watched) (e : Event) (w' : Watched) : Prop :=
  ∀ i k, (w.state.procs i).used = true → (w.state.procs i).info.pid ≠ e.actor w.machine →
    0 ≤ (w.state.procs i).fds k →
    FdKept w.state.fdTable w'.state.fdTable w.history w'.history i k

/-- What holds along a careful run. -/
structure WInv (w : Watched) : Prop where
  table : TableInv w.state.table
  owned : DescriptorsOwned w
  ended : EndedClosed w.state.fdTable

variable {w : Watched}

theorem WInv.distinct (h : WInv w) : Distinct w.state.fdTable :=
  h.table.numbered.distinct

theorem watch_inv (s : ProcState) : WInv (watch (boot s)) := by
  refine ⟨boot_inv s, ?_, ?_⟩
  · intro i k hi
    cases hi
  · intro i k hi
    cases hi

theorem WInv.step {w' : Watched} {e : Event} (h : WInv w) (hstep : WStep w e w') :
    (DescriptorsOwned w' ↔ CloseOk w.state e) ∧ OthersKept w e w' := by
  obtain ⟨ok, hd, hok⟩ := step_fd h.table hstep.step
  refine ⟨?_, fun i k hi hpid h0 => ?_⟩
  · unfold DescriptorsOwned
    rw [hstep.record, ← hok]
    exact hd.owned h.owned h.distinct
  · rw [hstep.record]
    exact hd.others h.owned h.distinct h.ended hi hpid h0

theorem WInv.careful {w' : Watched} {e : Event} (h : WInv w) (hstep : CarefulStep w e w') :
    WInv w' := by
  obtain ⟨ok, hd, -⟩ := step_fd h.table hstep.1.step
  exact ⟨(step_table h.table hstep.1.step).inv h.table, (h.step hstep.1).1.mpr hstep.2, hd.ended h.ended⟩

/-- **Descriptors own their files**, in every state of every run in which a slot is only
closed through its last descriptor.  The next step keeps it so exactly when it meets that
condition too, and in any case it leaves the descriptors of other processes alone. -/
theorem descriptors_owned (s : ProcState) {l : List Event} {w : Watched}
    (h : Trace CarefulStep (watch (boot s)) l w) :
    DescriptorsOwned w ∧ ∀ e w', WStep w e w' →
      (DescriptorsOwned w' ↔ CloseOk w.state e) ∧ OthersKept w e w' := by
  have hinv : WInv w := Trace.inv WInv h (watch_inv s) fun ha hstep => ha.careful hstep
  exact ⟨hinv.owned, fun e w' hstep => hinv.step hstep⟩

/-- A computed step, recorded. -/
theorem careful_perform {env : Env} {w₀ : Watched} {l : List Event} {m' : Machine}
    (h : Trace CarefulStep w₀ l w) (e : Event) (hp : perform env w.machine e = some m')
    (hok : CloseOk w.state e) :
    Trace CarefulStep w₀ (l ++ [e])
      ⟨m', w.history.next (e.actor w.machine) w.state.fdTable m'.state.fdTable⟩ :=
  h.snoc ⟨⟨step_perform hp, rfl⟩, hok⟩

/-- Process 1 opens `/a` and duplicates the descriptor: both own the one opening. -/
theorem descriptors_owned_dup : ∃ l w, Trace CarefulStep (watch (boot blank)) l w ∧
    (w.state.procs 0).fds 0 = 0 ∧ (w.state.procs 0).fds 1 = 0 ∧ DescriptorsOwned w := by
  have h₁ := careful_perform (@Trace.nil _ _ CarefulStep (watch (boot blank)))
    (.call (.create [] 0)) (show perform env0 _ _ = some _ from rfl) trivial
  have h₂ := careful_perform h₁ (.call (.open 1 pathA rdwrCreat))
    (show perform env0 _ _ = some _ from rfl) trivial
  have h₃ := careful_perform h₂ (.call (.dup 1 0))
    (show perform env0 _ _ = some _ from rfl) trivial
  exact ⟨_, _, h₃, rfl, rfl, (descriptors_owned blank h₃).1⟩

/-- **A descriptor without a file**: process 1 opens `/a`, duplicates the descriptor and
closes the first one; the second names a slot that is not open. -/
theorem descriptors_dangle : ∃ l m i k, ∃ slot : Slot, Run (boot blank) l m ∧
    (m.state.procs i).used = true ∧ (m.state.procs i).fds k = (slot.val : ℤ) ∧
    (m.state.vfs.openFiles slot).used = false := by
  have h := run_perform (show [Event.call (.create [] 0), .call (.open 1 pathA rdwrCreat),
    .call (.dup 1 0), .call (.close 1 0)].foldlM (perform env0) (boot blank) = some _ from rfl)
  exact ⟨_, _, 0, 1, 0, h, rfl, rfl, rfl⟩

/-- **A process that has ended holds no descriptor**, in every state of every run, and no file call
made in its name does anything: `proc_dup` and `proc_dup2` do not look whether it still runs. -/
theorem ended_inert (s : ProcState) {l : List Event} {m : Machine} (h : Run (boot s) l m) {pid : ℤ}
    {i : ProcSlot} (hi : findProc m.state pid = some i)
    (hend : procIsTerminalState (m.state.procs i).info.state = true) :
    (∀ k, (m.state.procs i).fds k < 0) ∧
      ∀ env op, op.OnFiles → op.actor = pid → ∃ r, exec env m.state op = .ok (r, m.state) := by
  have hclosed : EndedClosed m.state.fdTable := by
    refine (Trace.inv (fun m => TableInv m.state.table ∧ EndedClosed m.state.fdTable) h
      ⟨boot_inv s, fun i k hi => nomatch hi⟩ ?_).2
    intro a b e ha hstep
    obtain ⟨_, hd, -⟩ := step_fd ha.1 hstep
    exact ⟨(step_table ha.1 hstep).inv ha.1, hd.ended ha.2⟩
  have hfds : ∀ k, (m.state.procs i).fds k < 0 := fun k => hclosed i k (findProc_some hi).1 hend
  have hneg : ∀ fd, fdAt m.state i fd < 0 := by
    intro fd
    unfold fdAt
    split
    · exact hfds _
    · decide
  -- no number of the process leads to an open slot
  have hslot : ∀ fd, openSlot m.state.vfs (fdAt m.state i fd) = none := fun fd =>
    dif_neg fun hr => absurd hr.1 (not_le.mpr (hneg fd))
  refine ⟨hfds, fun env op hop hact => ?_⟩
  cases op <;> try cases hop
  all_goals
    simp only [Op.actor] at hact
    subst hact
  case «open» => simp [exec, procOpen, hi, hend, Except.map]
  case read => simp [exec, procRead, realFd, vfsRead, hi, hslot, onVfs, Except.map]
  case write => simp [exec, procWrite, realFd, vfsWrite, hi, hslot, onVfs, Except.map]
  case lseek => simp [exec, procLseek, realFd, vfsLseek, hi, hslot]
  case close => simp [exec, procClose, hi, hneg]
  case dup => simp [exec, procDup, hi, hneg]
  case dup2 => simp [exec, procDup2, hi, hneg]

/-- Process 2 ends with `/a` open: its descriptor is gone, and `proc_dup` in its name is refused. -/
theorem ended_inert_kill : ∃ l m r, Run (boot blank) l m ∧ (m.state.procs 1).fds 0 < 0 ∧
    exec env0 m.state (.dup 2 0) = .ok (r, m.state) := by
  have h := run_perform (show [Event.call (.create [] 0), .call (.create [] 1),
    .call (.open 2 pathA rdwrCreat), .call (.kill 2 0)].foldlM (perform env0) (boot blank) =
      some _ from rfl)
  have hend := ended_inert blank h (i := 1) (show findProc _ 2 = some 1 from rfl) rfl
  obtain ⟨r, hr⟩ := hend.2 env0 (.dup 2 0) trivial rfl
  exact ⟨_, _, r, h, hend.1 0, hr⟩

end ExoCore.Proc
