/-
  ExoCore.Proc.Failed — an open that answers `-1`.

  `vfs_open` resolves, creates, truncates and only then looks for a slot; `proc_open`
  calls it and only then looks for a descriptor.  When the later table is full, the
  earlier steps have been taken already and are NOT taken back.

    * `failed_open` — exactly when a failed open changes nothing;
    * `failed_open_creates` — a run that fills the table of open files, and a failed open
      that leaves a new file behind.
-/
import ExoCore.Proc.Current
import ExoCore.Vfs.Slots

namespace ExoCore.Proc

open ExoCore.Lib ExoCore.Vfs

/-- The node table with the contents of its files, and the set of open slots. -/
structure VfsSame (v v' : VfsState) : Prop where
  nodes : v'.nodes = v.nodes
  bufs : v'.bufs = v.bufs
  slots : ∀ k, (v'.openFiles k).used = (v.openFiles k).used

/-- `pid` has a descriptor left. -/
def FdFree (s : ProcState) (pid : ℤ) : Prop :=
  ∃ i fd, findProc s pid = some i ∧ (s.procs i).fds fd < 0

section Open

variable {env : Env} {s s' : ProcState} {pid : ℤ} {path : Str} {flags : ℕ}

/-- When `proc_open` finds no descriptor it closes the slot it was given. -/
theorem installFd_failed {i : ProcSlot} {slot : Slot} (h : (-1, s') = installFd s i slot) :
    (∀ fd, 0 ≤ (s.procs i).fds fd) ∧ s'.vfs = (vfsClose s.vfs (slot.val : ℤ)).2 := by
  unfold installFd at h
  split at h
  · rename_i fd _
    have hfd : (-1 : ℤ) = ((fd : ℕ) : ℤ) := congrArg Prod.fst h
    omega
  · rename_i hfull
    have hs' : s' = { s with vfs := (vfsClose s.vfs (slot.val : ℤ)).2 } := congrArg Prod.snd h
    refine ⟨fun fd => ?_, by rw [hs']⟩
    have hfd := List.find?_eq_none.mp hfull fd (List.mem_finRange fd)
    simpa using hfd

theorem procOpen_failed (h : procOpen env s pid path flags = .ok (-1, s')) :
    VfsSame s.vfs s'.vfs ↔
      ¬LiveProc s pid ∨ (SlotFree s.vfs ∧ FdFree s pid) ∨ NoEffect s.vfs path flags := by
  rcases procOpen_cases h with ⟨hdead, -, rfl⟩ | ⟨i, hi, hlive, ⟨v, hv, -, rfl⟩ | ⟨slot, v, hv, hinst⟩⟩
  · exact ⟨fun _ => .inl hdead, fun _ => ⟨rfl, rfl, fun _ => rfl⟩⟩
  · -- `vfs_open` failed
    obtain ⟨-, hiff⟩ := vfsOpen_failed hv
    constructor
    · intro hsame
      rcases hiff.mp hsame.nodes with hfree | hno
      · exact .inr (.inr (vfsOpen_refused hv hfree))
      · exact .inr (.inr hno)
    · intro hor
      have hno : SlotFree s.vfs ∨ NoEffect s.vfs path flags := by
        rcases hor with hdead | ⟨hfree, -⟩ | hno
        · exact absurd ⟨i, hi, hlive⟩ hdead
        · exact .inl hfree
        · exact .inr hno
      refine ⟨hiff.mpr hno, vfsOpen_bufs hv, fun k => ?_⟩
      rw [(vfsOpen_slots hv).1 rfl]
  · -- no descriptor was left, and the slot was closed again
    obtain ⟨hfull, hvfs⟩ := installFd_failed hinst
    have hvfs : s'.vfs = (vfsClose v (slot.val : ℤ)).2 := hvfs
    obtain ⟨-, hslots⟩ := vfsOpen_slots hv
    obtain ⟨hunused, -, hother⟩ := hslots slot rfl
    have hnodes : s'.vfs.nodes = v.nodes := by rw [hvfs, (vfsClose_rest v _).1]
    constructor
    · intro hsame
      exact .inr (.inr ((vfsOpen_succeeded hv).mp (hnodes.symm.trans hsame.nodes)))
    · intro hor
      have hno : NoEffect s.vfs path flags := by
        rcases hor with hdead | ⟨-, j, fd, hj, hfd⟩ | hno
        · exact absurd ⟨i, hi, hlive⟩ hdead
        · cases hi.symm.trans hj
          exact absurd hfd (not_lt.mpr (hfull fd))
        · exact hno
      refine ⟨hnodes.trans ((vfsOpen_succeeded hv).mpr hno), ?_, fun k => ?_⟩
      · rw [hvfs, (vfsClose_rest v _).2, vfsOpen_bufs hv]
      · obtain ⟨hclosed, hkept⟩ := vfsClose_slots v (slot.val : ℤ) k
        rw [hvfs]
        by_cases hk : k = slot
        · subst hk
          rw [hclosed rfl, hunused]
        · rw [hkept (fun he => hk (Fin.ext (by omega))), hother k hk]

end Open

/-- **A failed open.**  `vfs_open` that answers `-1` has changed nothing exactly when a
slot was free, or the call had nothing to create and nothing to cut; `proc_open` that
answers `-1` has kept the node table and the open slots exactly when the process could
not open at all, or a slot and a descriptor were free, or again the call had nothing to
create and nothing to cut. -/
theorem failed_open (alloc : Allocator) (env : Env) (v : VfsState) (s : ProcState) (pid : ℤ)
    (path : Str) (flags : ℕ) :
    (∀ v', vfsOpen alloc v path flags = .ok (none, v') →
      (v' = v ↔ SlotFree v ∨ NoEffect v path flags)) ∧
    ∀ s', procOpen env s pid path flags = .ok (-1, s') →
      (VfsSame s.vfs s'.vfs ↔
        ¬LiveProc s pid ∨ (SlotFree s.vfs ∧ FdFree s pid) ∨ NoEffect s.vfs path flags) := by
  refine ⟨?_, ?_⟩
  · intro v' h
    exact (vfsOpen_failed h).1
  · intro s' h
    exact procOpen_failed h

/-- `/b`. -/
def pathB : Str := [0x2F, 0x62]

/-- The VFS after `path` was opened `n` times from `v`. -/
def openMany (path : Str) (flags : ℕ) (v : VfsState) : ℕ → VfsState
  | 0 => v
  | n + 1 => after noMemory (openMany path flags v n) (.open path flags)

theorem openMany_run (path : Str) (flags : ℕ) (v : VfsState) (n : ℕ) :
    Vfs.Run (fun _ _ => True) v (openMany path flags v n) := by
  induction n with
  | zero => exact .refl
  | succ n ih =>
    obtain ⟨r, v', h⟩ := vfsOpen_returns noMemory (openMany path flags v n) path flags
    have hexec : Vfs.exec noMemory (openMany path flags v n) (.open path flags) =
        .ok (Vfs.Ret.ofOption .fd r, v') := map_ok.mpr ⟨_, h, rfl⟩
    have hafter : openMany path flags v (n + 1) = v' := by
      unfold openMany after
      rw [hexec]
    rw [hafter]
    exact ih.tail (step_of_exec (.open path flags) trivial hexec)

/-- All 32 slots are open on `/a`. -/
def fullVfs : VfsState := openMany pathA rdwrCreat (vfsInit Vfs.blank).2 32

/-- Nothing is left to open `/a` with, neither in the VFS nor in process 1: the call fails and
changes nothing. -/
theorem failed_open_full :
    (∃ v', vfsOpen noMemory fullVfs pathA 1 = .ok (none, v') ∧ v' = fullVfs) ∧
    ∃ l m s', Run (boot blank) l m ∧ LiveProc m.state 1 ∧
      procOpen env0 m.state 1 pathA 1 = .ok (-1, s') ∧ VfsSame m.state.vfs s'.vfs := by
  have hvfs : (vfsOpen noMemory fullVfs pathA 1).toOption.map Prod.fst = some none := by
    decide +kernel
  have hrun : ∃ l m, Run (boot blank) l m ∧ LiveProc m.state 1 ∧
      (procOpen env0 m.state 1 pathA 1).toOption.map Prod.fst = some (-1) :=
    ⟨_, _, run_perform (show (Event.call (.create [] 0) ::
      List.replicate 16 (Event.call (.open 1 pathA rdwrCreat))).foldlM (perform env0) (boot blank) =
        some _ from rfl), ⟨0, rfl, rfl⟩, rfl⟩
  obtain ⟨l, m, hrun, hlive, hproc⟩ := hrun
  generalize fullVfs = v at hvfs ⊢
  obtain ⟨⟨_, v'⟩, hv', rfl⟩ := Option.map_eq_some_iff.mp hvfs
  obtain ⟨⟨r, s'⟩, hs', hr⟩ := Option.map_eq_some_iff.mp hproc
  obtain rfl : r = -1 := hr
  obtain ⟨hopen, hopen'⟩ := failed_open noMemory env0 v m.state 1 pathA 1
  refine ⟨⟨v', toOption_some hv', ?_⟩, l, m, s', hrun, hlive, toOption_some hs', ?_⟩
  · exact (hopen v' (toOption_some hv')).mpr (.inr (noEffect_rdonly v pathA))
  · exact (hopen' s' (toOption_some hs')).mpr (.inr (.inr (noEffect_rdonly _ _)))
/-- **A failed open that leaves a file behind**: `/a` is opened until all 32 slots are in
use, and `open("/b", O_CREAT)` then answers `-1` with `/b` in the node table; and a process
with 16 descriptors gets the same from `proc_open`. -/
theorem failed_open_creates :
    (∃ v v', Vfs.Run (fun _ _ => True) (vfsInit Vfs.blank).2 v ∧
      vfsOpen noMemory v pathB rdwrCreat = .ok (none, v') ∧ v'.nodes ≠ v.nodes) ∧
    ∃ l m s', Run (boot blank) l m ∧ procOpen env0 m.state 1 pathB rdwrCreat = .ok (-1, s') ∧
      s'.vfs.nodes ≠ m.state.vfs.nodes := by
  refine ⟨?_, ?_⟩
  · have hrun := openMany_run pathA rdwrCreat (vfsInit Vfs.blank).2 32
    have hfull : (vfsOpen noMemory (openMany pathA rdwrCreat (vfsInit Vfs.blank).2 32) pathB
        rdwrCreat).toOption.map (fun x => (x.1, (x.2.nodes 2).used)) = some (none, true) := by
      decide +kernel
    obtain ⟨⟨r, v'⟩, hopen, heq⟩ := Option.map_eq_some_iff.mp hfull
    obtain ⟨rfl, hused⟩ := Prod.mk.inj heq
    refine ⟨_, v', hrun, toOption_some hopen, fun he => ?_⟩
    have hunused : ((openMany pathA rdwrCreat (vfsInit Vfs.blank).2 32).nodes 2).used = false := by
      decide +kernel
    rw [he, hunused] at hused
    cases hused
  · have h := run_perform (show (Event.call (.create [] 0) ::
      List.replicate 16 (Event.call (.open 1 pathA rdwrCreat))).foldlM (perform env0) (boot blank) =
        some _ from rfl)
    refine ⟨_, _, _, h, rfl, fun he => ?_⟩
    have h2 := congrArg VfsNode.used (congrFun he 2)
    revert h2
    decide +kernel

end ExoCore.Proc
