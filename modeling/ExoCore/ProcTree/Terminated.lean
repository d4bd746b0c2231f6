/-
  ExoCore.ProcTree.Terminated — what a TERMINATED process can still do to the tree.

  A terminated object stays in the hands of whoever holds it, with its parent link, its
  permissions and its methods.  Only `run` looks at the state.  For the other methods the
  tree itself is the barrier: the object has no children any more, and it is nobody's
  child.  `spawn_child` asks for neither, so a terminated process that may spawn registers
  a child whose ancestors are not registered.

  Main results:
    • `exec_terminated` — a method of a terminated process changes nothing that belongs to
      a registered one, exactly when it is not such a spawn;
    • `terminated_inert` — in every run without such spawns, all ancestors of registered
      processes are registered.
-/
import ExoCore.ProcTree.WellFormed

namespace ExoCore.ProcTree

open ExoCore.Lib List Relation

/-! ## §1. The methods of a terminated process. -/

section Inert

variable {R Lib : Type}

/-- **Nothing that belongs to a registered process has changed.** -/
structure Frozen (m m' : Manager R Lib) : Prop where
  processes : m'.processes = m.processes
  root : m'.root = m.root
  parent : ∀ p ∈ m.processes, m'.parent p = m.parent p
  children : ∀ p ∈ m.processes, (m'.procs p).children = (m.procs p).children
  effective : ∀ p ∈ m.processes, m'.effective p = m.effective p

variable {m m' : Manager R Lib} {p : Pid}

theorem Frozen.refl (m : Manager R Lib) : Frozen m m :=
  ⟨rfl, rfl, fun _ _ => rfl, fun _ _ => rfl, fun _ _ => rfl⟩

theorem Quiet.frozen (h : Quiet m m') : Frozen m m' :=
  ⟨h.processes, h.root, fun q _ => congrFun h.parent q, fun q _ => h.children q,
    fun q _ => congrFun h.effective q⟩

/-- A tree only looks at what is frozen. -/
theorem Frozen.rooted (h : Frozen m m') (hr : Rooted m) : Rooted m' :=
  hr.of_same h.processes h.root h.parent

/-- In a tree, who is not registered has no children. -/
theorem Rooted.childless (hr : Rooted m) (hl : Links m m.processes) (hp : p ∉ m.processes) :
    (m.procs p).children = [] := by
  rw [eq_nil_iff_forall_not_mem]
  intro c hc
  obtain ⟨hlive, hpar⟩ := (hl.children p c).mp hc
  exact hp (hr.closed c p hlive hpar)

variable [LinearOrder R] [Zero R] [DecidableEq Lib]

/-- A call of `spawn_child` on a terminated process that passes all checks. -/
def GhostSpawn (m : Manager R Lib) : Op R Lib → Prop
  | .spawnChild p args => (m.procs p).state = .terminated ∧ SpawnAllowed m p args
  | _ => False

omit [Zero R] in
/-- A setter of a process without children reaches nobody else. -/
theorem Altered.frozen {r : Perms R Lib} (h : Altered m m' p r) (hp : p ∉ m.processes)
    (hnone : (m.procs p).children = []) : Frozen m m' := by
  have hsame : ∀ q ∈ m.processes, m'.procs q = m.procs q := by
    intro q hq
    have hqp : q ≠ p := fun he => hp (he ▸ hq)
    rw [h.frame q ?_, ask_of_ne hqp]
    -- a walk from `p` ends where it starts
    intro hreach
    rcases reach_iff.mp hreach with he | ⟨c, hc, -⟩
    · exact hqp he
    · rw [hnone] at hc
      cases hc
  refine ⟨h.tree.processes, h.tree.root, fun q hq => ?_, fun q hq => ?_, fun q hq => ?_⟩
  · exact congrArg Process.parent (hsame q hq)
  · exact congrArg Process.children (hsame q hq)
  · exact congrArg Process.effective (hsame q hq)

variable [Add R]

/-- **A method of a terminated process returns, and leaves the registered processes as they
were**, unless it is `spawn_child` with all checks passed. -/
theorem exec_terminated (hf : Forest m) (hr : Rooted m) {op : Op R Lib}
    (hrec : op.receiver = some p) (hp : p < m.pidCounter)
    (hterm : (m.procs p).state = .terminated) :
    ∃ out m', Returns (fun fuel => exec fuel m op) (out, m') ∧
      (Frozen m m' ↔ ¬ GhostSpawn m op) := by
  have hreg : p ∉ m.processes := fun h => (hf.alive p).mp h hterm
  have hchildless := hr.childless hf.toLinks hreg
  obtain ⟨out, m', hret, hchange⟩ := exec_change hf op (by
    intro q hq
    cases hrec.symm.trans hq
    exact hp)
  refine ⟨out, m', hret, ?_⟩
  cases hchange with
  | quiet h _ hidle =>
    refine iff_of_true h.frozen ?_
    cases op with
    | spawnChild q args => exact fun hghost => hidle hghost.2
    | _ => exact not_false
  | granted h => exact iff_of_true h.frozen not_false
  | altered _ _ h =>
    cases hrec
    exact iff_of_true (h.frozen hreg hchildless) not_false
  | created => cases hrec
  | spawned hok _ hborn _ href =>
    cases hrec
    refine iff_of_false (fun h => ?_) (not_not.mpr ⟨hterm, hok⟩)
    have hprocs := href.shape.tree.processes.trans hborn.processes
    have hlen := congrArg List.length (h.processes.symm.trans hprocs)
    rw [length_append, length_singleton] at hlen
    omega
  | pruned hop hlive =>
    -- it is not registered, and it has no children
    exfalso
    cases op with
    | terminate q | checkRuntime q =>
      cases hrec
      cases hop
      exact hreg hlive
    | killChild q childPid =>
      cases hrec
      obtain ⟨-, hc⟩ := hop
      rw [hchildless] at hc
      cases hc
    | _ => cases hop
  | promoted _ _ hc =>
    -- it is nobody's child
    cases hrec
    exact absurd ((hf.children _ p).mp hc).1 hreg

end Inert

/-! ## §2. Runs. -/

section Runs

variable {R Lib : Type} [LinearOrder R] [Zero R] [Add R] [DecidableEq Lib] {m m' : Manager R Lib}

/-- A call on any pid handed out so far, other than a spawn by a terminated process. -/
def GuardedCall (m m' : Manager R Lib) : Prop :=
  ∃ op, (∀ p, Op.receiver op = some p → p < m.pidCounter) ∧ ¬ GhostSpawn m op ∧ Called m op m'

theorem GuardedCall.keeps (h : GuardedCall m m') (hf : Forest m) (hr : Rooted m) :
    Forest m' ∧ Rooted m' := by
  obtain ⟨op, hrec, hguard, out, hcall⟩ := h
  have hchange := change_of_returns hcall hf hrec
  refine ⟨hchange.forest hf hrec, ?_⟩
  by_cases hreg : ∀ p, op.receiver = some p → p ∈ m.processes
  · exact hchange.rooted hf hr hreg
  · -- the receiver is not registered, hence terminated
    push Not at hreg
    obtain ⟨p, hp, hnot⟩ := hreg
    have hterm : (m.procs p).state = .terminated := by
      by_contra hne
      exact hnot ((hf.alive p).mpr hne)
    obtain ⟨out', m'', hret, hiff⟩ := exec_terminated hf hr hp (hrec p hp) hterm
    cases hret.unique hcall
    exact (hiff.mpr hguard).rooted hr

theorem guarded_run (hrun : ReflTransGen GuardedCall (newManager R Lib) m) :
    Forest m ∧ Rooted m := by
  refine inv_of_run (fun m => Forest m ∧ Rooted m) hrun ⟨newManager_forest, newManager_rooted⟩ ?_
  intro a b ha hab
  exact hab.keeps ha.1 ha.2

/-- **TERMINATED PROCESSES CANNOT ACT ON THE TREE**, in a run in which no terminated process
has spawned: every ancestor of a registered process is registered, and every method of every
terminated process returns and leaves what belongs to registered processes as it was, except
for such a spawn. -/
theorem terminated_inert (hrun : ReflTransGen GuardedCall (newManager R Lib) m) :
    (∀ p a, p ∈ m.processes → Below m.parent a p → a ∈ m.processes) ∧
      ∀ op p, Op.receiver op = some p → p < m.pidCounter → (m.procs p).state = .terminated →
        (∃ m', Called m op m') ∧ ∀ m', Called m op m' → (Frozen m m' ↔ ¬ GhostSpawn m op) := by
  obtain ⟨hf, hr⟩ := guarded_run hrun
  constructor
  · rintro p a hp ⟨l, hl, ha⟩
    -- along the line from `p`
    induction hl with
    | top _ =>
      cases mem_singleton.mp ha
      exact hp
    | @step x y l hpar _ ih =>
      rcases mem_cons.mp ha with rfl | ha
      · exact hp
      · exact ih (hr.closed x y hp hpar) ha
  · intro op p hrec hp hterm
    obtain ⟨out, m', hret, hiff⟩ := exec_terminated hf hr hrec hp hterm
    refine ⟨⟨m', out, hret⟩, fun m'' hcall => ?_⟩
    obtain ⟨out', hret'⟩ := hcall
    cases hret.unique hret'
    exact hiff

end Runs

/-- The kernel process of `kernelOnly` has terminated itself. -/
def ended : Manager ℕ ℕ := detach kernelOnly 1

theorem ended_called : Called kernelOnly (.terminate 1 none) ended :=
  ⟨.ok (), .stop fun _ => rfl⟩

/-- The child of `jailed` has been terminated; its parent goes on. -/
def dropped : Manager ℕ ℕ := detach jailed 2

theorem dropped_reached : ReflTransGen GuardedCall (newManager ℕ ℕ) dropped := by
  refine .tail (.tail (.single ?_) ⟨_, ?_, fun h => (by cases h.1), jailed_spawned⟩)
    ⟨.terminate 2 none, ?_, not_false, .ok (), .stop fun _ => rfl⟩
  · exact ⟨.createKernelProcess ⟨true, false, 0, .none, none, true, none⟩, nofun, not_false, _,
      Returns.pure _⟩
  · rintro p ⟨⟩
    decide
  · rintro p ⟨⟩
    decide

/-- The terminated child runs, leaves its sandbox and terminates its parent: all in vain. -/
theorem terminated_inert_dropped :
    (dropped.procs 2).state = .terminated ∧ dropped.processes = [1] ∧
      (∃ m', Called dropped (.runEnter 2 true 0) m' ∧ Frozen dropped m') ∧
      (∃ m', Called dropped (.set 2 (.sandboxed false) none) m' ∧ Frozen dropped m') ∧
      ∃ m', Called dropped (.requestParentTermination 2) m' ∧ Frozen dropped m' := by
  have hinert := (terminated_inert dropped_reached).2
  refine ⟨rfl, rfl, ?_, ?_, ?_⟩
  · obtain ⟨⟨m', hcall⟩, hiff⟩ := hinert (.runEnter 2 true 0) 2 rfl (by decide) rfl
    exact ⟨m', hcall, (hiff m' hcall).mpr not_false⟩
  · obtain ⟨⟨m', hcall⟩, hiff⟩ := hinert (.set 2 (.sandboxed false) none) 2 rfl (by decide) rfl
    exact ⟨m', hcall, (hiff m' hcall).mpr not_false⟩
  · obtain ⟨⟨m', hcall⟩, hiff⟩ := hinert (.requestParentTermination 2) 2 rfl (by decide) rfl
    exact ⟨m', hcall, (hiff m' hcall).mpr not_false⟩

/-- The child the terminated kernel process has spawned. -/
def haunted : Manager ℕ ℕ := refreshSelf (linked ended 1 true ⟨false, none, none, true, none, 0⟩) 2

/-- **A terminated process spawns**: from the reachable state in which the kernel process is
terminated and the registry is empty, its `spawn_child` registers process 2, whose parent is
not registered. -/
theorem ghost_spawn :
    ReflTransGen AnyCall (newManager ℕ ℕ) ended ∧ (ended.procs 1).state = .terminated ∧
      Called ended (.spawnChild 1 ⟨true, none, none, .none, none, true, none⟩) haunted ∧
      ended.processes = [] ∧ haunted.processes = [2] ∧ haunted.parent 2 = some 1 ∧
      ¬ Frozen ended haunted := by
  refine ⟨?_, rfl, ?_, rfl, rfl, rfl, fun h => ?_⟩
  · refine .tail (.single ?_) ⟨_, ?_, ended_called⟩
    · exact ⟨.createKernelProcess ⟨true, false, 0, .none, none, true, none⟩, nofun, _,
        Returns.pure _⟩
    · rintro p ⟨⟩
      decide
  · exact ⟨.ok (), .stop fun _ => rfl⟩
  · cases h.processes

end ExoCore.ProcTree
