/-
  ExoCore.ProcTree.Runs — sequences of calls on the process tree.

  `Op` lists the calls, `exec` is the dispatcher over the methods.  `Change` says
  ONCE what a call can do to the tree: nothing, alter one request, add a leaf,
  prune a subtree, or promote a child.  Invariants are checked on `Change`.

    * `exec_change`      — every call on a forest returns, and makes one of these
                           changes;
    * `Change.forest`    — each of them leaves a forest;
    * `Change.rooted`    — and, for calls on registered processes, a TREE: every
                           ancestor of a registered process is registered;
    * `effective_meet_along_chain` — in every state of a run, effective permissions
                           are the meet of the requests along the ancestor chain;
    * `load_library_confined` — so no process loads what an ancestor may not.
-/
import ExoCore.ProcTree.Promotion

namespace ExoCore.ProcTree

open ExoCore.Lib List

/-! ## §1. Calls. -/

/-- The permission setters, with their arguments. -/
inductive Setting (R Lib : Type) where
  | allowedLibraries (libraries : Libraries Lib)
  | addLibrary (library : Lib)
  | removeLibrary (library : Lib)
  | maxRuntime (seconds : Option R)
  | sandboxed (sandboxed : Bool)
  | canSpawn (canSpawn : Bool)
  | maxChildren (maxChildren : Option ℤ)
  | ring (ring : ℤ)

/-- The calls that change state.  `caller` is the argument `by`; a call of `run` is its
entry and, later, its exit. -/
inductive Op (R Lib : Type) where
  | createKernelProcess (args : NewArgs R Lib)
  | spawnChild (p : Pid) (args : SpawnArgs R Lib)
  | set (p : Pid) (s : Setting R Lib) (caller : Option Pid)
  | setCanKillParent (p : Pid) (allow : Bool) (caller : Option Pid)
  | runEnter (p : Pid) (newTarget : Bool) (now : R)
  | runLeave (p : Pid)
  | terminate (p : Pid) (caller : Option Pid)
  | checkRuntime (p : Pid) (now : R)
  | killChild (p childPid : Pid) (caller : Option Pid)
  | requestParentTermination (p : Pid)

/-- The object a method is called on. -/
def Op.receiver {R Lib : Type} : Op R Lib → Option Pid
  | .createKernelProcess _ => none
  | .spawnChild p _ => some p
  | .set p _ _ => some p
  | .setCanKillParent p _ _ => some p
  | .runEnter p _ _ => some p
  | .runLeave p => some p
  | .terminate p _ => some p
  | .checkRuntime p _ => some p
  | .killChild p _ _ => some p
  | .requestParentTermination p => some p

/-! ## §2. What a call can do. -/

section Change

variable {R Lib : Type} [LinearOrder R] [Zero R] [DecidableEq Lib]

/-- What the setter `s` makes of the requested permissions. -/
def Setting.change (s : Setting R Lib) (r : Perms R Lib) : Except Err (Perms R Lib) :=
  match s with
  | .allowedLibraries libraries => changeLibraries libraries r
  | .addLibrary library => ProcTree.addLibrary library r
  | .removeLibrary library => ProcTree.removeLibrary library r
  | .maxRuntime seconds => changeRuntime seconds r
  | .sandboxed value => changeSandboxed value r
  | .canSpawn value => changeCanSpawn value r
  | .maxChildren value => changeMaxChildren value r
  | .ring value =>
    if value = 0 ∨ value = 3 then changeRing value r
    else .error (.valueError "Ring must be 0 or 3")

/-- The permission to terminate the parent is the same everywhere. -/
def SameGrants (m m' : Manager R Lib) : Prop :=
  ∀ q, (m'.procs q).canKillParent = (m.procs q).canKillParent

/-- The checks of `spawn_child`, and those of the constructor, pass. -/
structure SpawnAllowed (m : Manager R Lib) (p : Pid) (args : SpawnArgs R Lib) : Prop where
  canSpawn : (m.effective p).canSpawn = true
  limit : childLimitReached m p = false
  ring : args.ring.getD (m.effective p).ring = 0 ∨ args.ring.getD (m.effective p).ring = 3
  maxRuntime : ∀ v, args.maxRuntime = some v → 0 < v
  maxChildren : ∀ v, args.maxChildren = some v → 1 ≤ v

/-- What is known of a call that leaves the tree as it is. -/
def Idle (m : Manager R Lib) (out : Except Err Unit) : Op R Lib → Prop
  | .spawnChild p args => ¬ SpawnAllowed m p args
  | .set p s caller =>
    ¬ Below m.parent (caller.getD p) p ∨ ∃ e, s.change (m.requested p) = .error e
  | .requestParentTermination _ => out ≠ .ok ()
  | _ => True

/-- The process that a call is there to terminate. -/
def Op.Kills (m : Manager R Lib) (target : Pid) : Op R Lib → Prop
  | .terminate p _ => p = target
  | .checkRuntime p _ => p = target
  | .killChild p childPid _ => childPid = target ∧ childPid ∈ (m.procs p).children
  | _ => False

/-- **What a call does to the tree**, with its outcome.  What raises, and what only concerns
runs, is `quiet`. -/
inductive Change (m : Manager R Lib) : Op R Lib → Except Err Unit → Manager R Lib → Prop
  | quiet {op : Op R Lib} {out : Except Err Unit} {m' : Manager R Lib} (h : Quiet m m')
      (hkill : SameGrants m m') (hidle : Idle m out op) : Change m op out m'
  | granted {p : Pid} {allow : Bool} {caller : Option Pid} {out : Except Err Unit}
      {m' : Manager R Lib} (h : Quiet m m') (hctl : Below m.parent (caller.getD p) p)
      (hself : caller.getD p ≠ p)
      (hkill : ∀ q, q ≠ p → (m'.procs q).canKillParent = (m.procs q).canKillParent) :
      Change m (.setCanKillParent p allow caller) out m'
  | altered {p : Pid} {s : Setting R Lib} {caller : Option Pid} {r : Perms R Lib}
      {out : Except Err Unit} {m' : Manager R Lib} (hctl : Below m.parent (caller.getD p) p)
      (hr : s.change (m.requested p) = .ok r) (h : Altered m m' p r) :
      Change m (.set p s caller) out m'
  | created {args : NewArgs R Lib} {r : Perms R Lib} {out : Except Err Unit} {m' : Manager R Lib}
      (hroot : m.root = none) (hnew : m'.root = some m.pidCounter)
      (hring : r.ring = 0 ∨ r.ring = 3) (h : Born m m' none r) :
      Change m (.createKernelProcess args) out m'
  | spawned {p : Pid} {args : SpawnArgs R Lib} {r : Perms R Lib} {out : Except Err Unit}
      {m₁ m' : Manager R Lib} (hok : SpawnAllowed m p args)
      (hring : r.ring = 0 ∨ r.ring = 3) (h : Born m m₁ (some p) r) (hroot : m₁.root = m.root)
      (href : Refreshed m₁ m' (Reach m₁ m.pidCounter)) : Change m (.spawnChild p args) out m'
  | pruned {op : Op R Lib} {p : Pid} {out : Except Err Unit} {m' : Manager R Lib}
      (hop : op.Kills m p) (hlive : p ∈ m.processes) (h : Pruned m m' (Doomed m p)) :
      Change m op out m'
  | promoted {p c : Pid} {out : Except Err Unit} {m' : Manager R Lib} (hpar : m.parent c = some p)
      (hkill : (m.procs c).canKillParent = true) (hc : c ∈ (m.procs p).children)
      (h : Promoted m m' p c) : Change m (.requestParentTermination c) out m'

variable {m m' : Manager R Lib}

theorem Change.idle {op : Op R Lib} {out : Except Err Unit} (h : Idle m out op) :
    Change m op out m :=
  .quiet (.refl m) (fun _ => rfl) h

end Change

/-! ## §3. The calls, one by one. -/

section Exec

variable {R Lib : Type} [LinearOrder R] [Zero R] [DecidableEq Lib] {m m' : Manager R Lib}

theorem setCanKillParent_change (hf : Forest m) (p : Pid) (allow : Bool) (caller : Option Pid) :
    ∃ out m', Returns (fun fuel => setCanKillParent fuel m p allow caller) (out, m') ∧
      Change m (.setCanKillParent p allow caller) out m' := by
  unfold setCanKillParent
  by_cases hroot : m.parent p = none
  · simp only [if_pos hroot]
    exact ⟨_, m, Returns.pure _, .idle trivial⟩
  · by_cases hself : caller.getD p = p
    · simp only [if_neg hroot, if_pos hself]
      exact ⟨_, m, Returns.pure _, .idle trivial⟩
    · simp only [if_neg hroot, if_neg hself]
      rcases assertControl_spec hf.lines (caller.getD p) p with ⟨hb, hctl⟩ | ⟨-, hctl⟩
      · refine ⟨_, _, hctl.andThen (Returns.pure _),
          .granted (Quiet.modify m p rfl rfl rfl rfl .rfl) hb hself fun q hq => ?_⟩
        simp only [Manager.modify, Function.update_of_ne hq]
      · exact ⟨_, m, hctl.andThen (Returns.pure _), .idle trivial⟩

theorem runLeave_change (m : Manager R Lib) (p : Pid) :
    Change m (.runLeave p) (.ok ()) (runLeave m p) := by
  unfold runLeave
  split
  · exact .idle trivial
  · rename_i hterm
    refine .quiet (Quiet.modify m p rfl rfl rfl rfl ?_) (modify_field m _ rfl) trivial
    exact iff_of_false ProcessState.noConfusion hterm

section

variable (hf : Forest m)
include hf

/-- The calls that terminate: `_terminate` on some process, or nothing. -/
theorem terminate_change {op : Op R Lib} {target : Pid} (controller : Pid)
    (hop : op.Kills m target) (hidle : ∀ out, Idle m out op) :
    ∃ out m', Returns (fun fuel => do
        match ← assertControl fuel m controller target with
        | .error e => Except.ok (Except.error e, m)
        | .ok () => do
          let m ← terminateTree fuel m target
          .ok (.ok (), m)) (out, m') ∧ Change m op out m' := by
  rcases assertControl_spec hf.lines controller target with ⟨-, hctl⟩ | ⟨-, hctl⟩
  · by_cases hlive : target ∈ m.processes
    · obtain ⟨m', hret, h⟩ := terminate_returns hf target
      exact ⟨_, m', hctl.andThen (hret.andThen (Returns.pure _)), .pruned hop hlive h⟩
    · have hterm := not_not.mp fun hne => hlive ((hf.alive target).mpr hne)
      have hstop : Returns (fun fuel => terminateTree fuel m target) m :=
        .stop fun _ => if_pos hterm
      exact ⟨_, m, hctl.andThen (hstop.andThen (Returns.pure _)), .idle (hidle _)⟩
  · exact ⟨_, m, hctl.andThen (Returns.pure _), .idle (hidle _)⟩

theorem killChild_change (p childPid : Pid) (caller : Option Pid) :
    ∃ out m', Returns (fun fuel => killChild fuel m p childPid caller) (out, m') ∧
      Change m (.killChild p childPid caller) out m' := by
  unfold killChild
  by_cases hc : childPid ∉ (m.procs p).children
  · simp only [if_pos hc]
    exact ⟨_, m, Returns.pure _, .idle trivial⟩
  · simp only [if_neg hc]
    exact terminate_change hf (caller.getD p) ⟨rfl, not_not.mp hc⟩ fun _ => trivial

omit [Zero R] in
/-- A check after the deadline. -/
theorem checkRuntime_late {p : Pid} {deadline now : R} (hrun : (m.procs p).state = .running)
    (hdeadline : (m.procs p).deadline = some deadline) (hlate : deadline < now) : ∃ m',
      Returns (fun fuel => checkRuntime fuel m p now)
        (.error (.timeout s!"Process {p} exceeded runtime"), m') ∧ Pruned m m' (Doomed m p) := by
  obtain ⟨m', hret, h⟩ := terminate_returns hf p
  refine ⟨m', ?_, h⟩
  simp only [checkRuntime, hrun, hdeadline, ne_eq, not_true_eq_false, if_false, if_pos hlate]
  exact hret.andThen (Returns.pure _)

/-- **`check_runtime`** does nothing, or terminates the process. -/
theorem checkRuntime_change (p : Pid) (now : R) :
    ∃ out m', Returns (fun fuel => checkRuntime fuel m p now) (out, m') ∧
      Change m (.checkRuntime p now) out m' := by
  by_cases hrun : (m.procs p).state = .running
  · cases hdeadline : (m.procs p).deadline with
    | none =>
      refine ⟨.ok (), m, ?_, .idle trivial⟩
      simp only [checkRuntime, hrun, hdeadline, ne_eq, not_true_eq_false, if_false]
      exact Returns.pure _
    | some deadline =>
      by_cases hlate : deadline < now
      · obtain ⟨m', hret, h⟩ := checkRuntime_late hf hrun hdeadline hlate
        have hlive : p ∈ m.processes := (hf.alive p).mpr (by simp [hrun])
        exact ⟨_, m', hret, .pruned rfl hlive h⟩
      · refine ⟨.ok (), m, ?_, .idle trivial⟩
        simp only [checkRuntime, hrun, hdeadline, ne_eq, not_true_eq_false, if_false, if_neg hlate]
        exact Returns.pure _
  · refine ⟨.ok (), m, ?_, .idle trivial⟩
    simp only [checkRuntime, if_pos hrun]
    exact Returns.pure _

end

variable [Add R]

/-- The setter that `s` names. -/
def Setting.call (fuel : ℕ) (m : Manager R Lib) (p : Pid) (caller : Option Pid) :
    Setting R Lib → Except Halt (Outcome R Lib Unit)
  | .allowedLibraries libraries => setAllowedLibraries fuel m p libraries caller
  | .addLibrary library => addAllowedLibrary fuel m p library caller
  | .removeLibrary library => removeAllowedLibrary fuel m p library caller
  | .maxRuntime seconds => setMaxRuntime fuel m p seconds caller
  | .sandboxed value => setSandboxed fuel m p value caller
  | .canSpawn value => setCanSpawn fuel m p value caller
  | .maxChildren value => setMaxChildren fuel m p value caller
  | .ring value => setRingLevel fuel m p value caller

/-- The outcome without the value. -/
def forget {α : Type} (o : Outcome R Lib α) : Outcome R Lib Unit := (o.1.map fun _ => (), o.2)

/-- One call. -/
def exec (fuel : ℕ) (m : Manager R Lib) : Op R Lib → Except Halt (Outcome R Lib Unit)
  | .createKernelProcess args => .ok (forget (createKernelProcess m args))
  | .spawnChild p args => (spawnChild fuel m p args).map forget
  | .set p s caller => s.call fuel m p caller
  | .setCanKillParent p allow caller => setCanKillParent fuel m p allow caller
  | .runEnter p newTarget now => .ok (runEnter m p newTarget now)
  | .runLeave p => .ok (.ok (), runLeave m p)
  | .terminate p caller => terminate fuel m p caller
  | .checkRuntime p now => checkRuntime fuel m p now
  | .killChild p childPid caller => killChild fuel m p childPid caller
  | .requestParentTermination p => requestParentTermination fuel m p

section

variable (hf : Forest m)
include hf

/-- **A setter**, in the terms of `Setting.change`. -/
theorem Setting.call_spec (p : Pid) (s : Setting R Lib) (caller : Option Pid) :
    ∃ out m', Returns (fun fuel => s.call fuel m p caller) (out, m') ∧
      Asked m m' p caller (s.change (m.requested p)) := by
  cases s with
  | allowedLibraries libraries => exact setPermission_spec hf p caller (changeLibraries libraries)
  | addLibrary library => exact setPermission_spec hf p caller (ProcTree.addLibrary library)
  | removeLibrary library => exact setPermission_spec hf p caller (ProcTree.removeLibrary library)
  | maxRuntime seconds => exact setPermission_spec hf p caller (changeRuntime seconds)
  | sandboxed value => exact setPermission_spec hf p caller (changeSandboxed value)
  | canSpawn value => exact setPermission_spec hf p caller (changeCanSpawn value)
  | maxChildren value => exact setPermission_spec hf p caller (changeMaxChildren value)
  | ring value =>
    by_cases hring : value = 0 ∨ value = 3
    · simp only [Setting.call, setRingLevel, Setting.change, if_neg (not_not.mpr hring),
        if_pos hring]
      exact setPermission_spec hf p caller (changeRing value)
    · -- the ring is checked before the controller
      simp only [Setting.call, setRingLevel, Setting.change, if_pos hring, if_neg hring]
      exact ⟨_, m, Returns.pure _, .inl ⟨.inr ⟨_, rfl⟩, rfl⟩⟩

theorem Setting.call_change (p : Pid) (s : Setting R Lib) (caller : Option Pid) :
    ∃ out m', Returns (fun fuel => s.call fuel m p caller) (out, m') ∧
      Change m (.set p s caller) out m' := by
  obtain ⟨out, m', hret, ⟨hidle, rfl⟩ | ⟨hctl, r, hr, h⟩⟩ := s.call_spec hf p caller
  · exact ⟨out, m', hret, .idle hidle⟩
  · exact ⟨out, m', hret, .altered hctl hr h⟩

theorem createKernelProcess_change (args : NewArgs R Lib) (out : Except Err Unit) :
    Change m (.createKernelProcess args) out (createKernelProcess m args).2 := by
  unfold createKernelProcess
  cases hroot : m.root with
  | some _ => exact .idle trivial
  | none =>
    rcases initProcess_cases m none args with ⟨-, e, m', heq, hq, hprocs⟩ |
        ⟨hok, r, hring, heq⟩
    · rw [heq]
      exact .quiet hq (fun q => by rw [hprocs]) trivial
    · rw [heq]
      exact .created hroot rfl hring (born_root hf args.hasTarget r _)

/-- **`spawn_child`**: without permission nothing happens, with it a leaf is added below `p`,
and refreshed. -/
theorem spawnChild_change {p : Pid} (hp : p < m.pidCounter) (args : SpawnArgs R Lib) :
    ∃ out m', Returns (fun fuel => spawnChild fuel m p args) (out, m') ∧
      ∀ out', Change m (.spawnChild p args) out' m' := by
  unfold spawnChild
  by_cases hcan : (m.effective p).canSpawn = false
  · simp only [if_pos hcan]
    refine ⟨_, m, Returns.pure _, fun _ => .idle fun h => ?_⟩
    exact Bool.noConfusion (h.canSpawn.symm.trans hcan)
  by_cases hfull : childLimitReached m p = true
  · simp only [if_neg hcan, if_pos hfull]
    refine ⟨_, m, Returns.pure _, fun _ => .idle fun h => ?_⟩
    exact Bool.noConfusion (h.limit.symm.trans hfull)
  simp only [if_neg hcan, if_neg hfull]
  rcases initProcess_cases m (some p) (NewArgs.mk args.hasTarget
    (args.sandboxed.getD (m.effective p).sandboxed) (args.ring.getD (m.effective p).ring)
    args.allowedLibraries args.maxRuntime args.canSpawn args.maxChildren) with
    ⟨hno, e, m', heq, hq, hprocs⟩ | ⟨hok, r, hring, heq⟩
  · simp only [heq]
    refine ⟨_, m', Returns.pure _, fun _ => .quiet hq (fun q => by rw [hprocs]) fun h => hno ?_⟩
    exact ⟨h.ring, h.maxRuntime, h.maxChildren⟩
  · simp only [heq]
    have hborn := born_child hf hp args.hasTarget r
    have hforest := hborn.forest hf (fun q hq => by cases hq; exact hp) hring
    obtain ⟨m', hret, href⟩ := refresh_returns hforest.toLinks m.pidCounter
    refine ⟨_, m', hret.andThen (Returns.pure _), fun _ => .spawned ?_ hring hborn rfl href⟩
    exact ⟨Bool.not_eq_false _ ▸ hcan, Bool.not_eq_true _ ▸ hfull, hok.ring, hok.maxRuntime,
      hok.maxChildren⟩

end

theorem runEnter_change (m : Manager R Lib) (p : Pid) (newTarget : Bool) (now : R)
    (out : Except Err Unit) :
    Change m (.runEnter p newTarget now) out (runEnter m p newTarget now).2 := by
  unfold runEnter
  by_cases hterm : (m.procs p).state = .terminated
  · rw [if_pos hterm]
    exact .idle trivial
  · rw [if_neg hterm]
    dsimp only
    rw [modify_modify]
    split <;> dsimp only
    · exact .quiet (Quiet.modify m p rfl rfl rfl rfl .rfl) (modify_field m _ rfl) trivial
    · refine .quiet (Quiet.modify m p rfl rfl rfl rfl ?_) (modify_field m _ rfl) trivial
      exact iff_of_false ProcessState.noConfusion hterm

theorem requestParentTermination_change (hf : Forest m) (c : Pid) :
    ∃ out m', Returns (fun fuel => requestParentTermination fuel m c) (out, m') ∧
      Change m (.requestParentTermination c) out m' := by
  unfold requestParentTermination
  cases hpar : m.parent c with
  | none => exact ⟨_, m, Returns.pure _, .idle fun h => by cases h⟩
  | some p =>
    dsimp only
    by_cases hkill : (m.procs c).canKillParent = false
    · simp only [if_pos hkill]
      exact ⟨_, m, Returns.pure _, .idle fun h => by cases h⟩
    · simp only [if_neg hkill]
      by_cases hc : c ∈ (m.procs p).children
      · obtain ⟨m', hret, h⟩ := promoteChild_spec hf hc
        exact ⟨_, m', hret, .promoted hpar (Bool.not_eq_false _ ▸ hkill) hc h⟩
      · -- a terminated process is no child any more
        simp only [promoteChild, if_pos hc]
        exact ⟨_, m, Returns.pure _, .idle fun h => by cases h⟩

/-- **Every call returns**, and makes one change. -/
theorem exec_change (hf : Forest m) (op : Op R Lib)
    (hrec : ∀ p, op.receiver = some p → p < m.pidCounter) :
    ∃ out m', Returns (fun fuel => exec fuel m op) (out, m') ∧ Change m op out m' := by
  cases op with
  | createKernelProcess args => exact ⟨_, _, Returns.pure _, createKernelProcess_change hf args _⟩
  | spawnChild p args =>
    obtain ⟨out, m', hret, h⟩ := spawnChild_change hf (hrec p rfl) args
    exact ⟨_, m', hret.map forget, h _⟩
  | set p s caller => exact s.call_change hf p caller
  | setCanKillParent p allow caller => exact setCanKillParent_change hf p allow caller
  | runEnter p newTarget now => exact ⟨_, _, Returns.pure _, runEnter_change m p newTarget now _⟩
  | runLeave p => exact ⟨_, _, Returns.pure _, runLeave_change m p⟩
  | terminate p caller => exact terminate_change hf (caller.getD p) rfl fun _ => trivial
  | checkRuntime p now => exact checkRuntime_change hf p now
  | killChild p childPid caller => exact killChild_change hf p childPid caller
  | requestParentTermination p => exact requestParentTermination_change hf p

end Exec

/-! ## §4. What every change keeps. -/

section Rooted

variable {R Lib : Type} {m m' : Manager R Lib}

/-- **The registered processes form one tree**: ancestors are registered, and the root is
the one without a parent. -/
structure Rooted (m : Manager R Lib) : Prop where
  closed : ∀ p q, p ∈ m.processes → m.parent p = some q → q ∈ m.processes
  root : ∀ p, m.root = some p ↔ p ∈ m.processes ∧ m.parent p = none

theorem Rooted.of_same (h : Rooted m) (hproc : m'.processes = m.processes)
    (hroot : m'.root = m.root) (hparent : ∀ p ∈ m.processes, m'.parent p = m.parent p) :
    Rooted m' := by
  refine ⟨fun p q hp hq => ?_, fun p => ?_⟩
  · rw [hproc] at hp ⊢
    rw [hparent p hp] at hq
    exact h.closed p q hp hq
  · rw [hproc, hroot, h.root]
    exact and_congr_right fun hp => by rw [hparent p hp]

theorem SameTree.rooted (hs : SameTree m m') (h : Rooted m) : Rooted m' :=
  h.of_same hs.processes hs.root fun p _ => congrFun hs.parent p

variable [LinearOrder R] [DecidableEq Lib]

/-- A new leaf: below a registered process, or the root where there was none. -/
theorem Born.rooted {par : Option Pid} {r : Perms R Lib} (h : Born m m' par r) (hf : Forest m)
    (hr : Rooted m) (hpar : ∀ p, par = some p → p ∈ m.processes)
    (hroot : ∀ p, m'.root = some p ↔ m.root = some p ∨ (par = none ∧ p = m.pidCounter)) :
    Rooted m' := by
  have hmem : ∀ p, p ∈ m'.processes ↔ p ∈ m.processes ∨ p = m.pidCounter := by
    intro p
    rw [h.processes, mem_append, mem_singleton]
  have hnew := h.parent
  have hold : ∀ p, p ∈ m.processes → m'.parent p = m.parent p := fun p hp =>
    h.parent_of_ne (ne_of_lt (hf.lt_counter hp))
  refine ⟨fun p q hp hq => ?_, fun p => ?_⟩
  · rw [hmem] at hp ⊢
    rcases hp with hp | rfl
    · rw [hold p hp] at hq
      exact .inl (hr.closed p q hp hq)
    · exact .inl (hpar q (hnew.symm.trans hq))
  · rw [hroot, hr.root, hmem]
    constructor
    · rintro (⟨hp, hnone⟩ | ⟨hnone, rfl⟩)
      · exact ⟨.inl hp, (hold p hp).trans hnone⟩
      · exact ⟨.inr rfl, hnew.trans hnone⟩
    · rintro ⟨hp | rfl, hnone⟩
      · exact .inl ⟨hp, (hold p hp).symm.trans hnone⟩
      · exact .inr ⟨hnew.symm.trans hnone, rfl⟩

/-- Terminating a subtree leaves a tree. -/
theorem Pruned.rooted {p : Pid} (h : Pruned m m' (Doomed m p)) (hf : Forest m) (hr : Rooted m) :
    Rooted m' := by
  refine ⟨fun a b ha hb => ?_, fun a => ?_⟩
  · rw [h.processes] at ha ⊢
    rw [h.parent] at hb
    refine ⟨hr.closed a b ha.1 hb, fun hD => ha.2 ⟨hD.1, ?_⟩⟩
    exact hD.2.child ((hf.children b a).mpr ⟨ha.1, hb⟩)
  · rw [h.processes, h.parent]
    by_cases hgone : ∃ r, m.root = some r ∧ Doomed m p r
    · -- the root is terminated, and nobody else had no parent
      obtain ⟨r, hroot, hD⟩ := hgone
      have hrnone := ((hr.root r).mp hroot).2
      rw [h.rootGone r hroot hD hrnone]
      refine ⟨(fun hn => by cases hn), ?_⟩
      rintro ⟨⟨ha, hDa⟩, hnone⟩
      have hra := (hr.root a).mpr ⟨ha, hnone⟩
      rw [hroot] at hra
      cases hra
      exact absurd hD hDa
    · rw [h.rootKept fun r hroot _ hD => hgone ⟨r, hroot, hD⟩, hr.root]
      constructor
      · intro ha
        exact ⟨⟨ha.1, fun hD => hgone ⟨a, (hr.root a).mpr ha, hD⟩⟩, ha.2⟩
      · rintro ⟨⟨ha, -⟩, hnone⟩
        exact ⟨ha, hnone⟩

/-- Promotion: the child stands where its parent stood. -/
theorem Promoted.rooted {p c : Pid} (h : Promoted m m' p c) (hf : Forest m) (hr : Rooted m)
    (hc : c ∈ (m.procs p).children) : Rooted m' := by
  have hmem : ∀ q, q ∈ m'.processes ↔ q ≠ p ∧ q ∈ m.processes := by
    intro q
    rw [h.processes, hf.registry.mem_erase_iff]
  obtain ⟨hclive, hcpar⟩ := (hf.children p c).mp hc
  have hcp : c ≠ p := fun he => hf.parent_ne_self p (he ▸ hcpar)
  have hplive := hr.closed c p hclive hcpar
  have hchild := h.parentChild
  have hself := hf.parent_ne_self p
  refine ⟨fun a b ha hb => ?_, fun a => ?_⟩
  · rw [hmem] at ha ⊢
    have hsib := h.parentSibling a
    have hother := h.parentOther a
    have hclosed := hr.closed
    have hkids := hf.children
    grind
  · rw [hmem, h.root]
    have hsib := h.parentSibling a
    have hother := h.parentOther a
    have hroot := hr.root
    have hkids := hf.children
    grind

end Rooted

section Keeps

variable {R Lib : Type} [LinearOrder R] [Zero R] [DecidableEq Lib] {m m' : Manager R Lib}
variable {op : Op R Lib} {out : Except Err Unit}

/-- A setter never leaves a ring other than 0 and 3. -/
theorem Setting.change_ring {s : Setting R Lib} {r r' : Perms R Lib} (h : s.change r = .ok r')
    (hr : r.ring = 0 ∨ r.ring = 3) : r'.ring = 0 ∨ r'.ring = 3 := by
  cases s with
  | allowedLibraries libraries | addLibrary library | sandboxed value | canSpawn value =>
    cases h
    exact hr
  | removeLibrary library =>
    cases hlibs : r.allowedLibraries with
    | none => simp [Setting.change, ProcTree.removeLibrary, hlibs] at h
    | some libs =>
      simp only [Setting.change, ProcTree.removeLibrary, hlibs] at h
      cases h
      exact hr
  | maxRuntime seconds | maxChildren seconds =>
    obtain ⟨limit, -, rfl⟩ := map_ok.mp h
    exact hr
  | ring value =>
    by_cases hvalue : value = 0 ∨ value = 3
    · simp only [Setting.change, if_pos hvalue] at h
      cases h
      exact hvalue
    · simp only [Setting.change, if_neg hvalue] at h
      cases h

/-- **Every change leaves a forest.** -/
theorem Change.forest (h : Change m op out m') (hf : Forest m)
    (hrec : ∀ p, op.receiver = some p → p < m.pidCounter) : Forest m' := by
  cases h with
  | quiet h => exact h.forest hf
  | granted h => exact h.forest hf
  | altered _ hr h => exact h.forest hf (Setting.change_ring hr (hf.rings _))
  | created _ _ hring h => exact h.forest hf (fun p hp => by cases hp) hring
  | @spawned p _ _ _ m₁ _ _ hring h _ href =>
    have hf₁ : Forest m₁ := h.forest hf (fun q hq => by cases hq; exact hrec p rfl) hring
    exact href.forest hf₁ fun _ _ => Reach.child
  | pruned _ _ h => exact h.forest hf Doomed.down
  | promoted _ _ hc h => exact h.forest hf hc

/-- **Every change by a registered process leaves a tree.** -/
theorem Change.rooted (h : Change m op out m') (hf : Forest m) (hr : Rooted m)
    (hrec : ∀ p, op.receiver = some p → p ∈ m.processes) : Rooted m' := by
  cases h with
  | quiet h => exact h.rooted hr
  | granted h => exact h.rooted hr
  | altered _ _ h => exact h.tree.rooted hr
  | created hroot hnew _ h =>
    refine h.rooted hf hr (fun p hp => by cases hp) fun p => ?_
    rw [hroot, hnew]
    simp [eq_comm]
  | @spawned p _ _ _ m₁ _ _ _ h hroot href =>
    have hr₁ : Rooted m₁ := by
      refine h.rooted hf hr (fun q hq => by cases hq; exact hrec p rfl) fun q => ?_
      rw [hroot]
      simp
    exact href.shape.tree.rooted hr₁
  | pruned _ _ h => exact h.rooted hf hr
  | promoted _ _ hc h => exact h.rooted hf hr hc

end Keeps

/-! ## §5. Runs. -/

section Runs

variable {R Lib : Type} [LinearOrder R] [Zero R] [Add R] [DecidableEq Lib]

/-- The call `op` is made in `m`, and leaves `m'`. -/
def Called (m : Manager R Lib) (op : Op R Lib) (m' : Manager R Lib) : Prop :=
  ∃ out, Returns (fun fuel => exec fuel m op) (out, m')

/-- A call on any pid handed out so far, be it registered or terminated. -/
def AnyCall (m m' : Manager R Lib) : Prop :=
  ∃ op, (∀ p, Op.receiver op = some p → p < m.pidCounter) ∧ Called m op m'

/-- A call on a registered process. -/
def RegisteredCall (m m' : Manager R Lib) : Prop :=
  ∃ op, (∀ p, Op.receiver op = some p → p ∈ m.processes) ∧ Called m op m'

variable {m m' : Manager R Lib}

theorem change_of_returns {op : Op R Lib} {out : Except Err Unit}
    (h : Returns (fun fuel => exec fuel m op) (out, m')) (hf : Forest m)
    (hrec : ∀ p, op.receiver = some p → p < m.pidCounter) : Change m op out m' := by
  obtain ⟨out', m'', hret, hchange⟩ := exec_change hf op hrec
  cases h.unique hret
  exact hchange

omit [Zero R] [Add R] in
/-- Without processes there is nothing to keep. -/
theorem newManager_forest : Forest (newManager R Lib) where
  lines p := ⟨[p], .top rfl⟩
  children p c := iff_of_false not_mem_nil fun h => not_mem_nil h.1
  nodup p := nodup_nil
  registry := nodup_nil
  alive p := iff_of_false not_mem_nil fun h => h rfl
  fresh p _ := ⟨rfl, rfl⟩
  older p q hq := by cases hq
  rings p := .inl rfl
  settled p hp := absurd hp not_mem_nil

omit [LinearOrder R] [Zero R] [Add R] [DecidableEq Lib] in
theorem newManager_rooted : Rooted (newManager R Lib) where
  closed _ _ hp _ := absurd hp not_mem_nil
  root _ := iff_of_false nofun fun h => not_mem_nil h.1

theorem AnyCall.forest (h : AnyCall m m') (hf : Forest m) : Forest m' := by
  obtain ⟨op, hrec, out, hcall⟩ := h
  exact (change_of_returns hcall hf hrec).forest hf hrec

/-- Calls on registered processes keep the forest and the tree. -/
theorem RegisteredCall.keeps (h : RegisteredCall m m') (hf : Forest m) (hr : Rooted m) :
    Forest m' ∧ Rooted m' := by
  obtain ⟨op, hrec, out, hcall⟩ := h
  have hlt := fun p hp => hf.lt_counter (hrec p hp)
  have hchange := change_of_returns hcall hf hlt
  exact ⟨hchange.forest hf hlt, hchange.rooted hf hr hrec⟩

/-- The states runs of calls on registered processes reach. -/
theorem registered_run (hrun : Relation.ReflTransGen RegisteredCall (newManager R Lib) m) :
    Forest m ∧ Rooted m := by
  refine inv_of_run (fun m => Forest m ∧ Rooted m) hrun ⟨newManager_forest, newManager_rooted⟩ ?_
  intro a b ha hab
  exact hab.keeps ha.1 ha.2

/-! ## §6. The meet along the chain. -/

omit [Zero R] [Add R] in
/-- In a tree of settled processes, effective permissions are the meet along the line. -/
theorem meet_along_line (hf : Forest m) (hr : Rooted m) {p : Pid} {l : List Pid}
    (hl : Line m.parent p l) (hp : p ∈ m.processes) :
    l.getLast? = m.root ∧ MeetAlong (l.map m.requested) (m.effective p) := by
  -- induction along the line: the parent is registered, hence has its meet
  induction hl with
  | @top p hnone =>
    have hset : m.effective p = restrict ((m.parent p).map m.effective) (m.requested p) :=
      hf.settled p hp
    rw [hnone] at hset
    rw [hset, (hr.root p).mpr ⟨hp, hnone⟩]
    exact ⟨rfl, MeetAlong.single (hf.rings p)⟩
  | @step p q l hpar hl ih =>
    obtain ⟨hlast, hmeet⟩ := ih (hr.closed p q hp hpar)
    have hset : m.effective p = restrict ((m.parent p).map m.effective) (m.requested p) :=
      hf.settled p hp
    rw [hpar] at hset
    rw [hset]
    refine ⟨?_, hmeet.restrict (hf.rings p)⟩
    cases l with
    | nil => cases hl
    | cons a l => exact (getLast?_cons_cons).trans hlast

/-- **Effective permissions are the meet of the requests along the ancestor chain**, in
every state that calls on registered processes lead to, and every such call returns. -/
theorem effective_meet_along_chain
    (hrun : Relation.ReflTransGen RegisteredCall (newManager R Lib) m) :
    (∀ op, (∀ p, Op.receiver op = some p → p ∈ m.processes) → ∃ m', Called m op m') ∧
      ∀ p ∈ m.processes, ∃ l, Line m.parent p l ∧ l.getLast? = m.root ∧
        MeetAlong (l.map m.requested) (m.effective p) := by
  obtain ⟨hf, hr⟩ := registered_run hrun
  constructor
  · intro op hrec
    obtain ⟨out, m', hret, -⟩ := exec_change hf op fun p hp => hf.lt_counter (hrec p hp)
    exact ⟨m', out, hret⟩
  · intro p hp
    obtain ⟨l, hl⟩ := hf.lines p
    exact ⟨l, hl, meet_along_line hf hr hl hp⟩

/-- **No process loads what an ancestor may not**: in every such state `load_library` lets a name
in exactly when the request of every process from `p` up to the root allows it. -/
theorem load_library_confined [ToString Lib]
    (hrun : Relation.ReflTransGen RegisteredCall (newManager R Lib) m) {p : Pid}
    (hp : p ∈ m.processes) (name : Lib) : loadLibrary m p name = .ok () ↔
      ∀ q, Below m.parent q p → allows (m.requested q).allowedLibraries name := by
  obtain ⟨hf, hr⟩ := registered_run hrun
  obtain ⟨l, hl⟩ := hf.lines p
  have hload : loadLibrary m p name = .ok () ↔ allows (m.effective p).allowedLibraries name := by
    unfold loadLibrary
    split <;> simp_all [allows]
  rw [hload, (meet_along_line hf hr hl hp).2.allows_iff, forall_mem_map]
  refine ⟨?_, fun h q hq => h q ⟨l, hl, hq⟩⟩
  rintro h q ⟨l', hl', hq⟩
  exact h q (hl.unique hl' ▸ hq)

end Runs

/-- A manager with a kernel process that asks for nothing. -/
def kernelOnly : Manager ℕ ℕ :=
  (createKernelProcess (newManager ℕ ℕ) ⟨true, false, 0, .none, none, true, none⟩).2

theorem kernelOnly_called :
    RegisteredCall (newManager ℕ ℕ) kernelOnly :=
  ⟨.createKernelProcess ⟨true, false, 0, .none, none, true, none⟩, (fun p hp => by cases hp), _,
    Returns.pure _⟩

/-- A kernel process that allows the libraries 0 and 1. -/
def walled : Manager ℕ ℕ :=
  (createKernelProcess (newManager ℕ ℕ) ⟨true, false, 0, .items [0, 1], some 9, true, none⟩).2

/-- Its sandboxed child asks for the libraries 1 and 2, and for ring 3. -/
def fenced : Manager ℕ ℕ :=
  refreshSelf (linked walled 1 true ⟨true, some {1, 2}, none, true, some 4, 3⟩) 2

theorem fenced_registered : Relation.ReflTransGen RegisteredCall (newManager ℕ ℕ) fenced := by
  have hkernel : RegisteredCall (newManager ℕ ℕ) walled :=
    ⟨.createKernelProcess _, (fun p hp => by cases hp), _, Returns.pure _⟩
  refine .tail (.single hkernel) ⟨.spawnChild 1 ⟨true, some true, some 3, .items [1, 2], none, true,
    some 4⟩, ?_, .ok (), .stop fun _ => rfl⟩
  rintro p ⟨⟩
  decide

theorem fenced_line : Line fenced.parent 2 [2, 1] := .step rfl (.top rfl)

/-- The child is held by its own requests and by those of the kernel process. -/
theorem effective_meet_along_chain_fenced :
    (fenced.effective 2).allowedLibraries = some {1} ∧ (fenced.effective 2).maxRuntime = some 9 ∧
      MeetAlong ([2, 1].map fenced.requested) (fenced.effective 2) := by
  refine ⟨by decide, rfl, ?_⟩
  obtain ⟨l, hl, -, hmeet⟩ := (effective_meet_along_chain fenced_registered).2 2 (by decide)
  rwa [hl.unique fenced_line] at hmeet

/-- The child may load library 1; 0 is not in its own request, 2 not in its parent's. -/
theorem load_library_confined_fenced :
    loadLibrary fenced 2 1 = .ok () ∧ loadLibrary fenced 2 0 ≠ .ok () ∧
      loadLibrary fenced 2 2 ≠ .ok () := by
  have hload := load_library_confined fenced_registered (p := 2) (by decide)
  refine ⟨(hload 1).mpr ?_, fun h => ?_, fun h => ?_⟩
  · rintro q ⟨l, hl, hq⟩
    rw [hl.unique fenced_line] at hq
    rintro libs hlibs
    rcases mem_pair.mp hq with rfl | rfl
    · cases hlibs
      decide
    · cases hlibs
      decide
  · exact absurd ((hload 0).mp h 2 ⟨_, fenced_line, by simp⟩ _ rfl) (by decide)
  · exact absurd ((hload 2).mp h 1 ⟨_, fenced_line, by simp⟩ _ rfl) (by decide)

end ExoCore.ProcTree
