/-
  ExoCore.ProcTree.Surgery — what the methods do to the tree.

  One description per kind of change, each with the proof that it leaves a forest:

    * `Born`    — a constructor that succeeds hangs a new leaf below its parent;
    * `Altered` — a setter changes one request and refreshes below it.

  Terminating is `Pruned` (`ProcTree/Walks.lean`), `_promote_child` is `Promoted`
  (`ProcTree/Promotion.lean`).
-/
import ExoCore.ProcTree.Walks

namespace ExoCore.ProcTree

open ExoCore.Lib Function List

variable {R Lib : Type}

/-! ## §1. A new leaf. -/

variable {keys : List Pid} {key : Pid}

theorem setKey_of_not_mem (h : key ∉ keys) :
    setKey keys key = keys ++ [key] := if_neg h

theorem mem_setKey {x : Pid} : x ∈ setKey keys key ↔ x ∈ keys ∨ x = key := by
  unfold setKey
  split
  · rename_i hmem
    refine ⟨.inl, ?_⟩
    rintro (hx | rfl)
    · exact hx
    · exact hmem
  · simp

theorem setKey_nodup (h : keys.Nodup) : (setKey keys key).Nodup := by
  unfold setKey
  split
  · exact h
  · rename_i hmem
    refine nodup_append.mpr ⟨h, nodup_singleton _, ?_⟩
    rintro a ha b hb rfl
    rw [mem_singleton] at hb
    exact hmem (hb ▸ ha)

section Births

variable [LinearOrder R] [DecidableEq Lib]

/-- `m'` is `m` with one more process, the next pid, below `par`. -/
structure Born (m m' : Manager R Lib) (par : Option Pid) (r : Perms R Lib) : Prop where
  pidCounter : m'.pidCounter = m.pidCounter + 1
  processes : m'.processes = m.processes ++ [m.pidCounter]
  record : ∃ hasTarget, m'.procs m.pidCounter =
    { newProcess par hasTarget r with effective := restrict (par.map m.effective) r }
  rest : ∀ q, q ≠ m.pidCounter → m'.procs q = { m.procs q with
    children := if par = some q then (m.procs q).children ++ [m.pidCounter]
      else (m.procs q).children }

variable {m m' : Manager R Lib} {par : Option Pid} {r : Perms R Lib}

variable {q : Pid}

section

variable (h : Born m m' par r)
include h

theorem Born.parent : m'.parent m.pidCounter = par := by
  obtain ⟨hasTarget, hrecord⟩ := h.record
  exact congrArg Process.parent hrecord

theorem Born.children : (m'.procs m.pidCounter).children = [] := by
  obtain ⟨hasTarget, hrecord⟩ := h.record
  exact congrArg Process.children hrecord

theorem Born.state : (m'.procs m.pidCounter).state = .ready := by
  obtain ⟨hasTarget, hrecord⟩ := h.record
  exact congrArg Process.state hrecord

theorem Born.requested : m'.requested m.pidCounter = r := by
  obtain ⟨hasTarget, hrecord⟩ := h.record
  exact congrArg Process.requested hrecord

theorem Born.effective : m'.effective m.pidCounter = restrict (par.map m.effective) r := by
  obtain ⟨hasTarget, hrecord⟩ := h.record
  exact congrArg Process.effective hrecord

variable (hq : q ≠ m.pidCounter)
include hq

theorem Born.parent_of_ne : m'.parent q = m.parent q := by
  show (m'.procs q).parent = (m.procs q).parent
  rw [h.rest q hq]

theorem Born.requested_of_ne : m'.requested q = m.requested q := by
  show (m'.procs q).requested = (m.procs q).requested
  rw [h.rest q hq]

theorem Born.effective_of_ne : m'.effective q = m.effective q := by
  show (m'.procs q).effective = (m.procs q).effective
  rw [h.rest q hq]

theorem Born.children_of_ne (c : Pid) :
    c ∈ (m'.procs q).children ↔
      c ∈ (m.procs q).children ∨ (par = some q ∧ c = m.pidCounter) := by
  rw [h.rest q hq]
  dsimp only
  split
  · rename_i hpar
    simp [hpar]
  · rename_i hpar
    simp [hpar]

end

/-- The new pid is on nobody's line. -/
theorem Forest.counter_not_mem (hf : Forest m) {l : List Pid} (hq : q ≠ m.pidCounter)
    (hl : Line m.parent q l) : m.pidCounter ∉ l := by
  intro hmem
  obtain ⟨b, hb⟩ := hl.parent_of_mem hmem (Ne.symm hq)
  exact absurd (hf.older b _ hb) (lt_irrefl _)

theorem Forest.counter_not_registered (hf : Forest m) : m.pidCounter ∉ m.processes :=
  fun h => lt_irrefl _ (hf.lt_counter h)

/-- Nothing is below the new leaf. -/
theorem Born.not_reach (h : Born m m' par r) (hq : q ≠ m.pidCounter) :
    ¬ Reach m' m.pidCounter q := by
  intro hr
  rcases reach_iff.mp hr with he | ⟨c, hc, -⟩
  · exact hq he
  · rw [h.children] at hc
    exact not_mem_nil hc

theorem Born.line (h : Born m m' par r) (hf : Forest m) {l : List Pid}
    (hq : q ≠ m.pidCounter) (hl : Line m.parent q l) : Line m'.parent q l := by
  have hnot := hf.counter_not_mem hq hl
  exact hl.congr fun a ha => h.parent_of_ne fun he => hnot (he ▸ ha)

/-- **A new leaf keeps the forest.** -/
theorem Born.forest (h : Born m m' par r) (hf : Forest m)
    (hpar : ∀ p, par = some p → p < m.pidCounter) (hring : r.ring = 0 ∨ r.ring = 3) :
    Forest m' := by
  have hnew := h.parent
  refine ⟨⟨?_, ?_, ?_⟩, ?_, ?_, ?_, ?_, ?_, ?_⟩
  · intro q
    by_cases hq : q = m.pidCounter
    · subst hq
      cases hp : par with
      | none => exact ⟨_, .top (hnew.trans hp)⟩
      | some p =>
        obtain ⟨l, hl⟩ := hf.lines p
        have hne : p ≠ m.pidCounter := ne_of_lt (hpar p hp)
        exact ⟨_, .step (hnew.trans hp) (h.line hf hne hl)⟩
    · obtain ⟨l, hl⟩ := hf.lines q
      exact ⟨l, h.line hf hq hl⟩
  · intro q c
    rw [h.processes, mem_append, mem_singleton]
    by_cases hq : q = m.pidCounter
    · -- nobody's parent is the new process
      subst hq
      rw [h.children]
      refine ⟨(fun hc => by cases hc), ?_⟩
      rintro ⟨-, hc⟩
      by_cases hcn : c = m.pidCounter
      · subst hcn
        exact absurd (hpar _ (hnew.symm.trans hc)) (lt_irrefl _)
      · rw [h.parent_of_ne hcn] at hc
        exact absurd (hf.older c _ hc) (lt_irrefl _)
    · rw [h.children_of_ne hq, hf.children]
      by_cases hcn : c = m.pidCounter
      · subst hcn
        rw [hnew]
        have hno := hf.counter_not_registered
        tauto
      · rw [h.parent_of_ne hcn]
        tauto
  · intro q
    by_cases hq : q = m.pidCounter
    · subst hq
      rw [h.children]
      exact nodup_nil
    · rw [h.rest q hq]
      dsimp only
      split
      · rw [← setKey_of_not_mem]
        · exact setKey_nodup (hf.nodup q)
        · exact fun hmem => hf.counter_not_registered ((hf.children q _).mp hmem).1
      · exact hf.nodup q
  · rw [h.processes, ← setKey_of_not_mem hf.counter_not_registered]
    exact setKey_nodup hf.registry
  · intro q
    rw [h.processes, mem_append, mem_singleton, hf.alive]
    by_cases hq : q = m.pidCounter
    · subst hq
      rw [h.state]
      simp
    · rw [h.rest q hq]
      simp [hq]
  · intro q hq
    rw [h.pidCounter] at hq
    have hne : q ≠ m.pidCounter := by
      rintro rfl
      exact absurd hq (Nat.not_succ_le_self _)
    obtain ⟨h1, h2⟩ := hf.fresh q (le_trans (Nat.le_succ _) hq)
    rw [h.parent_of_ne hne, h.rest q hne]
    exact ⟨h1, h2⟩
  · intro q p hp
    rw [h.pidCounter]
    by_cases hq : q = m.pidCounter
    · subst hq
      exact Nat.lt_succ_of_lt (hpar p (hnew.symm.trans hp))
    · rw [h.parent_of_ne hq] at hp
      exact Nat.lt_succ_of_lt (hf.older q p hp)
  · intro q
    by_cases hq : q = m.pidCounter
    · subst hq
      rw [h.requested]
      exact hring
    · rw [h.requested_of_ne hq]
      exact hf.rings q
  · intro q hq
    have hold : ∀ p, par = some p → m'.effective p = m.effective p := fun p hp =>
      h.effective_of_ne (ne_of_lt (hpar p hp))
    by_cases hqn : q = m.pidCounter
    · subst hqn
      unfold Settled Inherits
      rw [h.effective, hnew, h.requested]
      cases hp : par with
      | none => rfl
      | some p =>
        show restrict (some (m.effective p)) r = restrict (some (m'.effective p)) r
        rw [hold p hp]
    · rw [h.processes, mem_append, mem_singleton] at hq
      refine (hf.settled q (hq.resolve_right hqn)).frame (h.parent_of_ne hqn)
        (h.requested_of_ne hqn) (h.effective_of_ne hqn) ?_
      intro y hy
      exact h.effective_of_ne (ne_of_lt (hf.older q y hy))

end Births

/-! ## §2. Calls that leave the tree alone. -/

/-- Nothing the tree is about has changed. -/
structure Quiet (m m' : Manager R Lib) : Prop extends SameTree m m' where
  requested : m'.requested = m.requested
  effective : m'.effective = m.effective

theorem Quiet.of_procs {m m' : Manager R Lib} (hprocs : m'.procs = m.procs)
    (hproc : m'.processes = m.processes) (hroot : m'.root = m.root)
    (hcounter : m.pidCounter ≤ m'.pidCounter) : Quiet m m' := by
  refine ⟨⟨hproc, hroot, hcounter, ?_, ?_, ?_⟩, ?_, ?_⟩ <;>
    simp [Manager.parent, Manager.requested, Manager.effective, hprocs, funext_iff]

theorem Quiet.refl (m : Manager R Lib) : Quiet m m := .of_procs rfl rfl rfl (le_refl _)

theorem modify_modify (m : Manager R Lib) (p : Pid) (f g : Process R Lib → Process R Lib) :
    (m.modify p f).modify p g = m.modify p fun q => g (f q) := by
  simp only [Manager.modify, update_self, update_idem]

/-- Changing one object, in fields the tree is not about. -/
theorem Quiet.modify (m : Manager R Lib) (p : Pid) {f : Process R Lib → Process R Lib}
    (hparent : (f (m.procs p)).parent = (m.procs p).parent)
    (hchildren : (f (m.procs p)).children = (m.procs p).children)
    (hreq : (f (m.procs p)).requested = (m.procs p).requested)
    (heff : (f (m.procs p)).effective = (m.procs p).effective)
    (hstate : (f (m.procs p)).state = .terminated ↔ (m.procs p).state = .terminated) :
    Quiet m (m.modify p f) :=
  ⟨.modify m p hparent hchildren hstate, funext (modify_field m _ hreq),
    funext (modify_field m _ heff)⟩

section

variable [LinearOrder R] [DecidableEq Lib] {m m' : Manager R Lib} (h : Quiet m m')
include h

theorem Quiet.settled {p : Pid} (hp : Settled m p) : Settled m' p := by
  unfold Settled
  rw [h.parent, h.requested, h.effective]
  exact hp

theorem Quiet.forest (hf : Forest m) : Forest m' := by
  refine h.toSameTree.forest hf (fun p => ?_) fun p hp => h.settled (hf.settled p hp)
  rw [h.requested]
  exact hf.rings p

end

/-! ## §3. The constructor. -/

section Construct

variable [LinearOrder R] [Add R] [DecidableEq Lib]
variable {m : Manager R Lib} {par : Option Pid}

/-- The state after the constructor succeeded, with the request `r`. -/
def constructed (m : Manager R Lib) (par : Option Pid) (hasTarget : Bool) (r : Perms R Lib) :
    Manager R Lib :=
  refreshSelf ((({ m with pidCounter := m.pidCounter + 1 } : Manager R Lib).modify m.pidCounter
    fun _ => newProcess par hasTarget r).register m.pidCounter) m.pidCounter

theorem constructed_self (hpar : par ≠ some m.pidCounter) (hasTarget : Bool) (r : Perms R Lib) :
    (constructed m par hasTarget r).procs m.pidCounter =
      { newProcess par hasTarget r with effective := restrict (par.map m.effective) r } := by
  have hold : ∀ y, par = some y → y ≠ m.pidCounter := fun y hy he => hpar (hy.trans (he ▸ rfl))
  simp only [constructed, refreshSelf, Manager.modify, Manager.register, update_self,
    Manager.parent, newProcess, reduceCtorEq, if_false]
  cases hp : par with
  | none => rfl
  | some y =>
    simp only [Option.map_some, Manager.effective, update_of_ne (hold y hp)]

theorem constructed_of_ne {q : Pid} (hq : q ≠ m.pidCounter) (hasTarget : Bool)
    (r : Perms R Lib) : (constructed m par hasTarget r).procs q = m.procs q := by
  simp only [constructed, refreshSelf, Manager.modify, Manager.register,
    update_of_ne hq]

/-- A kernel process is a new leaf without a parent. -/
theorem born_root (hf : Forest m) (hasTarget : Bool) (r : Perms R Lib) (root : Option Pid) :
    Born m { constructed m none hasTarget r with root := root } none r := by
  refine ⟨rfl, setKey_of_not_mem hf.counter_not_registered,
    ⟨hasTarget, constructed_self (by simp) hasTarget r⟩, fun q hq => ?_⟩
  show (constructed m none hasTarget r).procs q = _
  rw [constructed_of_ne hq]
  simp

/-- The state in which `spawn_child` refreshes the new child. -/
def linked (m : Manager R Lib) (p : Pid) (hasTarget : Bool) (r : Perms R Lib) : Manager R Lib :=
  (constructed m (some p) hasTarget r).modify p fun q =>
    { q with children := setKey q.children m.pidCounter }

theorem born_child (hf : Forest m) {p : Pid} (hp : p < m.pidCounter) (hasTarget : Bool)
    (r : Perms R Lib) : Born m (linked m p hasTarget r) (some p) r := by
  have hne : p ≠ m.pidCounter := ne_of_lt hp
  have hnot : m.pidCounter ∉ (m.procs p).children := fun h =>
    hf.counter_not_registered ((hf.children p _).mp h).1
  have hself : (linked m p hasTarget r).procs m.pidCounter =
      { newProcess (some p) hasTarget r with
        effective := restrict ((some p).map m.effective) r } := by
    rw [← constructed_self (fun h => hne (Option.some.inj h))]
    simp only [linked, Manager.modify, update_of_ne (Ne.symm hne)]
  refine ⟨rfl, setKey_of_not_mem hf.counter_not_registered, ⟨hasTarget, hself⟩, fun q hq => ?_⟩
  by_cases hqp : q = p
  · subst hqp
    simp only [linked, Manager.modify, update_self, constructed_of_ne hq, if_true]
    rw [setKey_of_not_mem hnot]
  · simp only [linked, Manager.modify, update_of_ne hqp, constructed_of_ne hq]
    rw [if_neg fun h => hqp (Option.some.inj h).symm]

variable [Zero R]

omit [DecidableEq Lib] [Add R] in
theorem normaliseRuntime_cases (value : Option R) :
    (∃ x, value = some x ∧ x ≤ 0 ∧ ∃ err, normaliseRuntime value = .error err) ∨
      (normaliseRuntime value = .ok value ∧ ∀ x, value = some x → ¬ x ≤ 0) := by
  cases value with
  | none => exact .inr ⟨rfl, nofun⟩
  | some x =>
    by_cases hx : x ≤ 0
    · exact .inl ⟨x, rfl, hx, _, if_pos hx⟩
    · exact .inr ⟨if_neg hx, fun y hy => by cases hy; exact hx⟩

omit [LinearOrder R] [DecidableEq Lib] [Add R] [Zero R] in
theorem normaliseMaxChildren_cases (value : Option ℤ) :
    (∃ x, value = some x ∧ x < 1 ∧ ∃ err, normaliseMaxChildren value = .error err) ∨
      (normaliseMaxChildren value = .ok value ∧ ∀ x, value = some x → ¬ x < 1) := by
  cases value with
  | none => exact .inr ⟨rfl, nofun⟩
  | some x =>
    by_cases hx : x < 1
    · exact .inl ⟨x, rfl, hx, _, if_pos hx⟩
    · exact .inr ⟨if_neg hx, fun y hy => by cases hy; exact hx⟩

/-- The arguments the constructor accepts. -/
structure NewArgs.Ok (args : NewArgs R Lib) : Prop where
  ring : args.ring = 0 ∨ args.ring = 3
  maxRuntime : ∀ v, args.maxRuntime = some v → 0 < v
  maxChildren : ∀ v, args.maxChildren = some v → 1 ≤ v

/-- **`Process.__init__`** raises before the registration, having used up at most a pid,
or registers a process with a valid ring. -/
theorem initProcess_cases (m : Manager R Lib) (par : Option Pid) (args : NewArgs R Lib) :
    (¬ args.Ok ∧ ∃ e m', initProcess m par args = (.error e, m') ∧ Quiet m m' ∧
        m'.procs = m.procs) ∨
      (args.Ok ∧ ∃ r : Perms R Lib, (r.ring = 0 ∨ r.ring = 3) ∧
        initProcess m par args = (.ok m.pidCounter, constructed m par args.hasTarget r)) := by
  have hused : Quiet m { m with pidCounter := m.pidCounter + 1 } :=
    .of_procs rfl rfl rfl (Nat.le_succ _)
  unfold initProcess
  by_cases hring : args.ring = 0 ∨ args.ring = 3
  · rw [if_neg (not_not.mpr hring)]
    rcases normaliseRuntime_cases args.maxRuntime with ⟨x, hx, hle, err, herr⟩ | ⟨hok, hpos⟩
    · simp only [herr]
      exact .inl ⟨fun h => absurd (h.maxRuntime x hx) (not_lt.mpr hle), _, _, rfl, hused, rfl⟩
    · simp only [hok]
      rcases normaliseMaxChildren_cases args.maxChildren with ⟨x, hx, hlt, err, herr⟩ | ⟨hok', hone⟩
      · simp only [herr]
        exact .inl ⟨fun h => absurd (h.maxChildren x hx) (not_le.mpr hlt), _, _, rfl, hused, rfl⟩
      · simp only [hok']
        exact .inr ⟨⟨hring, fun v hv => not_le.mp (hpos v hv), fun v hv => not_lt.mp (hone v hv)⟩,
          _, hring, rfl⟩
  · rw [if_pos hring]
    exact .inl ⟨fun h => hring h.ring, _, m, rfl, .refl m, rfl⟩

end Construct

/-! ## §4. Refreshing and setting in a forest. -/

section Ask

variable {m : Manager R Lib} {p : Pid}

/-- `self._requested_… = …`. -/
def ask (m : Manager R Lib) (p : Pid) (r : Perms R Lib) : Manager R Lib :=
  m.modify p fun q => { q with requested := r }

theorem ask_self (m : Manager R Lib) (p : Pid) (r : Perms R Lib) :
    (ask m p r).procs p = { m.procs p with requested := r } := by
  simp only [ask, Manager.modify, update_self]

theorem ask_of_ne {q : Pid} (hq : q ≠ p) (r : Perms R Lib) : (ask m p r).procs q = m.procs q := by
  simp only [ask, Manager.modify, update_of_ne hq]

theorem ask_tree (m : Manager R Lib) (p : Pid) (r : Perms R Lib) : SameTree m (ask m p r) :=
  .modify m p rfl rfl .rfl

theorem ask_effective (r : Perms R Lib) (q : Pid) : (ask m p r).effective q = m.effective q :=
  modify_field m Process.effective rfl q

end Ask

section Setters

variable [LinearOrder R] [DecidableEq Lib] {m m' : Manager R Lib} {p : Pid}

/-- `p` has asked for `r`, and what hangs below it is refreshed. -/
def Altered (m m' : Manager R Lib) (p : Pid) (r : Perms R Lib) : Prop :=
  Refreshed (ask m p r) m' (Reach m p)

theorem Altered.tree {r : Perms R Lib} (h : Altered m m' p r) : SameTree m m' :=
  (ask_tree m p r).trans h.shape.tree

theorem Altered.requested {r : Perms R Lib} (h : Altered m m' p r) (q : Pid) :
    m'.requested q = (ask m p r).requested q :=
  h.shape.field Process.requested (fun _ _ _ => rfl) q

/-- **A setter keeps the forest.** -/
theorem Altered.forest {r : Perms R Lib} (h : Altered m m' p r) (hf : Forest m)
    (hring : r.ring = 0 ∨ r.ring = 3) : Forest m' := by
  refine h.tree.forest hf (fun q => ?_) fun q hq => ?_
  · rw [h.requested]
    by_cases hq : q = p
    · rw [hq, show (ask m p r).requested p = r from congrArg Process.requested (ask_self m p r)]
      exact hring
    · rw [show (ask m p r).requested q = m.requested q from
        congrArg Process.requested (ask_of_ne hq r)]
      exact hf.rings q
  · by_cases hqp : Reach m p q
    · exact h.settled q hqp
    · -- not reached, so neither it nor its parent was touched
      have hne : q ≠ p := fun he => hqp (he ▸ .refl m p)
      refine h.keeps ((ask_tree m p r).links hf.toLinks) ?_ hq ?_
      · intro a b ha hb
        rw [(ask_tree m p r).children] at hb
        exact ha.child hb
      · exact (hf.settled q hq).frame (congrFun (ask_tree m p r).parent q)
          (congrArg Process.requested (ask_of_ne hne r)) (ask_effective r q)
          fun y _ => ask_effective r y

variable [Add R]

/-- **What comes of a setter** whose value is `c`: refused without control, refused for a bad
value, or the request is altered. -/
def Asked (m m' : Manager R Lib) (p : Pid) (caller : Option Pid) (c : Except Err (Perms R Lib)) :
    Prop :=
  (¬ Below m.parent (caller.getD p) p ∨ ∃ e, c = .error e) ∧ m' = m ∨
    Below m.parent (caller.getD p) p ∧ ∃ r, c = .ok r ∧ Altered m m' p r

theorem setPermission_spec (hf : Forest m) (p : Pid) (caller : Option Pid)
    (change : Perms R Lib → Except Err (Perms R Lib)) :
    ∃ out m', Returns (fun fuel => setPermission fuel m p caller change) (out, m') ∧
      Asked m m' p caller (change (m.requested p)) := by
  rcases assertControl_spec hf.lines (caller.getD p) p with ⟨hb, hctl⟩ | ⟨hb, hctl⟩
  · cases hc : change (m.requested p) with
    | error e =>
      refine ⟨.error e, m, hctl.andThen ?_, .inl ⟨.inr ⟨e, rfl⟩, rfl⟩⟩
      simp only [hc]
      exact Returns.pure _
    | ok r =>
      have htree := ask_tree m p r
      obtain ⟨m', hret, href⟩ := refresh_returns (htree.links hf.toLinks) p
      have halt : Altered m m' p r := by
        refine ⟨href.shape, fun q hq => href.frame q ?_, fun q hq => href.settled q ?_⟩
        · rwa [htree.reach]
        · rwa [htree.reach]
      refine ⟨.ok (), m', hctl.andThen ?_, .inr ⟨hb, r, rfl, halt⟩⟩
      simp only [hc]
      exact hret.andThen (Returns.pure _)
  · refine ⟨_, m, hctl.andThen (Returns.pure _), .inl ⟨.inl hb, rfl⟩⟩

end Setters

end ExoCore.ProcTree
