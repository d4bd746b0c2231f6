/-
  ExoCore.ProcTree.Escalation — can a process widen its own permissions?

  The restrictions a parent imposes at spawn are stored in the REQUESTED fields of
  the child, and the child may change those with itself as the controller.

    * `sandbox_escape`      — it can: a child spawned sandboxed leaves the sandbox
                              with `set_sandboxed(False)`;
    * `change_untouched`    — calls by a process and its descendants reach its
                              permissions through its own setters only;
    * `Setting.narrows_iff` — when a setter does not widen, in terms of its
                              argument and of the state before it;
    * `no_self_escalation`  — nothing widens along a run whose setter calls all
                              satisfy that, and at a call that does not, it does.
-/
import ExoCore.ProcTree.Runs

namespace ExoCore.ProcTree

open ExoCore.Lib Relation Finset

/-! ## §1. When a setter does not widen. -/

section Narrow

variable {R Lib : Type} [LinearOrder R] [DecidableEq Lib]

/-- Nothing the request `r` permits below a parent with permissions `pe` is forbidden by
`old`, field by field. -/
structure Within (pe r old : Perms R Lib) : Prop where
  sandboxed : old.sandboxed = true → pe.sandboxed = true ∨ r.sandboxed = true
  libraries : ∀ lib, allows pe.allowedLibraries lib → allows r.allowedLibraries lib →
    allows old.allowedLibraries lib
  runtime : ∀ y, old.maxRuntime = some y →
    (∃ x, pe.maxRuntime = some x ∧ x ≤ y) ∨ ∃ x, r.maxRuntime = some x ∧ x ≤ y
  canSpawn : old.canSpawn = false → pe.canSpawn = false ∨ r.canSpawn = false
  children : ∀ y, old.maxChildren = some y →
    (∃ x, pe.maxChildren = some x ∧ x ≤ y) ∨ ∃ x, r.maxChildren = some x ∧ x ≤ y
  ring : old.ring ≤ pe.ring ∨ old.ring ≤ validRing r.ring

variable {pe r : Perms R Lib}

theorem noWider_restrict {old : Perms R Lib} :
    NoWider (restrict (some pe) r) old ↔ Within pe r old := by
  constructor
  · intro h
    refine ⟨fun ho => ?_, fun lib hpe hr => ?_, tighterLimit_restrictLimit.mp h.runtime,
      fun ho => ?_, tighterLimit_restrictLimit.mp h.children, le_restrictRing.mp h.ring⟩
    · exact Bool.or_eq_true_iff.mp (h.sandboxed ho)
    · exact h.libraries lib (allows_restrictLibraries.mpr ⟨hpe, hr⟩)
    · exact Bool.and_eq_false_iff.mp (h.canSpawn ho)
  · intro h
    refine ⟨fun ho => ?_, fun lib hlib => ?_, tighterLimit_restrictLimit.mpr h.runtime,
      fun ho => ?_, tighterLimit_restrictLimit.mpr h.children, le_restrictRing.mpr h.ring⟩
    · exact Bool.or_eq_true_iff.mpr (h.sandboxed ho)
    · obtain ⟨hpe, hr⟩ := allows_restrictLibraries.mp hlib
      exact h.libraries lib hpe hr
    · exact Bool.and_eq_false_iff.mpr (h.canSpawn ho)

/-- The libraries an argument names. -/
def Libraries.permits : Libraries Lib → Lib → Prop
  | .none, _ => True
  | .name lib, l => l = lib
  | .items libs, l => l ∈ libs

theorem allows_normaliseLibrarySet {libraries : Libraries Lib} {lib : Lib} :
    allows (normaliseLibrarySet libraries) lib ↔ libraries.permits lib := by
  cases libraries <;> simp [allows, normaliseLibrarySet, Libraries.permits]

variable [Zero R]

/-- **The condition on a setter**, for a process with effective permissions `e` and requests
`r` below a parent with effective permissions `pe`: the value asked for is not wider than
`e`, the parent forbids more anyway, or the value is refused. -/
def Setting.Narrows (pe e r : Perms R Lib) : Setting R Lib → Prop
  | .allowedLibraries libraries => ∀ lib, allows pe.allowedLibraries lib →
      libraries.permits lib → allows e.allowedLibraries lib
  | .addLibrary library =>
    allows pe.allowedLibraries library → allows e.allowedLibraries library
  | .removeLibrary library => ∀ libs, r.allowedLibraries = some libs →
      (∃ lib ∈ libs, lib ≠ library) ∨
        ∀ lib, allows pe.allowedLibraries lib → allows e.allowedLibraries lib
  | .maxRuntime seconds => ∀ y, e.maxRuntime = some y →
      (∃ x, pe.maxRuntime = some x ∧ x ≤ y) ∨ ∃ x, seconds = some x ∧ (x ≤ y ∨ x ≤ 0)
  | .sandboxed value => e.sandboxed = true → pe.sandboxed = true ∨ value = true
  | .canSpawn value => e.canSpawn = false → pe.canSpawn = false ∨ value = false
  | .maxChildren value => ∀ y, e.maxChildren = some y →
      (∃ x, pe.maxChildren = some x ∧ x ≤ y) ∨ ∃ x, value = some x ∧ (x ≤ y ∨ x < 1)
  | .ring value => e.ring ≤ pe.ring ∨ e.ring ≤ value ∨ ¬(value = 0 ∨ value = 3)

/-- A value that is refused is no danger. -/
theorem Setting.narrows_of_error {s : Setting R Lib} {e : Perms R Lib} {err : Err}
    (h : s.change r = .error err) : s.Narrows pe e r := by
  cases s with
  | allowedLibraries _ | addLibrary _ | sandboxed _ | canSpawn _ => cases h
  | removeLibrary library =>
    intro libs hlibs
    simp only [Setting.change, ProcTree.removeLibrary, hlibs] at h
    cases h
  | maxRuntime seconds =>
    rcases normaliseRuntime_cases seconds with ⟨x, hx, hle, -⟩ | ⟨hok, -⟩
    · exact fun y _ => .inr ⟨x, hx, .inr hle⟩
    · simp only [Setting.change, changeRuntime, hok] at h
      cases h
  | maxChildren value =>
    rcases normaliseMaxChildren_cases value with ⟨x, hx, hle, -⟩ | ⟨hok, -⟩
    · exact fun y _ => .inr ⟨x, hx, .inr hle⟩
    · simp only [Setting.change, changeMaxChildren, hok] at h
      cases h
  | ring value =>
    by_cases hring : value = 0 ∨ value = 3
    · simp only [Setting.change, if_pos hring] at h
      cases h
    · exact .inr (.inr hring)

/-- **A setter does not widen exactly when its condition holds.** -/
theorem Setting.narrows_iff {s : Setting R Lib} {r' : Perms R Lib} (h : s.change r = .ok r') :
    NoWider (restrict (some pe) r') (restrict (some pe) r) ↔
      s.Narrows pe (restrict (some pe) r) r := by
  -- a setter touches one field, and the other five are within what there is
  have hold : Within pe r (restrict (some pe) r) := noWider_restrict.mp (.refl _)
  rw [noWider_restrict]
  cases s with
  | allowedLibraries libraries =>
    cases h
    constructor
    · intro hw lib hpe hlib
      exact hw.libraries lib hpe (allows_normaliseLibrarySet.mpr hlib)
    · intro hn
      refine { hold with libraries := fun lib hpe hlib => ?_ }
      exact hn lib hpe (allows_normaliseLibrarySet.mp hlib)
  | addLibrary library =>
    cases h
    constructor
    · intro hw hpe
      refine hw.libraries library hpe fun t ht => ?_
      cases ht
      exact mem_insert_self _ _
    · intro hn
      refine { hold with libraries := fun lib hpe hlib => ?_ }
      rcases mem_insert.mp (hlib _ rfl) with rfl | hmem
      · exact hn hpe
      · refine hold.libraries lib hpe fun t ht => ?_
        rwa [ht] at hmem
  | removeLibrary library =>
    cases hlibs : r.allowedLibraries with
    | none =>
      simp only [Setting.change, ProcTree.removeLibrary, hlibs] at h
      cases h
    | some libs =>
      simp only [Setting.change, ProcTree.removeLibrary, hlibs] at h
      cases h
      by_cases hempty : libs.erase library = ∅
      · -- an empty set is stored as `None`: everything the parent allows
        simp only [if_pos hempty]
        constructor
        · intro hw libs' hlibs'
          exact .inr fun lib hpe => hw.libraries lib hpe fun t ht => by cases ht
        · intro hn
          refine { hold with libraries := fun lib hpe _ => ?_ }
          rcases hn libs hlibs with ⟨k, hk, hne⟩ | hall
          · have hmem := mem_erase.mpr ⟨hne, hk⟩
            rw [hempty] at hmem
            exact absurd hmem (notMem_empty k)
          · exact hall lib hpe
      · simp only [if_neg hempty]
        constructor
        · intro _ libs' hlibs'
          rw [hlibs] at hlibs'
          cases hlibs'
          obtain ⟨k, hk⟩ := nonempty_iff_ne_empty.mpr hempty
          exact .inl ⟨k, mem_of_mem_erase hk, ne_of_mem_erase hk⟩
        · intro _
          refine { hold with libraries := fun lib hpe hlib => ?_ }
          refine hold.libraries lib hpe fun t ht => ?_
          rw [hlibs] at ht
          cases ht
          exact mem_of_mem_erase (hlib _ rfl)
  | maxRuntime seconds =>
    rcases normaliseRuntime_cases seconds with ⟨_, -, -, err, herr⟩ | ⟨hok, hpos⟩
    · simp only [Setting.change, changeRuntime, herr] at h
      cases h
    · simp only [Setting.change, changeRuntime, hok] at h
      cases h
      constructor
      · intro hw y hy
        exact (hw.runtime y hy).imp_right fun hx => hx.imp fun x h => ⟨h.1, .inl h.2⟩
      · intro hn
        refine { hold with runtime := fun y hy => ?_ }
        exact (hn y hy).imp_right fun hx => hx.imp fun x h => ⟨h.1, h.2.resolve_right (hpos x h.1)⟩
  | sandboxed value =>
    cases h
    constructor
    · exact fun hw => hw.sandboxed
    · intro hn
      exact { hold with sandboxed := hn }
  | canSpawn value =>
    cases h
    constructor
    · exact fun hw => hw.canSpawn
    · intro hn
      exact { hold with canSpawn := hn }
  | maxChildren value =>
    rcases normaliseMaxChildren_cases value with ⟨_, -, -, err, herr⟩ | ⟨hok, hpos⟩
    · simp only [Setting.change, changeMaxChildren, herr] at h
      cases h
    · simp only [Setting.change, changeMaxChildren, hok] at h
      cases h
      constructor
      · intro hw y hy
        exact (hw.children y hy).imp_right fun hx => hx.imp fun x h => ⟨h.1, .inl h.2⟩
      · intro hn
        refine { hold with children := fun y hy => ?_ }
        exact (hn y hy).imp_right fun hx => hx.imp fun x h => ⟨h.1, h.2.resolve_right (hpos x h.1)⟩
  | ring value =>
    by_cases hring : value = 0 ∨ value = 3
    · simp only [Setting.change, if_pos hring] at h
      cases h
      constructor
      · intro hw
        refine hw.ring.imp_right fun hle => .inl ?_
        rwa [validRing_of_valid hring] at hle
      · intro hn
        refine { hold with ring := ?_ }
        refine hn.imp_right fun hle => ?_
        show _ ≤ validRing value
        rw [validRing_of_valid hring]
        exact hle.resolve_right (not_not.mpr hring)
    · simp only [Setting.change, if_neg hring] at h
      cases h

end Narrow

/-! ## §2. Calls by a process and its descendants. -/

section Own

variable {R Lib : Type}

/-- Who makes a call: `by`, or the object itself. -/
def Op.actor : Op R Lib → Option Pid
  | .createKernelProcess _ => none
  | .spawnChild p _ => some p
  | .set p _ caller => some (caller.getD p)
  | .setCanKillParent p _ caller => some (caller.getD p)
  | .runEnter p _ _ => some p
  | .runLeave p => some p
  | .terminate p caller => some (caller.getD p)
  | .checkRuntime p _ => some p
  | .killChild p _ caller => some (caller.getD p)
  | .requestParentTermination p => some p

/-- The call is made by `p` or a descendant of it. -/
def Acts (m : Manager R Lib) (p : Pid) (op : Op R Lib) : Prop :=
  ∃ a, op.actor = some a ∧ Below m.parent p a

/-- What `p`'s permissions depend on is as before; `q` is its parent. -/
structure Untouched (m m' : Manager R Lib) (p q : Pid) : Prop where
  parent : m'.parent p = m.parent p
  requested : m'.requested p = m.requested p
  effective : m'.effective p = m.effective p
  above : m'.effective q = m.effective q
  grant : (m'.procs p).canKillParent = (m.procs p).canKillParent

theorem Quiet.untouched {m m' : Manager R Lib} (h : Quiet m m') (p q : Pid)
    (hkill : (m'.procs p).canKillParent = (m.procs p).canKillParent) : Untouched m m' p q :=
  ⟨congrFun h.parent p, congrFun h.requested p, congrFun h.effective p, congrFun h.effective q, hkill⟩

variable [LinearOrder R] [DecidableEq Lib] {m m' : Manager R Lib} {p q : Pid}

/-- A process on its place: below `q`, settled, without the permission to replace it. -/
structure Kept (m : Manager R Lib) (p q : Pid) : Prop where
  parent : m.parent p = some q
  settled : Settled m p
  grant : (m.procs p).canKillParent = false

theorem Kept.effective (h : Kept m p q) :
    m.effective p = restrict (some (m.effective q)) (m.requested p) := by
  have hset : m.effective p = restrict ((m.parent p).map m.effective) (m.requested p) := h.settled
  rw [h.parent] at hset
  exact hset

theorem Untouched.kept (h : Untouched m m' p q) (hk : Kept m p q) : Kept m' p q := by
  refine ⟨h.parent.trans hk.parent, ?_, h.grant.trans hk.grant⟩
  refine Inherits.frame hk.settled h.parent h.requested h.effective fun y hy => ?_
  rw [hk.parent] at hy
  cases hy
  exact h.above

variable {r : Perms R Lib}

theorem Altered.asked (h : Altered m m' p r) : m'.requested p = r :=
  (h.requested p).trans (congrArg Process.requested (ask_self m p r))

/-- A setter of `p` does not reach the parent. -/
theorem Altered.above (h : Altered m m' p r) (hf : Forest m) (hk : Kept m p q) :
    m'.effective q = m.effective q := by
  have hnot : ¬ Reach m p q := hf.not_reach_parent hk.parent
  exact (congrArg Process.effective (h.frame q hnot)).trans (ask_effective r q)

theorem Altered.kept (h : Altered m m' p r) (hk : Kept m p q) : Kept m' p q := by
  refine ⟨?_, h.settled p (.refl m p), ?_⟩
  · rw [h.tree.parent, hk.parent]
  · rw [h.shape.field Process.canKillParent (fun _ _ _ => rfl), ← hk.grant]
    exact modify_field m Process.canKillParent rfl p

variable [Zero R]

/-- **A call by `p` or a descendant, other than a setter on `p`, leaves `p`'s permissions
alone.** -/
theorem change_untouched {op : Op R Lib} {out : Except Err Unit} (h : Change m op out m') (hf : Forest m) (hk : Kept m p q)
    (hact : Acts m p op) (hother : ∀ s caller, op ≠ .set p s caller) : Untouched m m' p q := by
  obtain ⟨a, hactor, hbelow⟩ := hact
  -- nothing above `p` is below it
  have hup : ∀ x, Below m.parent p x → ¬ Below m.parent x q := fun x hx hxq =>
    not_below_of_parent hk.parent (hx.trans hxq)
  have hqp : p ≠ q := fun he => hf.parent_ne_self p (he ▸ hk.parent)
  cases h with
  | quiet h hkill _ => exact h.untouched p q (hkill p)
  | @granted x _ caller _ _ h hctl hself hkill =>
    cases hactor
    have hxp : p ≠ x := fun he => hself (he ▸ hctl.antisymm (he ▸ hbelow))
    exact h.untouched p q (hkill p hxp)
  | @altered x s caller r _ _ hctl hr h =>
    cases hactor
    have hpx : Below m.parent p x := hbelow.trans hctl
    have hne : p ≠ x := fun he => hother s caller (by rw [he])
    have hnot : ¬ Reach m x p := fun hr => hne (hpx.antisymm (hr.below hf.toLinks))
    have hnotq : ¬ Reach m x q := fun hr => hup x hpx (hr.below hf.toLinks)
    have hsame : m'.procs p = m.procs p := (h.frame p hnot).trans (ask_of_ne hne r)
    refine ⟨congrArg Process.parent hsame, congrArg Process.requested hsame,
      congrArg Process.effective hsame, ?_, congrArg Process.canKillParent hsame⟩
    exact (congrArg Process.effective (h.frame q hnotq)).trans (ask_effective r q)
  | created => cases hactor
  | spawned _ _ h _ href =>
    -- the refresh starts at the new leaf
    have hp : p ≠ m.pidCounter := by
      rintro rfl
      have hnone := (hf.fresh m.pidCounter (le_refl _)).1
      rw [hk.parent] at hnone
      cases hnone
    have hq : q ≠ m.pidCounter := ne_of_lt (hf.older p q hk.parent)
    have hsame := href.frame p (h.not_reach hp)
    have hold := h.rest p hp
    refine ⟨?_, ?_, ?_, ?_, ?_⟩
    · exact (congrArg Process.parent hsame).trans (h.parent_of_ne hp)
    · exact (congrArg Process.requested hsame).trans (h.requested_of_ne hp)
    · exact (congrArg Process.effective hsame).trans (h.effective_of_ne hp)
    · exact (congrArg Process.effective (href.frame q (h.not_reach hq))).trans
        (h.effective_of_ne hq)
    · rw [hsame, hold]
  | pruned _ _ h =>
    exact ⟨congrFun h.parent p, congrFun h.requested p, congrFun h.effective p,
      congrFun h.effective q, h.field Process.canKillParent (fun _ _ _ _ _ => rfl) p⟩
  | @promoted y c _ _ hpar hkill hc h =>
    obtain rfl : c = a := Option.some.inj hactor
    -- the process that takes its parent's place is strictly below `p`
    have hcp : p ≠ c := by
      rintro rfl
      rw [hk.grant] at hkill
      cases hkill
    obtain ⟨y', hy', hpy⟩ := hbelow.up (Ne.symm hcp)
    rw [hpar] at hy'
    cases hy'
    have hsib : p ∉ (m.procs y).children := fun hmem =>
      not_below_of_parent ((hf.children y p).mp hmem).2 hpy
    refine ⟨h.parentOther p hcp hsib, congrFun h.requested p, ?_, ?_, h.canKillParent p hcp⟩
    · exact h.effective p fun hbad => hbad.2 (hpy.antisymm hbad.1)
    · exact h.effective q fun hbad => hup y hpy hbad.1

/-- **The condition on a call**: a setter that `p` calls on itself does not widen. -/
def NarrowCall (m : Manager R Lib) (p : Pid) (op : Op R Lib) : Prop :=
  ∀ s caller q, op = .set p s caller → caller.getD p = p → m.parent p = some q →
    s.Narrows (m.effective q) (m.effective p) (m.requested p)

/-- A setter of `p` called by `p` or a descendant: `p` stays in its place, and its
permissions do not widen exactly when the condition holds. -/
theorem own_set {s : Setting R Lib} {caller : Option Pid} {out : Except Err Unit} (hf : Forest m)
    (hk : Kept m p q) (hact : Acts m p (.set p s caller))
    (hchange : Change m (.set p s caller) out m') :
    Kept m' p q ∧ (NoWider (m'.effective p) (m.effective p) ↔ NarrowCall m p (.set p s caller)) := by
  cases hchange with
  | quiet h hkill hidle =>
    have hun := h.untouched p q (hkill p)
    rw [hun.effective]
    refine ⟨hun.kept hk, iff_of_true (.refl _) ?_⟩
    rintro s' caller' q' ⟨⟩ hself -
    rcases hidle with hctl | ⟨e, he⟩
    · rw [hself] at hctl
      exact absurd (Below.self (hf.lines p)) hctl
    · exact Setting.narrows_of_error he
  | pruned hop => cases hop
  | altered hctl hr h =>
    -- the caller is below `p` and above it
    obtain ⟨a, hactor, hbelow⟩ := hact
    cases hactor
    have hself : caller.getD p = p := hctl.antisymm hbelow
    have hk' := h.kept hk
    have hafter := hk'.effective
    rw [h.above hf hk, h.asked] at hafter
    rw [hafter, hk.effective, Setting.narrows_iff hr, ← hk.effective]
    refine ⟨hk', fun hn => ?_, fun hn => hn s caller q rfl hself hk.parent⟩
    rintro s' caller' q' ⟨⟩ - hq'
    rw [hk.parent] at hq'
    cases hq'
    exact hn

variable [Add R]

/-- A call by `p` or a descendant, on any pid handed out so far. -/
def OwnCall (m : Manager R Lib) (p : Pid) (op : Op R Lib) (m' : Manager R Lib) : Prop :=
  (∀ x, op.receiver = some x → x < m.pidCounter) ∧ Acts m p op ∧ Called m op m'

/-- **One call by `p` or a descendant.** -/
theorem OwnCall.step {op : Op R Lib} (h : OwnCall m p op m') (hf : Forest m) (hk : Kept m p q) :
    Kept m' p q ∧ (NoWider (m'.effective p) (m.effective p) ↔ NarrowCall m p op) := by
  obtain ⟨hrec, hact, out, hcall⟩ := h
  have hchange := change_of_returns hcall hf hrec
  by_cases hset : ∃ s caller, op = .set p s caller
  · obtain ⟨s, caller, rfl⟩ := hset
    exact own_set hf hk hact hchange
  · have hother : ∀ s caller, op ≠ .set p s caller := fun s caller he => hset ⟨s, caller, he⟩
    have hun := change_untouched hchange hf hk hact hother
    refine ⟨hun.kept hk, iff_of_true ?_ fun s caller _ he => absurd he (hother s caller)⟩
    rw [hun.effective]
    exact .refl _

/-- A run of calls by `p` and its descendants that all satisfy the condition. -/
def NarrowRun (p : Pid) : Manager R Lib → Manager R Lib → Prop :=
  ReflTransGen fun m m' => ∃ op, OwnCall m p op m' ∧ NarrowCall m p op

theorem NarrowRun.keeps (hrun : NarrowRun p m m') (hf : Forest m) (hk : Kept m p q) :
    Forest m' ∧ Kept m' p q ∧ NoWider (m'.effective p) (m.effective p) := by
  refine inv_of_run (fun m' => Forest m' ∧ Kept m' p q ∧ NoWider (m'.effective p) (m.effective p))
    hrun ⟨hf, hk, .refl _⟩ ?_
  rintro a b ⟨hfa, hka, hle⟩ ⟨op, hown, hnarrow⟩
  obtain ⟨hkb, hiff⟩ := hown.step hfa hka
  exact ⟨AnyCall.forest ⟨op, hown.1, hown.2.2⟩ hfa, hkb, (hiff.mpr hnarrow).trans hle⟩

theorem any_run (hrun : ReflTransGen AnyCall (newManager R Lib) m) :
    Forest m :=
  inv_of_run Forest hrun newManager_forest fun hf h => h.forest hf

/-- **No self-escalation, under the condition.**  From any reachable tree, along calls by a
registered process that is not the root and by its descendants, all of which satisfy the
condition, the permissions of the process never widen, from any state of the run to any
later one; and the next such call widens them unless it satisfies the condition too. -/
theorem no_self_escalation {m₀ m₁ m₂ : Manager R Lib} {p : Pid}
    (hreach : ReflTransGen AnyCall (newManager R Lib) m₀) (hp : p ∈ m₀.processes)
    (hroot : m₀.parent p ≠ none) (hgrant : (m₀.procs p).canKillParent = false)
    (h₁ : NarrowRun p m₀ m₁) (h₂ : NarrowRun p m₁ m₂) :
    NoWider (m₂.effective p) (m₁.effective p) ∧
      ∀ op m', OwnCall m₂ p op m' →
        (NoWider (m'.effective p) (m₂.effective p) ↔ NarrowCall m₂ p op) := by
  have hf := any_run hreach
  obtain ⟨q, hq⟩ := Option.ne_none_iff_exists'.mp hroot
  obtain ⟨hf₁, hk₁, -⟩ := h₁.keeps hf ⟨hq, hf.settled p hp, hgrant⟩
  obtain ⟨hf₂, hk₂, hle⟩ := h₂.keeps hf₁ hk₁
  exact ⟨hle, fun op m' hown => (hown.step hf₂ hk₂).2⟩

end Own

/-! ## §3. A child that leaves its sandbox. -/

/-- The kernel process of `kernelOnly` has spawned a sandboxed child, with pid 2. -/
def jailed : Manager ℕ ℕ :=
  refreshSelf (linked kernelOnly 1 true ⟨true, none, none, true, none, 0⟩) 2

/-- The child has called `set_sandboxed(False)`. -/
def unjailed : Manager ℕ ℕ := refreshSelf (ask jailed 2 ⟨false, none, none, true, none, 0⟩) 2

theorem jailed_spawned : Called kernelOnly
    (.spawnChild 1 ⟨true, some true, none, .none, none, true, none⟩) jailed :=
  ⟨.ok (), .stop fun _ => rfl⟩

theorem jailed_registered : ReflTransGen RegisteredCall (newManager ℕ ℕ) jailed := by
  refine (ReflTransGen.single kernelOnly_called).tail ⟨_, ?_, jailed_spawned⟩
  rintro p ⟨⟩
  decide

theorem jailed_called : AnyCall kernelOnly jailed := by
  refine ⟨_, ?_, jailed_spawned⟩
  rintro p ⟨⟩
  decide

theorem jailed_reached : ReflTransGen AnyCall (newManager ℕ ℕ) jailed := by
  refine .tail (.single ?_) jailed_called
  exact ⟨.createKernelProcess ⟨true, false, 0, .none, none, true, none⟩, nofun, _, Returns.pure _⟩

theorem jailed_line : Line jailed.parent 2 [2, 1] := .step rfl (.top rfl)

/-- `child.set_sandboxed(False)`, without `by`. -/
theorem unjailed_called : OwnCall jailed 2 (.set 2 (.sandboxed false) none) unjailed := by
  refine ⟨?_, ⟨2, rfl, Below.self ⟨_, jailed_line⟩⟩, .ok (), .stop fun _ => rfl⟩
  rintro p ⟨⟩
  decide

/-- **A process can leave its sandbox**: a registered child, spawned sandboxed and never
allowed to terminate its parent, calls `set_sandboxed(False)` on itself. -/
theorem sandbox_escape :
    ReflTransGen AnyCall (newManager ℕ ℕ) jailed ∧ 2 ∈ jailed.processes ∧
      jailed.parent 2 = some 1 ∧ (jailed.procs 2).canKillParent = false ∧
      OwnCall jailed 2 (.set 2 (.sandboxed false) none) unjailed ∧
      (jailed.effective 2).sandboxed = true ∧ (unjailed.effective 2).sandboxed = false ∧
      ¬ NoWider (unjailed.effective 2) (jailed.effective 2) := by
  refine ⟨jailed_reached, by decide, rfl, rfl, unjailed_called, rfl, rfl, fun h => ?_⟩
  have hstill : (unjailed.effective 2).sandboxed = true := h.sandboxed rfl
  cases hstill

/-- The child gives up the right to spawn, which satisfies the condition. -/
theorem no_self_escalation_jailed :
    ∃ m, NarrowRun 2 jailed m ∧ (m.effective 2).canSpawn = false ∧
      NoWider (m.effective 2) (jailed.effective 2) := by
  have hcall : OwnCall jailed 2 (.set 2 (.canSpawn false) none)
      (refreshSelf (ask jailed 2 ⟨true, none, none, false, none, 0⟩) 2) := by
    refine ⟨?_, ⟨2, rfl, Below.self ⟨_, jailed_line⟩⟩, .ok (), .stop fun _ => rfl⟩
    rintro p ⟨⟩
    decide
  have hrun : NarrowRun 2 jailed _ := .single ⟨_, hcall, by
    rintro s caller q ⟨⟩ - - -
    exact .inr rfl⟩
  have hroot : jailed.parent 2 ≠ none := Option.some_ne_none 1
  exact ⟨_, hrun, rfl, (no_self_escalation jailed_reached (by decide) hroot rfl .refl hrun).1⟩

end ExoCore.ProcTree
