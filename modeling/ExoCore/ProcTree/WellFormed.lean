/-
  ExoCore.ProcTree.WellFormed — the process tree of every run, and what a PROMOTION does
  to it.

  `TreeOk` is the tree as a client sees it: registry, `children`, `parent` and root agree.
  It follows from `Forest` and `Rooted`, which every call on a registered process keeps.

  A promotion renames one node: whatever the old parent stood for, the child now stands
  for.  `standIn` is this renaming.  It maps the walks of the old tree to walks of the new
  one, and `cameFrom` maps them back, so no descendant is lost.

  Main results:
    • `Relinked.reach`, `Relinked.reach_back` — walks before and after a promotion;
    • `process_tree` — every run, and every successful `request_parent_termination`.
-/
import ExoCore.ProcTree.Escalation

namespace ExoCore.ProcTree

open ExoCore.Lib Relation

/-! ## §1. The tree. -/

section Tree

variable {R Lib : Type}

/-- `b` is the parent of `a`. -/
def ParentOf (m : Manager R Lib) (a b : Pid) : Prop := m.parent a = some b

/-- **A well-formed process tree.** -/
structure TreeOk (m : Manager R Lib) : Prop where
  registry : ∀ p, p ∈ m.processes ↔ ∃ r, m.root = some r ∧ Reach m r p
  children : ∀ p c, c ∈ (m.procs p).children ↔ c ∈ m.processes ∧ m.parent c = some p
  acyclic : ∀ p, ¬ Relation.TransGen (ParentOf m) p p
  root : ∀ p, p ∈ m.processes ∧ m.parent p = none ↔ m.root = some p
  distinct : m.processes.Nodup
  alive : ∀ p, p ∈ m.processes → (m.procs p).state ≠ .terminated

variable {m : Manager R Lib} {live : List Pid}

theorem Links.acyclic (h : Links m live) (p : Pid) : ¬ Relation.TransGen (ParentOf m) p p := by
  obtain ⟨l, hl⟩ := h.lines p
  exact hl.acyclic

variable [LinearOrder R] [DecidableEq Lib]

/-- Everybody registered is reached from the root. -/
theorem Rooted.reached (hr : Rooted m) (hf : Forest m) {p : Pid} {l : List Pid}
    (hl : Line m.parent p l) (hp : p ∈ m.processes) : ∃ r, m.root = some r ∧ Reach m r p := by
  induction hl with
  | @top p hnone => exact ⟨p, (hr.root p).mpr ⟨hp, hnone⟩, .refl m p⟩
  | @step p q l hpar _ ih =>
    obtain ⟨r, hroot, hreach⟩ := ih (hr.closed p q hp hpar)
    exact ⟨r, hroot, hreach.child ((hf.children q p).mpr ⟨hp, hpar⟩)⟩

theorem Forest.treeOk (hf : Forest m) (hr : Rooted m) : TreeOk m where
  registry := by
    intro p
    constructor
    · intro hp
      obtain ⟨l, hl⟩ := hf.lines p
      exact hr.reached hf hl hp
    · rintro ⟨r, hroot, hreach⟩
      exact hf.toLinks.live_of_reach ((hr.root r).mp hroot).1 hreach
  children := hf.children
  acyclic := hf.toLinks.acyclic
  root := fun p => (hr.root p).symm
  distinct := hf.registry
  alive := fun p => (hf.alive p).mp

end Tree

/-! ## §2. Walks and promotion. -/

section Walks

variable {R Lib : Type} {m m' : Manager R Lib} {p c : Pid} {live : List Pid}

/-- Who stands where `q` stood, once `c` has replaced `p`. -/
def standIn (p c q : Pid) : Pid := if q = p then c else q

/-- Where `q` stood: the promoted child is in the place of its parent. -/
def cameFrom (p c q : Pid) : Pid := if q = c then p else q

theorem standIn_self (p c : Pid) : standIn p c p = c := if_pos rfl

theorem standIn_of_ne {q : Pid} (h : q ≠ p) : standIn p c q = q := if_neg h

theorem cameFrom_self (p c : Pid) : cameFrom p c c = p := if_pos rfl

theorem cameFrom_of_ne {q : Pid} (h : q ≠ c) : cameFrom p c q = q := if_neg h

section

variable (h : Relinked m m' p c) (hl : Links m live)
include h hl

/-- **Walks before the promotion**, one step. -/
theorem Relinked.reach_step (hc : c ∈ (m.procs p).children) {a b : Pid}
    (hb : b ∈ (m.procs a).children) : Reach m' (standIn p c a) (standIn p c b) := by
  have hself := hl.parent_ne_self a
  have hpar := ((hl.children a b).mp hb).2
  by_cases hbc : a = p ∧ b = c
  · -- the two processes that are now one
    rw [hbc.1, hbc.2, standIn_self, standIn_of_ne (hl.child_ne hc).1]
    exact .refl m' c
  · refine (Reach.refl m' _).child ?_
    have hchild := h.childrenChild
    have hgrand := h.childrenGrand a
    have hother := h.childrenOther a
    by_cases hag : m.parent p = some a <;> grind [standIn]

theorem Relinked.reach (hc : c ∈ (m.procs p).children) {q x : Pid} (hr : Reach m q x) :
    Reach m' (standIn p c q) (standIn p c x) := by
  induction hr with
  | refl => exact .refl m' _
  | tail _ hb ih => exact ReflTransGen.trans ih (h.reach_step hl hc hb)

/-- **Walks after the promotion**, one step. -/
theorem Relinked.reach_back_step (hp : p ∈ live) (hc : c ∈ (m.procs p).children) {a b : Pid}
    (hb : b ∈ (m'.procs a).children) : b ≠ p ∧ Reach m (cameFrom p c a) (cameFrom p c b) := by
  obtain ⟨hcp, hgc⟩ := hl.child_ne hc
  have hself := hl.parent_ne_self
  have hkids := hl.children
  have hpc : Reach m p c := (Reach.refl m p).child hc
  have hold := h.childrenOld
  have hchild := h.childrenChild
  have hgrand := h.childrenGrand a
  have hother := h.childrenOther a
  by_cases hacb : a = c ∧ b ∈ (m.procs c).children
  · rw [hacb.1, cameFrom_self, cameFrom_of_ne (by grind)]
    exact ⟨by grind, hpc.child hacb.2⟩
  · have hstep : b ≠ p ∧ cameFrom p c b ∈ (m.procs (cameFrom p c a)).children := by
      by_cases hag : m.parent p = some a <;> grind [cameFrom]
    exact ⟨hstep.1, (Reach.refl m _).child hstep.2⟩

theorem Relinked.reach_back (hp : p ∈ live) (hc : c ∈ (m.procs p).children) {q x : Pid} (hq : q ≠ p)
    (hr : Reach m' q x) : x ≠ p ∧ Reach m (cameFrom p c q) x := by
  have hwalk : x ≠ p ∧ Reach m (cameFrom p c q) (cameFrom p c x) := by
    induction hr with
    | refl => exact ⟨hq, .refl m _⟩
    | tail _ hb ih =>
      obtain ⟨hne, hstep⟩ := h.reach_back_step hl hp hc hb
      exact ⟨hne, ReflTransGen.trans ih.2 hstep⟩
  refine ⟨hwalk.1, ?_⟩
  by_cases hxc : x = c
  · rw [hxc, cameFrom_self] at hwalk
    rw [hxc]
    exact hwalk.2.child hc
  · rw [cameFrom_of_ne hxc] at hwalk
    exact hwalk.2

end

end Walks

/-! ## §3. A successful request. -/

section Request

variable {R Lib : Type}

/-- **`c` has replaced its parent `p`**, and nobody else is affected. -/
structure Replaced (m m' : Manager R Lib) (p c : Pid) : Prop where
  registry : ∀ q, q ∈ m'.processes ↔ q ∈ m.processes ∧ q ≠ p
  parent : m'.parent c = m.parent p
  asRoot : m.parent p = none → m'.root = some c
  below : ∀ g, m.parent p = some g → m'.root = m.root ∧
    ∀ x, x ∈ (m'.procs g).children ↔ (x ∈ (m.procs g).children ∧ x ≠ p) ∨ x = c
  /-- Everybody below the old parent is below the child. -/
  child : ∀ x, Reach m' c x ↔ Reach m p x ∧ x ≠ p
  /-- Everybody else keeps the own descendants. -/
  others : ∀ q, q ≠ p → q ≠ c → ∀ x, Reach m' q x ↔ Reach m q x ∧ x ≠ p

variable {m m' : Manager R Lib} {p c : Pid} [LinearOrder R] [DecidableEq Lib]

theorem Promoted.replaced (h : Promoted m m' p c) (hf : Forest m) (hp : p ∈ m.processes)
    (hc : c ∈ (m.procs p).children) : Replaced m m' p c := by
  have hl := hf.toLinks
  have hcp := (hl.child_ne hc).1
  refine ⟨fun q => ?_, h.parentChild, fun hnone => ?_, fun g hg => ⟨?_, h.childrenGrand g hg⟩,
    fun x => ⟨fun hr => ?_, ?_⟩, fun q hqp hqc x => ⟨fun hr => ?_, ?_⟩⟩
  · rw [h.processes, hf.registry.mem_erase_iff, and_comm]
  · rw [h.root, if_pos hnone]
  · rw [h.root, if_neg (by rw [hg]; exact Option.some_ne_none g)]
  · obtain ⟨hxp, hr⟩ := h.reach_back hl hp hc hcp hr
    rw [cameFrom_self] at hr
    exact ⟨hr, hxp⟩
  · rintro ⟨hr, hxp⟩
    have hr' := h.reach hl hc hr
    rwa [standIn_self, standIn_of_ne hxp] at hr'
  · obtain ⟨hxp, hr⟩ := h.reach_back hl hp hc hqp hr
    rw [cameFrom_of_ne hqc] at hr
    exact ⟨hr, hxp⟩
  · rintro ⟨hr, hxp⟩
    have hr' := h.reach hl hc hr
    rwa [standIn_of_ne hqp, standIn_of_ne hxp] at hr'

variable [Add R] [Zero R]

/-- **THE PROCESS TREE**: well-formed in every state that calls on registered processes lead
to; every such call returns; and a successful `request_parent_termination` takes out the parent
of the caller, puts the caller in its place, and keeps everybody else where they were. -/
theorem process_tree (hrun : ReflTransGen RegisteredCall (newManager R Lib) m) :
    TreeOk m ∧
      (∀ op, (∀ p, Op.receiver op = some p → p ∈ m.processes) → ∃ m', Called m op m') ∧
      ∀ c m', c ∈ m.processes →
        Returns (fun fuel => requestParentTermination fuel m c) (.ok (), m') →
          ∃ p, m.parent c = some p ∧ Replaced m m' p c := by
  obtain ⟨hf, hr⟩ := registered_run hrun
  refine ⟨hf.treeOk hr, fun op hrec => ?_, fun c m' hc hret => ?_⟩
  · obtain ⟨out, m', hret, -⟩ := exec_change hf op fun p hp => hf.lt_counter (hrec p hp)
    exact ⟨m', out, hret⟩
  · have hcall : Returns (fun fuel => exec fuel m (.requestParentTermination c)) (.ok (), m') := hret
    -- a request that does not raise has promoted the child
    cases change_of_returns hcall hf (by rintro p ⟨⟩; exact hf.lt_counter hc) with
    | quiet _ _ hidle => exact absurd rfl hidle
    | pruned hop => cases hop
    | @promoted p _ _ _ hpar _ hchild h =>
      exact ⟨p, hpar, h.replaced hf (hr.closed c p hc hpar) hchild⟩

end Request

/-- The sandboxed child of `jailed` may replace its parent. -/
def heir : Manager ℕ ℕ := jailed.modify 2 fun q => { q with canKillParent := true }

theorem heir_reached : ReflTransGen RegisteredCall (newManager ℕ ℕ) heir := by
  have hgrant : RegisteredCall jailed heir := by
    refine ⟨.setCanKillParent 2 true (some 1), ?_, .ok (), 2, ?_⟩
    · rintro p ⟨⟩
      decide
    · intro n hn
      obtain ⟨k, rfl⟩ : ∃ k, n = k + 2 := ⟨n - 2, by omega⟩
      rfl
  exact jailed_registered.tail hgrant

/-- The child becomes the root. -/
theorem process_tree_heir : ∃ m', Returns (fun fuel => requestParentTermination fuel heir 2)
    (.ok (), m') ∧ TreeOk heir ∧ Replaced heir m' 1 2 ∧ m'.root = some 2 := by
  obtain ⟨htree, -, hrequest⟩ := process_tree heir_reached
  have hf := (registered_run heir_reached).1
  obtain ⟨m', hret, -⟩ := promoteChild_spec hf (show 2 ∈ (heir.procs 1).children by decide)
  have hcall : Returns (fun fuel => requestParentTermination fuel heir 2) (.ok (), m') := hret
  obtain ⟨p, hpar, hrep⟩ := hrequest 2 m' (by decide) hcall
  cases hpar
  exact ⟨m', hcall, htree, hrep, hrep.asRoot rfl⟩

end ExoCore.ProcTree
