/-
  ExoCore.ProcTree.Walks — what `_refresh_permissions` and `_terminate` do to a
  forest of processes.

  `Links m live` says that the parent pointers form a forest and that `children`
  lists exactly the live processes with that parent.  `Reach m p q` is "`q` is
  reached from `p` through `children`".

    * `refresh_returns`   — the walk ends; every process it reaches inherits from its
      parent afterwards, and nothing else changes;
    * `terminate_returns` — the walk ends; exactly the processes it reaches are
      terminated and gone from the tree.

  Both are proved from the children to the parent, one turn of the walk at a time.
-/
import ExoCore.ProcTree.Manager
import ExoCore.Lib.Lineage

namespace ExoCore.ProcTree

open ExoCore.Lib Function List Relation

variable {R Lib : Type}

/-! ## §1. The links. -/

/-- `q` is reached from `p` through `children`. -/
def Reach (m : Manager R Lib) (p q : Pid) : Prop :=
  ReflTransGen (fun a b => b ∈ (m.procs a).children) p q

theorem Reach.refl (m : Manager R Lib) (p : Pid) : Reach m p p := ReflTransGen.refl

variable {m : Manager R Lib} {p : Pid}

theorem Reach.child {a b : Pid} (h : Reach m p a)
    (hb : b ∈ (m.procs a).children) : Reach m p b :=
  ReflTransGen.tail h hb

/-- The first step of a walk. -/
theorem reach_iff {q : Pid} :
    Reach m p q ↔ q = p ∨ ∃ c ∈ (m.procs p).children, Reach m c q := by
  constructor
  · intro h
    rcases ReflTransGen.cases_head h with h | ⟨c, hc, hcq⟩
    · exact .inl h.symm
    · exact .inr ⟨c, hc, hcq⟩
  · rintro (rfl | ⟨c, hc, hcq⟩)
    · exact .refl m q
    · exact ReflTransGen.head hc hcq

/-- **The links**: no cycle of parent pointers, and `children` lists the live processes
with that parent, each once. -/
structure Links (m : Manager R Lib) (live : List Pid) : Prop where
  lines : ∀ p, ∃ l, Line m.parent p l
  children : ∀ p c, c ∈ (m.procs p).children ↔ c ∈ live ∧ m.parent c = some p
  nodup : ∀ p, (m.procs p).children.Nodup

section Links

variable {m m' : Manager R Lib} {live : List Pid} {p q c : Pid}
variable (h : Links m live)
include h

theorem Reach.below (hr : Reach m p q) : Below m.parent p q := by
  induction hr with
  | refl => exact Below.self (h.lines p)
  | tail _ hc ih => exact ih.child ((h.children _ _).mp hc).2

/-- Everything a walk reaches is live. -/
theorem Links.live_of_reach (hp : p ∈ live) (hr : Reach m p q) : q ∈ live := by
  cases hr with
  | refl => exact hp
  | tail _ hc => exact ((h.children _ _).mp hc).1

/-- No walk from a child comes back to the parent. -/
theorem Links.not_reach_parent (hp : m.parent c = some p) :
    ¬ Reach m c p := fun hr => not_below_of_parent hp (hr.below h)

theorem Links.parent_ne_self (p : Pid) : m.parent p ≠ some p :=
  fun hp => h.not_reach_parent hp (.refl m p)

end Links

/-! ## §2. Changes that keep the links. -/

/-- **The same tree**: who is registered, how they hang together, and who is terminated.  Pids
may have been used up. -/
structure SameTree (m m' : Manager R Lib) : Prop where
  processes : m'.processes = m.processes
  root : m'.root = m.root
  pidCounter : m.pidCounter ≤ m'.pidCounter
  parent : m'.parent = m.parent
  children : ∀ q, (m'.procs q).children = (m.procs q).children
  terminated : ∀ q, (m'.procs q).state = .terminated ↔ (m.procs q).state = .terminated

/-- Everything is the same, except for effective permissions and deadlines. -/
def SameShape (m m' : Manager R Lib) : Prop :=
  ∃ (effective : Pid → Perms R Lib) (deadline : Pid → Option R), m' = { m with
    procs := fun q => { m.procs q with effective := effective q, deadline := deadline q } }

section Same

variable {m m' m'' : Manager R Lib} {live : List Pid} {p q : Pid}

section

variable (h : SameTree m m')
include h

theorem SameTree.trans (h' : SameTree m' m'') : SameTree m m'' :=
  ⟨h'.1.trans h.1, h'.2.trans h.2, h.3.trans h'.3, h'.4.trans h.4,
    fun q => (h'.5 q).trans (h.5 q), fun q => (h'.6 q).trans (h.6 q)⟩

theorem SameTree.links (hl : Links m live) : Links m' live := by
  refine ⟨?_, fun p c => ?_, fun p => ?_⟩
  · rw [h.parent]
    exact hl.lines
  · rw [h.parent, h.children]
    exact hl.children p c
  · rw [h.children]
    exact hl.nodup p

theorem SameTree.reach : Reach m' p q ↔ Reach m p q := by
  unfold Reach
  simp only [h.children]

end

/-- A field that the change of one object keeps. -/
theorem modify_field {α : Type} (m : Manager R Lib) {p : Pid} {f : Process R Lib → Process R Lib}
    (g : Process R Lib → α) (hg : g (f (m.procs p)) = g (m.procs p)) (q : Pid) :
    g ((m.modify p f).procs q) = g (m.procs q) := by
  by_cases hq : q = p
  · subst hq
    simp only [Manager.modify, update_self]
    exact hg
  · simp only [Manager.modify, update_of_ne hq]

/-- Changing one object, in fields the tree is not about. -/
theorem SameTree.modify (m : Manager R Lib) (p : Pid) {f : Process R Lib → Process R Lib}
    (hparent : (f (m.procs p)).parent = (m.procs p).parent)
    (hchildren : (f (m.procs p)).children = (m.procs p).children)
    (hstate : (f (m.procs p)).state = .terminated ↔ (m.procs p).state = .terminated) :
    SameTree m (m.modify p f) := by
  refine ⟨rfl, rfl, le_refl _, funext (modify_field m _ hparent), modify_field m _ hchildren,
    fun q => ?_⟩
  exact iff_of_eq (modify_field m (fun x => x.state = .terminated) (propext hstate) q)

theorem SameShape.refl (m : Manager R Lib) : SameShape m m :=
  ⟨fun q => (m.procs q).effective, fun q => (m.procs q).deadline, rfl⟩

section

variable (h : SameShape m m')
include h

theorem SameShape.trans (h' : SameShape m' m'') : SameShape m m'' := by
  obtain ⟨effective, deadline, rfl⟩ := h
  obtain ⟨effective', deadline', rfl⟩ := h'
  exact ⟨effective', deadline', rfl⟩

theorem SameShape.tree : SameTree m m' := by
  obtain ⟨effective, deadline, rfl⟩ := h
  exact ⟨rfl, rfl, le_refl _, rfl, fun _ => rfl, fun _ => .rfl⟩

theorem SameShape.pidCounter : m'.pidCounter = m.pidCounter := by
  obtain ⟨effective, deadline, rfl⟩ := h
  rfl

/-- Any other field. -/
theorem SameShape.field {α : Type} (f : Process R Lib → α)
    (hf : ∀ (x : Process R Lib) e d, f { x with effective := e, deadline := d } = f x) (q : Pid) :
    f (m'.procs q) = f (m.procs q) := by
  obtain ⟨effective, deadline, rfl⟩ := h
  exact hf _ _ _

end

end Same

/-! ## §3. Refreshing. -/

theorem updateDeadline_eq [Add R] (p : Process R Lib) :
    updateDeadline p = { p with deadline := (updateDeadline p).deadline } := by
  unfold updateDeadline
  split
  · rfl
  · split <;> rfl

section Refresh

variable [LinearOrder R] [DecidableEq Lib]

/-- `q`'s effective permissions are its request, restricted by its parent. -/
def Settled (m : Manager R Lib) (q : Pid) : Prop :=
  Inherits m.parent restrict m.requested m.effective q

/-- The processes of `S` are settled, everything else is as before. -/
structure Refreshed (m m' : Manager R Lib) (S : Pid → Prop) : Prop where
  shape : SameShape m m'
  frame : ∀ q, ¬ S q → m'.procs q = m.procs q
  settled : ∀ q, S q → Settled m' q

variable {m : Manager R Lib} {live : List Pid}

/-- **A refresh unsettles no live process**: one whose parent was touched was touched
itself. -/
theorem Refreshed.keeps {m' : Manager R Lib} {S : Pid → Prop} {q : Pid}
    (h : Refreshed m m' S) (hl : Links m live)
    (hdown : ∀ a b, S a → b ∈ (m.procs a).children → S b) (hq : q ∈ live) (hs : Settled m q) :
    Settled m' q := by
  by_cases hS : S q
  · exact h.settled q hS
  · have hown := h.frame q hS
    refine hs.frame (congrArg Process.parent hown) (congrArg Process.requested hown)
      (congrArg Process.effective hown) ?_
    intro y hy
    have hSy : ¬ S y := fun hSy => hS (hdown y q hSy ((hl.children y q).mpr ⟨hq, hy⟩))
    exact congrArg Process.effective (h.frame y hSy)

variable [Add R]

/-- `_refresh_permissions(propagate=False)` settles the process itself. -/
theorem refreshSelf_spec {p : Pid} (hp : m.parent p ≠ some p) :
    Refreshed m (refreshSelf m p) (· = p) := by
  let self : Process R Lib := { m.procs p with
    effective := restrict ((m.parent p).map m.effective) (m.procs p).requested }
  have hself : (refreshSelf m p).procs p =
      if (m.procs p).state = .running then updateDeadline self else self := by
    simp only [refreshSelf, Manager.modify, update_self]
    rfl
  have hother : ∀ q, q ≠ p → (refreshSelf m p).procs q = m.procs q := by
    intro q hq
    simp only [refreshSelf, Manager.modify, update_of_ne hq]
  have heff : (refreshSelf m p).effective p =
      restrict ((m.parent p).map m.effective) (m.requested p) := by
    show ((refreshSelf m p).procs p).effective = _
    rw [hself, updateDeadline_eq]
    split <;> rfl
  have hobject : ∀ q, (refreshSelf m p).procs q = { m.procs q with
      effective := ((refreshSelf m p).procs q).effective
      deadline := ((refreshSelf m p).procs q).deadline } := by
    intro q
    by_cases hq : q = p
    · rw [hq, hself]
      split
      · rw [updateDeadline_eq]
      · rfl
    · rw [hother q hq]
  have hshape : SameShape m (refreshSelf m p) :=
    ⟨_, _, congrArg (Manager.mk · m.processes m.pidCounter m.root) (funext hobject)⟩
  refine ⟨hshape, hother, ?_⟩
  rintro q rfl
  unfold Settled Inherits
  rw [heff, hshape.tree.parent, show (refreshSelf m q).requested q = m.requested q from
    hshape.field Process.requested (fun _ _ _ => rfl) q]
  cases hy : m.parent q with
  | none => rfl
  | some y =>
    have hne : y ≠ q := fun he => hp (he ▸ hy)
    show restrict (some (m.effective y)) (m.requested q) =
      restrict (some ((refreshSelf m q).effective y)) (m.requested q)
    rw [show (refreshSelf m q).effective y = m.effective y from
      congrArg Process.effective (hother y hne)]

/-- **`_refresh_permissions` ends**, and settles exactly what it reaches. -/
def RefreshEnds (m : Manager R Lib) (p : Pid) : Prop :=
  ∃ m', Returns (fun fuel => refreshPermissions fuel m p) m' ∧ Refreshed m m' (Reach m p)

/-- The walk over a list of processes, when the walk from each of them is known. -/
theorem refreshAll_spec (cs : List Pid) :
    ∀ {m : Manager R Lib}, Links m live → (∀ c ∈ cs, c ∈ live) →
      (∀ c ∈ cs, ∀ m₁, SameShape m m₁ → RefreshEnds m₁ c) →
      ∃ m', Returns (fun fuel => cs.foldlM (fun m c => refreshPermissions fuel m c) m) m' ∧
        Refreshed m m' fun q => ∃ c ∈ cs, Reach m c q := by
  induction cs with
  | nil =>
    intro m _ _ _
    refine ⟨m, Returns.pure _, .refl m, fun _ _ => rfl, ?_⟩
    rintro q ⟨c, hc, -⟩
    cases hc
  | cons c cs ih =>
    intro m hl hlive hwalk
    obtain ⟨m₁, hrun₁, h₁⟩ := hwalk c (mem_cons_self ..) m (.refl m)
    have hl₁ := h₁.shape.tree.links hl
    obtain ⟨m₂, hrun₂, h₂⟩ := ih hl₁ (fun d hd => hlive d (by simp [hd]))
      fun d hd m' hm' => hwalk d (by simp [hd]) m' (h₁.shape.trans hm')
    have hreach : ∀ d q, Reach m₁ d q ↔ Reach m d q := fun d q => h₁.shape.tree.reach
    refine ⟨m₂, hrun₁.andThen hrun₂, h₁.shape.trans h₂.shape, ?_, ?_⟩
    · -- a process none of them reaches
      intro q hq
      have hcs : ¬ ∃ d ∈ cs, Reach m₁ d q := by
        rintro ⟨d, hd, hr⟩
        exact hq ⟨d, by simp [hd], (hreach d q).mp hr⟩
      rw [h₂.frame q hcs]
      exact h₁.frame q fun hr => hq ⟨c, by simp, hr⟩
    · rintro q ⟨d, hd, hr⟩
      rcases mem_cons.mp hd with rfl | hd
      · -- settled by the first walk, and the others unsettle nothing
        have hq : q ∈ live := hl.live_of_reach (hlive d (by simp)) hr
        refine h₂.keeps hl₁ ?_ hq (h₁.settled q hr)
        rintro a b ⟨e, he, hea⟩ hb
        exact ⟨e, he, hea.child hb⟩
      · exact h₂.settled q ⟨d, hd, (hreach d q).mpr hr⟩

/-- **One turn of `_refresh_permissions`**, when the walks from the children are known. -/
theorem refreshPermissions_spec {p : Pid} (hl : Links m live)
    (hwalk : ∀ c ∈ live, m.parent c = some p → ∀ m₁, SameShape m m₁ → RefreshEnds m₁ c) :
    RefreshEnds m p := by
  have hself := refreshSelf_spec (hl.parent_ne_self p)
  have htree := hself.shape.tree
  have hkids : ∀ c ∈ ((refreshSelf m p).procs p).children, c ∈ live ∧ m.parent c = some p := by
    intro c hc
    rw [htree.children] at hc
    exact (hl.children p c).mp hc
  obtain ⟨m', hrun, h'⟩ := refreshAll_spec _ (htree.links hl) (fun c hc => (hkids c hc).1)
    fun c hc m₁ hm₁ => hwalk c (hkids c hc).1 (hkids c hc).2 m₁ (hself.shape.trans hm₁)
  have hreach : ∀ c q, Reach (refreshSelf m p) c q ↔ Reach m c q := fun c q => htree.reach
  refine ⟨m', hrun.turn fun _ => rfl, hself.shape.trans h'.shape, ?_, ?_⟩
  · intro q hq
    have hqp : q ≠ p := fun h => hq (h ▸ .refl m p)
    rw [h'.frame q, hself.frame q hqp]
    rintro ⟨c, hc, hr⟩
    rw [htree.children] at hc
    exact hq (reach_iff.mpr (.inr ⟨c, hc, (hreach c q).mp hr⟩))
  · intro q hq
    rcases reach_iff.mp hq with rfl | ⟨c, hc, hr⟩
    · -- `p` itself: no walk from a child touches `p` or its parent
      have hnot : ∀ y, (∃ c ∈ ((refreshSelf m q).procs q).children, Reach (refreshSelf m q) c y) →
          Below m.parent q y ∧ y ≠ q := by
        rintro y ⟨c, hc, hr⟩
        have hcq := (hkids c hc).2
        have hry := (hreach c y).mp hr
        refine ⟨((Below.self (hl.lines q)).child hcq).trans (hry.below hl), ?_⟩
        rintro rfl
        exact hl.not_reach_parent hcq hry
      have hown := h'.frame q fun h => (hnot q h).2 rfl
      refine (hself.settled q rfl).frame (congrArg Process.parent hown)
        (congrArg Process.requested hown) (congrArg Process.effective hown) ?_
      intro y hy
      rw [htree.parent] at hy
      refine congrArg Process.effective (h'.frame y fun h => ?_)
      exact not_below_of_parent hy (hnot y h).1
    · rw [← htree.children] at hc
      exact h'.settled q ⟨c, hc, (hreach c q).mpr hr⟩

/-- The walk from any process of a forest. -/
theorem refresh_returns (hl : Links m live) (p : Pid) : RefreshEnds m p := by
  -- a walk meets the tree in any shape that earlier walks have left
  have hall : ∀ m₁, SameShape m m₁ → RefreshEnds m₁ p := by
    refine Line.down_induction live hl.lines (fun p ih m₁ hs => ?_) p
    refine refreshPermissions_spec (hs.tree.links hl) fun c hc hp m₂ hs' => ?_
    rw [hs.tree.parent] at hp
    exact ih c hc hp m₂ (hs.trans hs')
  exact hall m (.refl m)

/-- The walks from a list of live processes end. -/
theorem refreshAll_returns (cs : List Pid) (hl : Links m live) (hcs : ∀ c ∈ cs, c ∈ live) :
    ∃ m', Returns (fun fuel => cs.foldlM (fun m c => refreshPermissions fuel m c) m) m' ∧
      Refreshed m m' fun q => ∃ c ∈ cs, Reach m c q :=
  refreshAll_spec cs hl hcs fun c _ _ hs => refresh_returns (hs.tree.links hl) c

end Refresh

/-! ## §4. The forest of registered processes. -/

section Forest

variable [LinearOrder R] [DecidableEq Lib]

/-- **The invariant of the manager**: the links of the registered processes; a process is
registered until it is terminated; pids from the counter on name no object; requested
rings are 0 or 3; and every registered process is settled. -/
structure Forest (m : Manager R Lib) : Prop extends Links m m.processes where
  registry : m.processes.Nodup
  alive : ∀ p, p ∈ m.processes ↔ (m.procs p).state ≠ .terminated
  fresh : ∀ p, m.pidCounter ≤ p → m.parent p = none ∧ (m.procs p).state = .terminated
  older : ∀ p q, m.parent p = some q → q < m.pidCounter
  rings : ∀ p, (m.requested p).ring = 0 ∨ (m.requested p).ring = 3
  settled : ∀ p ∈ m.processes, Settled m p

theorem Forest.lt_counter {m : Manager R Lib} (h : Forest m) {p : Pid} (hp : p ∈ m.processes) :
    p < m.pidCounter := by
  by_contra hge
  exact (h.alive p).mp hp (h.fresh p (not_lt.mp hge)).2

/-- **The same tree is a forest** when the requested rings are valid and everybody is settled. -/
theorem SameTree.forest {m m' : Manager R Lib} (h : SameTree m m') (hf : Forest m)
    (hrings : ∀ p, (m'.requested p).ring = 0 ∨ (m'.requested p).ring = 3)
    (hset : ∀ p ∈ m.processes, Settled m' p) : Forest m' := by
  have hlinks := h.links hf.toLinks
  rw [← h.processes] at hlinks
  refine ⟨hlinks, ?_, fun p => ?_, fun p hp => ?_, fun p q hq => ?_, hrings, fun p hp => ?_⟩
  · rw [h.processes]
    exact hf.registry
  · rw [h.processes, ne_eq, h.terminated]
    exact hf.alive p
  · rw [h.parent, h.terminated]
    exact hf.fresh p (le_trans h.pidCounter hp)
  · rw [h.parent] at hq
    exact lt_of_lt_of_le (hf.older p q hq) h.pidCounter
  · rw [h.processes] at hp
    exact hset p hp

/-- A refresh of whole subtrees keeps the forest. -/
theorem Refreshed.forest {m m' : Manager R Lib} {S : Pid → Prop} (h : Refreshed m m' S)
    (hf : Forest m) (hdown : ∀ a b, S a → b ∈ (m.procs a).children → S b) : Forest m' := by
  refine h.shape.tree.forest hf (fun p => ?_) fun p hp => h.keeps hf.toLinks hdown hp (hf.settled p hp)
  rw [show m'.requested p = m.requested p from h.shape.field Process.requested (fun _ _ _ => rfl) p]
  exact hf.rings p

end Forest

/-! ## §5. Terminating. -/

/-- The object of a process that has been terminated. -/
def Process.gone (x : Process R Lib) : Process R Lib :=
  { x with children := [], state := .terminated, startTime := none, deadline := none }

/-- `m'` is `m` with the processes of `D` terminated and taken out of the tree. -/
structure Pruned (m m' : Manager R Lib) (D : Pid → Prop) : Prop where
  pidCounter : m'.pidCounter = m.pidCounter
  registry : m'.processes.Sublist m.processes
  processes : ∀ q, q ∈ m'.processes ↔ q ∈ m.processes ∧ ¬ D q
  gone : ∀ q, D q → m'.procs q = (m.procs q).gone
  kept : ∀ q, ¬ D q → m'.procs q = { m.procs q with children := (m'.procs q).children }
  children : ∀ q, (m'.procs q).children.Sublist (m.procs q).children
  mem_children : ∀ q, ¬ D q → ∀ c,
    c ∈ (m'.procs q).children ↔ c ∈ (m.procs q).children ∧ ¬ D c
  rootGone : ∀ r, m.root = some r → D r → m.parent r = none → m'.root = none
  rootKept : (∀ r, m.root = some r → m.parent r = none → ¬ D r) → m'.root = m.root

namespace Pruned

variable {m m' m'' : Manager R Lib} {D D' : Pid → Prop} {p q : Pid}

theorem congr (h : Pruned m m' D) (hD : ∀ q, D q ↔ D' q) : Pruned m m' D' := by
  obtain rfl : D = D' := funext fun q => propext (hD q)
  exact h

theorem nothing (m : Manager R Lib) (hD : ∀ q, ¬ D q) : Pruned m m D where
  pidCounter := rfl
  registry := .refl _
  processes q := (and_iff_left (hD q)).symm
  gone q hq := absurd hq (hD q)
  kept _ _ := rfl
  children _ := .refl _
  mem_children _ _ c := (and_iff_left (hD c)).symm
  rootGone r _ hr := absurd hr (hD r)
  rootKept _ := rfl

section

variable (h : Pruned m m' D)
include h

/-- What does not change when a process is terminated. -/
theorem field {α : Type} (f : Process R Lib → α) (hf : ∀ (x : Process R Lib) cs st t d,
    f { x with children := cs, state := st, startTime := t, deadline := d } = f x) (q : Pid) :
    f (m'.procs q) = f (m.procs q) := by
  by_cases hD : D q
  · rw [h.gone q hD]
    exact hf _ _ _ _ _
  · rw [h.kept q hD]
    exact hf (m.procs q) _ (m.procs q).state (m.procs q).startTime (m.procs q).deadline

theorem parent : m'.parent = m.parent := funext (h.field Process.parent fun _ _ _ _ _ => rfl)

theorem requested : m'.requested = m.requested :=
  funext (h.field Process.requested fun _ _ _ _ _ => rfl)

theorem effective : m'.effective = m.effective :=
  funext (h.field Process.effective fun _ _ _ _ _ => rfl)

theorem terminated (hq : D q) : (m'.procs q).state = .terminated :=
  congrArg Process.state (h.gone q hq)

theorem state (hq : ¬ D q) : (m'.procs q).state = (m.procs q).state :=
  (congrArg Process.state (h.kept q hq)).trans rfl

/-- Terminating one set of processes, then another. -/
theorem trans (h' : Pruned m' m'' D') : Pruned m m'' fun q => D q ∨ D' q := by
  refine ⟨h'.pidCounter.trans h.pidCounter, h'.registry.trans h.registry, ?_, ?_, ?_,
    fun q => (h'.children q).trans (h.children q), ?_, ?_, ?_⟩
  · intro q
    rw [h'.processes, h.processes, not_or, and_assoc]
  · intro q hq
    by_cases hD' : D' q
    · rw [h'.gone q hD']
      by_cases hD : D q
      · rw [h.gone q hD]
        rfl
      · rw [h.kept q hD]
        rfl
    · -- terminated by the first, and left alone by the second
      have hD := h.gone q (hq.resolve_right hD')
      have hsub := h'.children q
      rw [hD] at hsub
      rw [h'.kept q hD', hD, sublist_nil.mp hsub]
      rfl
  · intro q hq
    obtain ⟨hD, hD'⟩ := not_or.mp hq
    rw [h'.kept q hD', h.kept q hD]
  · intro q hq c
    obtain ⟨hD, hD'⟩ := not_or.mp hq
    rw [h'.mem_children q hD', h.mem_children q hD, not_or, and_assoc]
  · intro r hr hD hpar
    by_cases h1 : D r
    · have hnone := h.rootGone r hr h1 hpar
      rw [h'.rootKept, hnone]
      intro r' hr'
      rw [hnone] at hr'
      cases hr'
    · have hsame : m'.root = m.root := h.rootKept fun r' hr' _ => by
        rw [hr] at hr'
        cases hr'
        exact h1
      refine h'.rootGone r (hsame.trans hr) (hD.resolve_left h1) ?_
      rw [h.parent]
      exact hpar
  · intro hall
    have hsame : m'.root = m.root := h.rootKept fun r hr hpar hD => hall r hr hpar (.inl hD)
    rw [h'.rootKept, hsame]
    intro r hr hpar hD
    rw [hsame] at hr
    rw [h.parent] at hpar
    exact hall r hr hpar (.inr hD)

theorem reach_of (hr : Reach m' p q) : Reach m p q := by
  induction hr with
  | refl => exact .refl m p
  | tail _ hc ih => exact ih.child ((h.children _).subset hc)

/-- A walk to a process that is kept meets only processes that are kept. -/
theorem reach (hdown : ∀ a b, D a → b ∈ (m.procs a).children → D b) (hr : Reach m p q)
    (hq : ¬ D q) : Reach m' p q := by
  induction hr with
  | refl => exact .refl m' p
  | @tail b c _ hc ih =>
    have hb : ¬ D b := fun hb => hq (hdown b c hb hc)
    exact (ih hb).child ((h.mem_children b hb c).mpr ⟨hc, hq⟩)

/-- **Pruning keeps the forest**, when the set is closed under `children`. -/
theorem forest [LinearOrder R] [DecidableEq Lib] (hf : Forest m)
    (hdown : ∀ a b, D a → b ∈ (m.procs a).children → D b) : Forest m' := by
  refine ⟨⟨?_, fun p c => ?_, fun p => (hf.nodup p).sublist (h.children p)⟩,
    hf.registry.sublist h.registry, fun p => ?_, fun p hp => ?_, fun p q hq => ?_, fun p => ?_,
    fun p hp => ?_⟩
  · rw [h.parent]
    exact hf.lines
  · rw [h.processes, h.parent]
    by_cases hp : D p
    · rw [h.gone p hp]
      refine ⟨(fun hc => by cases hc), ?_⟩
      rintro ⟨⟨hc, hD⟩, hpar⟩
      exact absurd (hdown p c hp ((hf.children p c).mpr ⟨hc, hpar⟩)) hD
    · rw [h.mem_children p hp, hf.children]
      exact and_right_comm
  · rw [h.processes, hf.alive]
    by_cases hp : D p
    · rw [h.terminated hp]
      exact iff_of_false (fun hh => hh.2 hp) fun hh => hh rfl
    · rw [h.state hp]
      exact and_iff_left hp
  · rw [h.pidCounter] at hp
    obtain ⟨h1, h2⟩ := hf.fresh p hp
    rw [h.parent]
    refine ⟨h1, ?_⟩
    by_cases hD : D p
    · exact h.terminated hD
    · exact (h.state hD).trans h2
  · rw [h.parent] at hq
    rw [h.pidCounter]
    exact hf.older p q hq
  · rw [h.requested]
    exact hf.rings p
  · unfold Settled
    rw [h.parent, h.requested, h.effective]
    exact hf.settled p ((h.processes p).mp hp).1

end

end Pruned

/-! The last step of `_terminate`, when no child is left. -/

section Detach

variable {m : Manager R Lib} {p q : Pid}

theorem parent_modify_children (m : Manager R Lib) (p : Pid) :
    (m.modify p fun q => { q with children := [] }).parent p = m.parent p := by
  simp only [Manager.parent, Manager.modify, update_self]

theorem detach_self (hp : m.parent p ≠ some p) :
    (detach m p).procs p = (m.procs p).gone := by
  simp only [detach, parent_modify_children, Process.gone]
  cases hg : m.parent p with
  | none =>
    simp only
    split <;> simp only [Manager.modify, Manager.unregister, update_self]
  | some g =>
    have hne : p ≠ g := fun h => hp (h ▸ hg)
    simp only [Manager.modify, Manager.unregister, update_self,
      update_of_ne hne]

theorem detach_of_ne (hq : q ≠ p) :
    (detach m p).procs q = { m.procs q with
      children := if m.parent p = some q then (m.procs q).children.erase p
        else (m.procs q).children } := by
  simp only [detach, parent_modify_children]
  cases hg : m.parent p with
  | none =>
    simp only [reduceCtorEq, if_false]
    split <;> simp only [Manager.modify, Manager.unregister, update_of_ne hq]
  | some g =>
    by_cases hqg : q = g
    · subst hqg
      simp only [Manager.modify, Manager.unregister, update_of_ne hq,
        update_self, if_true]
    · have hgq : ¬ some g = some q := fun h => hqg (Option.some.inj h).symm
      simp only [Manager.modify, Manager.unregister, update_of_ne hq,
        update_of_ne hqg, if_neg hgq]

theorem detach_statics (m : Manager R Lib) (p : Pid) :
    (detach m p).processes = m.processes.erase p ∧ (detach m p).pidCounter = m.pidCounter ∧
      (detach m p).root = if m.parent p = none ∧ m.root = some p then none else m.root := by
  simp only [detach, parent_modify_children]
  cases hg : m.parent p with
  | none =>
    have hsame : (m.modify p fun q => { q with children := [] }).root = m.root := rfl
    simp only [true_and, hsame]
    split
    · exact ⟨rfl, rfl, rfl⟩
    · exact ⟨rfl, rfl, rfl⟩
  | some g =>
    simp only [reduceCtorEq, false_and, if_false]
    exact ⟨rfl, rfl, rfl⟩

/-- **Taking a process without children out of the tree.** -/
theorem detach_spec (hl : Links m m.processes) (hnd : m.processes.Nodup)
    (hleaf : ∀ c, c ∉ (m.procs p).children) : Pruned m (detach m p) (· = p) := by
  have hpp := hl.parent_ne_self p
  obtain ⟨hproc, hcount, hroot⟩ := detach_statics m p
  refine ⟨hcount, ?_, ?_, ?_, ?_, ?_, ?_, ?_, ?_⟩
  · rw [hproc]
    exact erase_sublist
  · intro q
    rw [hproc, hnd.mem_erase_iff, and_comm]
  · rintro q rfl
    exact detach_self hpp
  · intro q hq
    rw [detach_of_ne hq]
  · intro q
    by_cases hq : q = p
    · rw [hq, detach_self hpp]
      exact nil_sublist _
    · rw [detach_of_ne hq]
      dsimp only
      split
      · exact erase_sublist
      · exact .refl _
  · intro q hq c
    rw [detach_of_ne hq]
    dsimp only
    by_cases hg : m.parent p = some q
    · rw [if_pos hg, (hl.nodup q).mem_erase_iff, and_comm]
    · rw [if_neg hg]
      refine ⟨fun hc => ⟨hc, ?_⟩, fun hc => hc.1⟩
      rintro rfl
      exact hg ((hl.children q c).mp hc).2
  · rintro r hr rfl hpar
    rw [hroot, if_pos ⟨hpar, hr⟩]
  · intro hall
    rw [hroot, if_neg]
    rintro ⟨hpar, hr⟩
    exact hall p hr hpar rfl

end Detach

/-- What a walk of `_terminate` from `p` takes out. -/
def Doomed (m : Manager R Lib) (p q : Pid) : Prop := p ∈ m.processes ∧ Reach m p q

theorem Doomed.down (a b : Pid) (h : Doomed m p a) (hb : b ∈ (m.procs a).children) :
    Doomed m p b :=
  ⟨h.1, h.2.child hb⟩

section Terminate

variable [LinearOrder R] [DecidableEq Lib]

/-- **`_terminate` ends**, and takes out exactly what it reaches. -/
def TerminateEnds (m : Manager R Lib) (p : Pid) : Prop :=
  ∃ m', Returns (fun fuel => terminateTree fuel m p) m' ∧ Pruned m m' (Doomed m p)

/-- The walks from a list of processes, one after the other.  A process that an earlier
walk took out is not walked again. -/
theorem terminateAll_spec (cs : List Pid) : ∀ {m : Manager R Lib}, Forest m →
    (∀ c ∈ cs, ∀ m₁ : Manager R Lib, Forest m₁ → m₁.parent = m.parent →
      m₁.processes ⊆ m.processes → TerminateEnds m₁ c) →
    ∃ m', Returns (fun fuel => cs.foldlM (fun m c => terminateTree fuel m c) m) m' ∧
      Pruned m m' fun q => ∃ c ∈ cs, Doomed m c q := by
  induction cs with
  | nil =>
    intro m hf _
    refine ⟨m, Returns.pure _, Pruned.nothing m ?_⟩
    rintro q ⟨c, hc, -⟩
    cases hc
  | cons c cs ih =>
    intro m hf hwalk
    obtain ⟨m₁, hrun₁, h₁⟩ := hwalk c (by simp) m hf rfl fun q hq => hq
    obtain ⟨m₂, hrun₂, h₂⟩ := ih (h₁.forest hf Doomed.down) fun d hd m' hm' hpar hsub =>
      hwalk d (by simp [hd]) m' hm' (hpar.trans h₁.parent) (List.Subset.trans hsub h₁.registry.subset)
    refine ⟨m₂, hrun₁.andThen hrun₂, (h₁.trans h₂).congr fun q => ?_⟩
    constructor
    · rintro (hc | ⟨d, hd, hdm, hr⟩)
      · exact ⟨c, by simp, hc⟩
      · exact ⟨d, by simp [hd], ((h₁.processes d).mp hdm).1, h₁.reach_of hr⟩
    · rintro ⟨d, hd, hdm, hr⟩
      by_cases hq : Doomed m c q
      · exact .inl hq
      · rcases mem_cons.mp hd with rfl | hd
        · exact absurd ⟨hdm, hr⟩ hq
        · -- the walk to `q` is still there after the first one
          have hdd : ¬ Doomed m c d := fun h => hq ⟨h.1, ReflTransGen.trans h.2 hr⟩
          exact .inr ⟨d, hd, (h₁.processes d).mpr ⟨hdm, hdd⟩, h₁.reach Doomed.down hr hq⟩

/-- **One turn of `_terminate`**, when the walks from the children are known. -/
theorem terminateTree_spec {m : Manager R Lib} {p : Pid} (hf : Forest m)
    (hwalk : ∀ c ∈ m.processes, m.parent c = some p → ∀ m₁ : Manager R Lib, Forest m₁ →
      m₁.parent = m.parent → m₁.processes ⊆ m.processes → TerminateEnds m₁ c) :
    TerminateEnds m p := by
  by_cases hdead : (m.procs p).state = .terminated
  · refine ⟨m, Returns.stop fun _ => if_pos hdead, Pruned.nothing m ?_⟩
    rintro q ⟨hp, -⟩
    exact (hf.alive p).mp hp hdead
  · have hp : p ∈ m.processes := (hf.alive p).mpr hdead
    obtain ⟨m₁, hrun, h₁⟩ := terminateAll_spec (m.procs p).children hf fun c hc =>
      hwalk c ((hf.children p c).mp hc).1 ((hf.children p c).mp hc).2
    have hf₁ := h₁.forest hf fun a b ⟨c, hc, hD⟩ hb => ⟨c, hc, hD.down a b hb⟩
    -- `p` is still there, without children
    have hpkept : ¬ ∃ c ∈ (m.procs p).children, Doomed m c p := by
      rintro ⟨c, hc, -, hr⟩
      exact hf.toLinks.not_reach_parent ((hf.children p c).mp hc).2 hr
    have hleaf : ∀ c, c ∉ (m₁.procs p).children := by
      intro c hc
      obtain ⟨hc, hnot⟩ := (h₁.mem_children p hpkept c).mp hc
      exact hnot ⟨c, hc, ((hf.children p c).mp hc).1, .refl m c⟩
    have hlast := detach_spec hf₁.toLinks hf₁.registry hleaf
    have hall : Pruned m (detach m₁ p) (Doomed m p) := (h₁.trans hlast).congr fun q => by
      unfold Doomed
      rw [reach_iff]
      constructor
      · rintro (⟨c, hc, -, hr⟩ | rfl)
        · exact ⟨hp, .inr ⟨c, hc, hr⟩⟩
        · exact ⟨hp, .inl rfl⟩
      · rintro ⟨-, rfl | ⟨c, hc, hr⟩⟩
        · exact .inr rfl
        · exact .inl ⟨c, hc, ((hf.children p c).mp hc).1, hr⟩
    have hret : Returns (fun fuel => terminateTree fuel m p) (detach m₁ p) :=
      (hrun.andThen (Returns.pure (detach m₁ p))).turn fun _ => if_neg hdead
    exact ⟨_, hret, hall⟩

/-- The walk from any process of a forest. -/
theorem terminate_returns {m : Manager R Lib} (hf : Forest m) (p : Pid) : TerminateEnds m p := by
  have hall : ∀ m₁ : Manager R Lib, Forest m₁ → m₁.parent = m.parent →
      m₁.processes ⊆ m.processes → TerminateEnds m₁ p := by
    refine Line.down_induction m.processes hf.lines (fun p ih m₁ hf₁ hpar hsub => ?_) p
    refine terminateTree_spec hf₁ fun c hc hp m₂ hf₂ hpar' hsub' => ?_
    rw [hpar] at hp
    exact ih c (hsub hc) hp m₂ hf₂ (hpar'.trans hpar) (List.Subset.trans hsub' hsub)
  exact hall m hf rfl fun _ hq => hq

end Terminate

/-! ## §6. Control. -/

section Control

variable {m : Manager R Lib} {target : Pid} {l : List Pid}

theorem controlLoop_spec (controller : Pid) (h : Line m.parent target l) :
    Returns (fun fuel => controlLoop m controller fuel (some target))
      (decide (controller ∈ l)) := by
  induction h with
  | @top x hp =>
    refine ⟨2, fun n hn => ?_⟩
    obtain ⟨n, rfl⟩ : ∃ j, n = j + 2 := ⟨n - 2, by omega⟩
    by_cases hx : x = controller
    · subst hx
      simp [controlLoop]
    · simp [controlLoop, hx, hp, Ne.symm hx]
  | @step x y l hp _ ih =>
    by_cases hx : x = controller
    · subst hx
      exact Returns.stop fun n => by simp [controlLoop]
    · have hmem : decide (controller ∈ x :: l) = decide (controller ∈ l) := by
        simp [Ne.symm hx]
      rw [hmem]
      refine ih.turn fun n => ?_
      rw [controlLoop, if_neg hx, hp]

/-- **`assert_control`** lets a process control itself and its descendants. -/
theorem assertControl_spec (hlines : ∀ p, ∃ l, Line m.parent p l) (controller target : Pid) :
    (Below m.parent controller target ∧
      Returns (fun fuel => assertControl fuel m controller target) (.ok ())) ∨
    (¬ Below m.parent controller target ∧
      Returns (fun fuel => assertControl fuel m controller target)
        (.error (.permissionError "Controller does not own target"))) := by
  obtain ⟨l, hl⟩ := hlines target
  by_cases heq : controller = target
  · subst heq
    exact .inl ⟨Below.self ⟨l, hl⟩, 0, fun n _ => if_pos rfl⟩
  · simp only [assertControl, if_neg heq]
    have hloop := controlLoop_spec controller hl
    by_cases hmem : controller ∈ l
    · rw [decide_eq_true hmem] at hloop
      exact .inl ⟨⟨l, hl, hmem⟩, hloop.andThen (Returns.pure _)⟩
    · rw [decide_eq_false hmem] at hloop
      refine .inr ⟨?_, hloop.andThen (Returns.pure _)⟩
      rintro ⟨l', hl', hmem'⟩
      rw [hl'.unique hl] at hmem'
      exact hmem hmem'

end Control

end ExoCore.ProcTree
