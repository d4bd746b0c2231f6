/-
  ExoCore.ProcTree.Promotion — `_promote_child`, the surgery that puts a child in the
  place of its parent.

  The child takes the parent's place under the grandparent (or as the root), the
  siblings are hung below it, permissions are refreshed below it, and the old
  parent, which has no children left, is terminated.  Between the relinking and
  the termination the old parent is registered but hangs nowhere, so the links
  are stated for the OTHER processes (`Relinked.links`).

    * `promoteChild_spec` — the call returns, and its result is `Promoted`;
    * `Promoted.forest`   — which is a forest again.
-/
import ExoCore.ProcTree.Surgery

namespace ExoCore.ProcTree

open ExoCore.Lib Function List

variable {R Lib : Type}

/-! ## §1. Adopting the siblings. -/

/-- Two versions of an object that differ in their links only. -/
def SameObject (x y : Process R Lib) : Prop :=
  ∃ parent children, y = { x with parent := parent, children := children }

theorem SameObject.trans {x y z : Process R Lib} (h : SameObject x y) (h' : SameObject y z) :
    SameObject x z := by
  obtain ⟨parent, children, rfl⟩ := h
  obtain ⟨parent', children', rfl⟩ := h'
  exact ⟨parent', children', rfl⟩

theorem SameObject.field {x y : Process R Lib} (h : SameObject x y) {α : Type}
    (f : Process R Lib → α)
    (hf : ∀ (x : Process R Lib) p cs, f { x with parent := p, children := cs } = f x) :
    f y = f x := by
  obtain ⟨parent, children, rfl⟩ := h
  exact hf _ _ _

/-- `m'` is `m` with the processes of `sibs` moved from `p` to `c`. -/
structure Adopted (m m' : Manager R Lib) (p c : Pid) (sibs : List Pid) : Prop where
  processes : m'.processes = m.processes
  pidCounter : m'.pidCounter = m.pidCounter
  root : m'.root = m.root
  parent : ∀ q, m'.parent q = if q ∈ sibs then some c else m.parent q
  left : ∀ x, x ∈ (m'.procs p).children ↔ x ∈ (m.procs p).children ∧ x ∉ sibs
  joined : ∀ x, x ∈ (m'.procs c).children ↔ x ∈ (m.procs c).children ∨ x ∈ sibs
  others : ∀ q, q ≠ p → q ≠ c → (m'.procs q).children = (m.procs q).children
  nodup : ∀ q, (m'.procs q).children.Nodup
  object : ∀ q, SameObject (m.procs q) (m'.procs q)

section Adopt

variable {m : Manager R Lib} {p c s : Pid}

theorem adopt_procs (hcp : c ≠ p) (hsp : s ≠ p) (hsc : s ≠ c) (q : Pid) :
    (adopt p c m s).procs q = { m.procs q with
      parent := if q = s then some c else m.parent q
      children := if q = p then (m.procs p).children.erase s
        else if q = c then setKey (m.procs c).children s else (m.procs q).children } := by
  simp only [adopt, Manager.modify, Manager.parent, update_apply]
  split_ifs <;> simp_all

theorem adopt_spec (hcp : c ≠ p) (hsp : s ≠ p) (hsc : s ≠ c)
    (hnd : ∀ q, (m.procs q).children.Nodup) : Adopted m (adopt p c m s) p c [s] := by
  have hprocs := adopt_procs (m := m) hcp hsp hsc
  refine ⟨rfl, rfl, rfl, fun q => ?_, fun x => ?_, fun x => ?_, fun q h1 h2 => ?_, fun q => ?_,
    fun q => ⟨_, _, hprocs q⟩⟩
  · simp only [mem_singleton]
    exact congrArg Process.parent (hprocs q)
  · rw [hprocs, mem_singleton]
    dsimp only
    rw [if_pos rfl, (hnd p).mem_erase_iff, and_comm]
  · rw [hprocs, mem_singleton]
    dsimp only
    rw [if_neg hcp, if_pos rfl, mem_setKey]
  · rw [hprocs]
    dsimp only
    rw [if_neg h1, if_neg h2]
  · rw [hprocs]
    dsimp only
    split_ifs
    · exact (hnd p).erase s
    · exact setKey_nodup (hnd c)
    · exact hnd q

/-- One after the other. -/
theorem Adopted.trans {m' m'' : Manager R Lib} {l l' : List Pid}
    (h : Adopted m m' p c l) (h' : Adopted m' m'' p c l') : Adopted m m'' p c (l ++ l') := by
  refine ⟨h'.processes.trans h.processes, h'.pidCounter.trans h.pidCounter,
    h'.root.trans h.root, ?_, ?_, ?_, ?_, h'.nodup, fun q => (h.object q).trans (h'.object q)⟩
  · intro q
    rw [h'.parent, h.parent]
    by_cases h1 : q ∈ l' <;> by_cases h2 : q ∈ l <;> simp [h1, h2]
  · intro x
    rw [h'.left, h.left, mem_append, not_or, and_assoc]
  · intro x
    rw [h'.joined, h.joined, mem_append, or_assoc]
  · intro q h1 h2
    rw [h'.others q h1 h2, h.others q h1 h2]

/-- **The adoption loop.** -/
theorem adoptAll_spec (hcp : c ≠ p) (sibs : List Pid) : ∀ {m : Manager R Lib}, p ∉ sibs →
    c ∉ sibs → (∀ q, (m.procs q).children.Nodup) →
    Adopted m (sibs.foldl (adopt p c) m) p c sibs := by
  induction sibs with
  | nil =>
    intro m _ _ hnd
    refine ⟨rfl, rfl, rfl, fun q => ?_, fun x => ?_, fun x => ?_, fun _ _ _ => rfl, hnd,
      fun q => ⟨_, _, rfl⟩⟩
    · simp
    · simp
    · simp
  | cons s sibs ih =>
    intro m hp hc hnd
    obtain ⟨hsp, hp⟩ := not_or.mp (mem_cons.not.mp hp)
    obtain ⟨hsc, hc⟩ := not_or.mp (mem_cons.not.mp hc)
    have h1 := adopt_spec (m := m) hcp (Ne.symm hsp) (Ne.symm hsc) hnd
    exact Adopted.trans h1 (ih hp hc h1.nodup)

end Adopt

/-! ## §2. The relinked tree. -/

/-- How `m'` hangs together after `_promote_child` has moved the pointers of `m`: `c` in the
place of `p`, the other children of `p` below `c`, and nothing below `p`. -/
structure Relinked (m m' : Manager R Lib) (p c : Pid) : Prop where
  root : m'.root = if m.parent p = none then some c else m.root
  parentChild : m'.parent c = m.parent p
  parentSibling : ∀ q, q ≠ c → q ∈ (m.procs p).children → m'.parent q = some c
  parentOther : ∀ q, q ≠ c → q ∉ (m.procs p).children → m'.parent q = m.parent q
  childrenOld : (m'.procs p).children = []
  childrenChild : ∀ x, x ∈ (m'.procs c).children ↔
    x ∈ (m.procs c).children ∨ (x ∈ (m.procs p).children ∧ x ≠ c)
  childrenGrand : ∀ g, m.parent p = some g → ∀ x, x ∈ (m'.procs g).children ↔
    (x ∈ (m.procs g).children ∧ x ≠ p) ∨ x = c
  childrenOther : ∀ q, q ≠ p → q ≠ c → m.parent p ≠ some q →
    (m'.procs q).children = (m.procs q).children
  nodup : ∀ q, (m'.procs q).children.Nodup

theorem Relinked.of_same {m m₁ m' : Manager R Lib} {p c : Pid} (h : Relinked m m₁ p c)
    (hroot : m'.root = m₁.root) (hparent : m'.parent = m₁.parent)
    (hchildren : ∀ q, (m'.procs q).children = (m₁.procs q).children) : Relinked m m' p c := by
  refine ⟨?_, ?_, ?_, ?_, ?_, ?_, ?_, ?_, ?_⟩ <;> simp only [hroot, hparent, hchildren]
  exacts [h.root, h.parentChild, h.parentSibling, h.parentOther, h.childrenOld, h.childrenChild,
    h.childrenGrand, h.childrenOther, h.nodup]

/-- Only the pointers have moved. -/
structure Moved (m m' : Manager R Lib) (p c : Pid) : Prop extends Relinked m m' p c where
  processes : m'.processes = m.processes
  pidCounter : m'.pidCounter = m.pidCounter
  object : ∀ q, SameObject (m.procs q) (m'.procs q)

/-- `_promote_child` up to the adoption loop. -/
def liftChild (m : Manager R Lib) (p c : Pid) : Manager R Lib :=
  let m₁ := (m.modify p fun q => { q with children := q.children.erase c }).modify c fun q =>
    { q with parent := m.parent p }
  match m.parent p with
  | none => { m₁ with root := some c }
  | some g => m₁.modify g fun q => { q with children := setKey (q.children.erase p) c }

theorem relink_eq (m : Manager R Lib) (p c : Pid) :
    relink m p c = ((liftChild m p c).procs p).children.foldl (adopt p c) (liftChild m p c) := by
  unfold relink liftChild
  cases m.parent p <;> rfl

section Relink

variable {m m' : Manager R Lib} {p c : Pid} {live : List Pid}

theorem liftChild_procs (hcp : c ≠ p) (hgp : m.parent p ≠ some p) (hgc : m.parent p ≠ some c)
    (q : Pid) : (liftChild m p c).procs q = { m.procs q with
      parent := if q = c then m.parent p else m.parent q
      children := if q = p then (m.procs p).children.erase c
        else if m.parent p = some q then setKey ((m.procs q).children.erase p) c
        else (m.procs q).children } := by
  unfold liftChild
  cases hg : m.parent p with
  | none =>
    simp only [Manager.modify, update_apply]
    split_ifs <;> simp_all [Manager.parent]
  | some g =>
    simp only [Manager.modify, update_apply]
    split_ifs <;> simp_all [Manager.parent]

theorem liftChild_statics (m : Manager R Lib) (p c : Pid) :
    (liftChild m p c).processes = m.processes ∧ (liftChild m p c).pidCounter = m.pidCounter ∧
      (liftChild m p c).root = if m.parent p = none then some c else m.root := by
  unfold liftChild
  cases m.parent p with
  | none => exact ⟨rfl, rfl, rfl⟩
  | some g => exact ⟨rfl, rfl, rfl⟩

theorem Links.child_ne (hl : Links m live) (hc : c ∈ (m.procs p).children) :
    c ≠ p ∧ m.parent p ≠ some c := by
  have hcpar : m.parent c = some p := ((hl.children p c).mp hc).2
  refine ⟨fun h => hl.parent_ne_self p (h ▸ hcpar), fun h => ?_⟩
  exact not_below_of_parent hcpar ((Below.self (hl.lines c)).child h)

/-- **The pointer surgery** of `_promote_child`. -/
theorem relink_spec (hl : Links m live) (hc : c ∈ (m.procs p).children) :
    Moved m (relink m p c) p c := by
  obtain ⟨hcp, hgc⟩ := hl.child_ne hc
  have hgp := hl.parent_ne_self p
  have hprocs := liftChild_procs hcp hgp hgc
  obtain ⟨hproc, hcount, hroot⟩ := liftChild_statics m p c
  -- the siblings, and the list they leave
  have hsibs : ((liftChild m p c).procs p).children = (m.procs p).children.erase c := by
    rw [hprocs]
    exact if_pos rfl
  have hmem : ∀ x, x ∈ (m.procs p).children.erase c ↔ x ≠ c ∧ x ∈ (m.procs p).children :=
    fun x => (hl.nodup p).mem_erase_iff
  have hnd : ∀ q, ((liftChild m p c).procs q).children.Nodup := by
    intro q
    rw [hprocs]
    dsimp only
    split_ifs
    · exact (hl.nodup p).erase c
    · exact setKey_nodup ((hl.nodup q).erase p)
    · exact hl.nodup q
  have hpsib : p ∉ (m.procs p).children.erase c := by
    rw [hmem]
    rintro ⟨-, h⟩
    exact hl.parent_ne_self p ((hl.children p p).mp h).2
  have hcsib : c ∉ (m.procs p).children.erase c := fun h => ((hmem c).mp h).1 rfl
  have had := adoptAll_spec (m := liftChild m p c) hcp _ hpsib hcsib hnd
  rw [relink_eq, hsibs]
  have hlift : ∀ q, (liftChild m p c).parent q = if q = c then m.parent p else m.parent q :=
    fun q => congrArg Process.parent (hprocs q)
  have hkids : ∀ q, q ≠ p → ((liftChild m p c).procs q).children =
      if m.parent p = some q then setKey ((m.procs q).children.erase p) c
      else (m.procs q).children := by
    intro q hqp
    rw [hprocs]
    exact if_neg hqp
  refine ⟨⟨had.root.trans hroot, ?_, ?_, ?_, ?_, ?_, ?_, ?_, had.nodup⟩, had.processes.trans hproc,
    had.pidCounter.trans hcount, fun q => .trans ⟨_, _, hprocs q⟩ (had.object q)⟩
  · rw [had.parent, if_neg hcsib, hlift, if_pos rfl]
  · intro q hqc hq
    rw [had.parent, if_pos ((hmem q).mpr ⟨hqc, hq⟩)]
  · intro q hqc hq
    rw [had.parent, if_neg fun h => hq ((hmem q).mp h).2, hlift, if_neg hqc]
  · refine eq_nil_iff_forall_not_mem.mpr fun x hx => ?_
    obtain ⟨h1, h2⟩ := (had.left x).mp hx
    exact h2 (hsibs ▸ h1)
  · intro x
    rw [had.joined, hmem, hkids c hcp, if_neg hgc, and_comm]
  · intro g hg x
    have hgne : g ≠ p := fun h => hgp (h ▸ hg)
    rw [had.others g hgne fun h => hgc (h ▸ hg), hkids g hgne, if_pos hg, mem_setKey,
      (hl.nodup g).mem_erase_iff, and_comm]
  · intro q hqp hqc hqg
    rw [had.others q hqp hqc, hkids q hqp, if_neg hqg]

end Relink

/-! ## §3. The relinked tree is a forest without the old parent. -/

section RelinkedLinks

variable {m m' : Manager R Lib} {p c : Pid} {live : List Pid}
variable (h : Relinked m m' p c) (hl : Links m live)
include h hl

section

variable (hc : c ∈ (m.procs p).children)
include hc

/-- A line that avoids the old parent is as before. -/
theorem Relinked.line_of_avoid {q : Pid} {l : List Pid} (hline : Line m.parent q l)
    (havoid : p ∉ l) : Line m'.parent q l := by
  refine hline.congr fun a ha => ?_
  -- a child of `p` on the line would bring `p` onto it
  have hnochild : a ∉ (m.procs p).children := by
    intro hmem
    have hpar := ((hl.children p a).mp hmem).2
    obtain ⟨l', hl', -, hsub⟩ := hline.of_mem ha
    obtain ⟨t, rfl, ht⟩ := hl'.tail hpar
    exact havoid (hsub p (mem_cons_of_mem _ ht.self_mem))
  exact h.parentOther a (fun he => hnochild (he ▸ hc)) hnochild

/-- The promoted child has a line: the one of the old grandparent. -/
theorem Relinked.line_child : ∃ l, Line m'.parent c l := by
  cases hg : m.parent p with
  | none => exact ⟨[c], .top (h.parentChild.trans hg)⟩
  | some g =>
    obtain ⟨l, hline⟩ := hl.lines g
    have havoid := hline.not_mem_of_parent hg
    exact ⟨c :: l, .step (h.parentChild.trans hg) (h.line_of_avoid hl hc hline havoid)⟩

/-- **Every process still has a line.** -/
theorem Relinked.lines (q : Pid) : ∃ l, Line m'.parent q l := by
  obtain ⟨l, hline⟩ := hl.lines q
  induction hline with
  | @top q hq =>
    by_cases hqc : q = c
    · rw [hqc]
      exact h.line_child hl hc
    · have hno : q ∉ (m.procs p).children := by
        intro hmem
        have hpar := ((hl.children p q).mp hmem).2
        rw [hq] at hpar
        cases hpar
      exact ⟨[q], .top ((h.parentOther q hqc hno).trans hq)⟩
  | @step q y l hq _ ih =>
    by_cases hqc : q = c
    · rw [hqc]
      exact h.line_child hl hc
    · by_cases hmem : q ∈ (m.procs p).children
      · -- a sibling hangs below the promoted child now
        obtain ⟨l', hl'⟩ := h.line_child hl hc
        exact ⟨q :: l', .step (h.parentSibling q hqc hmem) hl'⟩
      · obtain ⟨l', hl'⟩ := ih
        exact ⟨q :: l', .step ((h.parentOther q hqc hmem).trans hq) hl'⟩

end

/-- **The links of the other processes.** -/
theorem Relinked.links (hnd : live.Nodup) (hc : c ∈ (m.procs p).children) :
    Links m' (live.erase p) := by
  obtain ⟨hcp, hgc⟩ := hl.child_ne hc
  have hclive := ((hl.children p c).mp hc).1
  refine ⟨h.lines hl hc, fun q x => ?_, h.nodup⟩
  rw [hnd.mem_erase_iff]
  have hself := hl.parent_ne_self
  have hkids := hl.children
  have hchild := h.parentChild
  have hsib := h.parentSibling x
  have hother := h.parentOther x
  -- who lists `x` now: by the place of `q`, against the place of `x`
  by_cases hqp : q = p
  · rw [hqp, h.childrenOld]
    grind
  by_cases hqc : q = c
  · rw [hqc, h.childrenChild]
    grind
  by_cases hqg : m.parent p = some q
  · rw [h.childrenGrand q hqg]
    grind
  · rw [h.childrenOther q hqp hqc hqg]
    grind

/-- Whatever is reached from the promoted child was properly below the old parent. -/
theorem Relinked.reach_below (hc : c ∈ (m.procs p).children) {q : Pid} (hr : Reach m' c q) :
    Below m.parent p q ∧ q ≠ p := by
  have hkid : ∀ x ∈ (m.procs p).children, Below m.parent p x ∧ x ≠ p := by
    intro x hx
    exact ⟨(Below.self (hl.lines p)).child ((hl.children p x).mp hx).2, (hl.child_ne hx).1⟩
  have hstep : ∀ {a x : Pid}, Below m.parent p a ∧ a ≠ p → x ∈ (m.procs a).children →
      Below m.parent p x ∧ x ≠ p := by
    intro a x ha hx
    have hpar := ((hl.children a x).mp hx).2
    refine ⟨ha.1.child hpar, ?_⟩
    rintro rfl
    exact not_below_of_parent hpar ha.1
  induction hr with
  | refl => exact hkid c hc
  | @tail a x _ hx ih =>
    by_cases hac : a = c
    · subst hac
      rcases (h.childrenChild x).mp hx with hx | ⟨hx, -⟩
      · exact hstep ih hx
      · exact hkid x hx
    · by_cases hag : m.parent p = some a
      · exact absurd ih.1 (not_below_of_parent hag)
      · rw [h.childrenOther a ih.2 hac hag] at hx
        exact hstep ih hx

end RelinkedLinks

/-! ## §4. `_promote_child`. -/

/-- Terminating a process without children. -/
theorem terminateTree_leaf {m : Manager R Lib} {p : Pid} (hleaf : (m.procs p).children = []) :
    Returns (fun fuel => terminateTree fuel m p)
      (if (m.procs p).state = .terminated then m else detach m p) := by
  refine Returns.stop fun fuel => ?_
  rw [terminateTree, hleaf]
  split
  · rfl
  · rfl

section Promote

variable [LinearOrder R] [DecidableEq Lib]

/-- `c` is in the place of its old parent `p`, and everybody but `p` is settled. -/
structure Promoting (m m' : Manager R Lib) (p c : Pid) : Prop extends Relinked m m' p c where
  pidCounter : m'.pidCounter = m.pidCounter
  requested : m'.requested = m.requested
  canKillParent : ∀ q, q ≠ c → (m'.procs q).canKillParent = (m.procs q).canKillParent
  effective : ∀ q, ¬ (Below m.parent p q ∧ q ≠ p) → m'.effective q = m.effective q
  settled : ∀ q ∈ m.processes.erase p, Settled m' q

/-- And the old parent is terminated. -/
structure Promoted (m m' : Manager R Lib) (p c : Pid) : Prop extends Promoting m m' p c where
  processes : m'.processes = m.processes.erase p
  gone : (m'.procs p).state = .terminated
  state : ∀ q, q ≠ p → (m'.procs q).state = (m.procs q).state

variable {m m' : Manager R Lib} {p c : Pid}

/-- **Promotion keeps the forest.** -/
theorem Promoted.forest (h : Promoted m m' p c) (hf : Forest m)
    (hc : c ∈ (m.procs p).children) : Forest m' := by
  have hlinks := h.links hf.toLinks hf.registry hc
  rw [← h.processes] at hlinks
  have hcne := hf.lt_counter ((hf.children p c).mp hc).1
  refine ⟨hlinks, ?_, fun q => ?_, fun q hq => ?_, fun q y hy => ?_, fun q => ?_, fun q hq => ?_⟩
  · rw [h.processes]
    exact hf.registry.erase p
  · rw [h.processes, hf.registry.mem_erase_iff]
    by_cases hq : q = p
    · subst hq
      rw [h.gone]
      simp
    · rw [h.state q hq, hf.alive]
      simp [hq]
  · rw [h.pidCounter] at hq
    obtain ⟨h1, h2⟩ := hf.fresh q hq
    have hqc : q ≠ c := fun he => absurd (he ▸ hcne) (not_lt.mpr hq)
    have hno : q ∉ (m.procs p).children := by
      intro hmem
      exact absurd (hf.lt_counter ((hf.children p q).mp hmem).1) (not_lt.mpr hq)
    refine ⟨(h.parentOther q hqc hno).trans h1, ?_⟩
    by_cases hqp : q = p
    · rw [hqp]
      exact h.gone
    · exact (h.state q hqp).trans h2
  · rw [h.pidCounter]
    by_cases hqc : q = c
    · rw [hqc, h.parentChild] at hy
      exact hf.older p y hy
    · by_cases hmem : q ∈ (m.procs p).children
      · rw [h.parentSibling q hqc hmem] at hy
        cases hy
        exact hcne
      · rw [h.parentOther q hqc hmem] at hy
        exact hf.older q y hy
  · rw [h.requested]
    exact hf.rings q
  · rw [h.processes] at hq
    exact h.settled q hq

section

variable {m₁ m₂ m₃ : Manager R Lib} (hr : Moved m m₁ p c) (hf : Forest m)
variable (hc : c ∈ (m.procs p).children) (h₂ : Refreshed m₁ m₂ (Reach m₁ c))
variable (h₃ : Refreshed m₂ m₃ fun q => ∃ a ∈ (m₂.procs c).children, Reach m₂ a q)
include hr hf hc h₂ h₃

/-- After the two refreshes everybody but the old parent is settled. -/
theorem Moved.settled : ∀ q ∈ m.processes.erase p, Settled m₃ q := by
  have hl₁ := hr.links hf.toLinks hf.registry hc
  have heff : ∀ y, m₁.effective y = m.effective y := fun y =>
    (hr.object y).field Process.effective fun _ _ _ => rfl
  intro q hq
  have hq₂ : Settled m₂ q := by
    by_cases hreach : Reach m₁ c q
    · exact h₂.settled q hreach
    · -- not below the promoted child: its links and permissions are the old ones
      have hqc : q ≠ c := fun he => hreach (he ▸ .refl m₁ c)
      have hno : q ∉ (m.procs p).children := fun hmem =>
        hreach (Reach.child (.refl m₁ c) ((hr.childrenChild q).mpr (.inr ⟨hmem, hqc⟩)))
      refine h₂.keeps hl₁ (fun _ _ => Reach.child) hq ?_
      exact (hf.settled q (mem_of_mem_erase hq)).frame (hr.parentOther q hqc hno)
        ((hr.object q).field Process.requested fun _ _ _ => rfl) (heff q) fun y _ => heff y
  refine h₃.keeps (h₂.shape.tree.links hl₁) ?_ hq hq₂
  rintro a b ⟨e, he, hea⟩ hb
  exact ⟨e, he, hea.child hb⟩

/-- Nobody outside the old parent's subtree is touched by the refreshes. -/
theorem Moved.effective {q : Pid} (hq : ¬ (Below m.parent p q ∧ q ≠ p)) :
    m₃.effective q = m.effective q := by
  have hn₁ : ¬ Reach m₁ c q := fun h => hq (hr.reach_below hf.toLinks hc h)
  have hn₂ : ¬ ∃ a ∈ (m₂.procs c).children, Reach m₂ a q := by
    rintro ⟨a, ha, hra⟩
    exact hn₁ (h₂.shape.tree.reach.mp (reach_iff.mpr (.inr ⟨a, ha, hra⟩)))
  show (m₃.procs q).effective = (m.procs q).effective
  rw [h₃.frame q hn₂, h₂.frame q hn₁]
  exact (hr.object q).field Process.effective fun _ _ _ => rfl

theorem Moved.promoting :
    Promoting m (m₃.modify c fun q => { q with canKillParent := false }) p c := by
  have hshape := h₂.shape.trans h₃.shape
  have hquiet : Quiet m₃ (m₃.modify c fun q => { q with canKillParent := false }) :=
    .modify m₃ c rfl rfl rfl rfl .rfl
  have htree := hshape.tree.trans hquiet.toSameTree
  refine ⟨hr.of_same htree.root htree.parent htree.children,
    hshape.pidCounter.trans hr.pidCounter, hquiet.requested.trans (funext fun q => ?_),
    fun q hq => ?_, fun q hq => ?_, fun q hq => hquiet.settled (hr.settled hf hc h₂ h₃ q hq)⟩
  · exact (hshape.field Process.requested (fun _ _ _ => rfl) q).trans
      ((hr.object q).field Process.requested fun _ _ _ => rfl)
  · simp only [Manager.modify, update_of_ne hq]
    exact (hshape.field Process.canKillParent (fun _ _ _ => rfl) q).trans
      ((hr.object q).field Process.canKillParent fun _ _ _ => rfl)
  · rw [hquiet.effective]
    exact hr.effective hf hc h₂ h₃ hq

end

/-- Terminating the old parent only takes it off the registry. -/
theorem Promoting.finish (h : Promoting m m' p c) (hf : Forest m) (hc : c ∈ (m.procs p).children)
    (hproc : m'.processes = m.processes) (hstate : ∀ q, (m'.procs q).state = (m.procs q).state) :
    Promoted m (if (m'.procs p).state = .terminated then m' else detach m' p) p c := by
  obtain ⟨hcp, hgc⟩ := hf.toLinks.child_ne hc
  by_cases hdead : (m'.procs p).state = .terminated
  · rw [if_pos hdead]
    have hpm : p ∉ m.processes := by
      rw [hf.alive, ← hstate p]
      exact not_not.mpr hdead
    exact ⟨h, by rw [hproc, erase_of_not_mem hpm], hdead, fun q _ => hstate q⟩
  · rw [if_neg hdead]
    have hpno : p ∉ (m.procs p).children := fun hmem =>
      hf.toLinks.parent_ne_self p ((hf.children p p).mp hmem).2
    have hparent : m'.parent p = m.parent p := h.parentOther p (Ne.symm hcp) hpno
    have hself := detach_self (m := m') (p := p) (hparent ▸ hf.toLinks.parent_ne_self p)
    obtain ⟨hproc', hcount, hroot⟩ := detach_statics m' p
    -- the grandparent does not list it any more
    have hother : ∀ q, q ≠ p → (detach m' p).procs q = m'.procs q := by
      intro q hq
      rw [detach_of_ne hq]
      by_cases hg : m'.parent p = some q
      · have hno : p ∉ (m'.procs q).children := by
          rw [h.childrenGrand q (hparent ▸ hg)]
          rintro (⟨-, hne⟩ | he)
          · exact hne rfl
          · exact hcp he.symm
        rw [if_pos hg, erase_of_not_mem hno]
      · rw [if_neg hg]
    have hfield : ∀ {α : Type} (f : Process R Lib → α), f (m'.procs p).gone = f (m'.procs p) →
        ∀ q, f ((detach m' p).procs q) = f (m'.procs q) := by
      intro α f hfp q
      by_cases hq : q = p
      · rw [hq, hself]
        exact hfp
      · rw [hother q hq]
    have hparents : (detach m' p).parent = m'.parent := funext (hfield Process.parent rfl)
    have hreq : (detach m' p).requested = m'.requested := funext (hfield Process.requested rfl)
    have heff : (detach m' p).effective = m'.effective := funext (hfield Process.effective rfl)
    have hlinked : Relinked m (detach m' p) p c := by
      refine h.of_same ?_ hparents (hfield Process.children h.childrenOld.symm)
      rw [hroot, if_neg]
      rintro ⟨hnone, he⟩
      rw [h.root, if_pos (hparent ▸ hnone)] at he
      exact hcp (Option.some.inj he)
    refine ⟨⟨hlinked, hcount.trans h.pidCounter, hreq.trans h.requested, fun q hq => ?_,
      fun q hq => ?_, fun q hq => ?_⟩, ?_, ?_, fun q hq => ?_⟩
    · rw [hfield Process.canKillParent rfl, h.canKillParent q hq]
    · rw [heff]
      exact h.effective q hq
    · unfold Settled
      rw [hparents, hreq, heff]
      exact h.settled q hq
    · rw [hproc', hproc]
    · rw [hself]
      rfl
    · rw [hother q hq, hstate]

variable [Add R]

/-- **`_promote_child`** of a child returns, and promotes it. -/
theorem promoteChild_spec (hf : Forest m) (hc : c ∈ (m.procs p).children) :
    ∃ m', Returns (fun fuel => promoteChild fuel m p c) (.ok (), m') ∧ Promoted m m' p c := by
  have hr := relink_spec hf.toLinks hc
  have hl₁ := hr.links hf.toLinks hf.registry hc
  obtain ⟨m₂, hret₂, h₂⟩ := refresh_returns hl₁ c
  have hl₂ := h₂.shape.tree.links hl₁
  obtain ⟨m₃, hret₃, h₃⟩ := refreshAll_returns (m₂.procs c).children hl₂
    fun a ha => ((hl₂.children c a).mp ha).1
  have hpro := hr.promoting hf hc h₂ h₃
  have hshape := h₂.shape.trans h₃.shape
  refine ⟨_, ?_, hpro.finish hf hc (hshape.tree.processes.trans hr.processes) fun q => ?_⟩
  · simp only [promoteChild, if_neg (not_not.mpr hc)]
    exact hret₂.andThen (hret₃.andThen
      ((terminateTree_leaf hpro.childrenOld).andThen (Returns.pure _)))
  · rw [modify_field m₃ Process.state rfl, hshape.field Process.state fun _ _ _ => rfl]
    exact (hr.object q).field Process.state fun _ _ _ => rfl

end Promote

end ExoCore.ProcTree
