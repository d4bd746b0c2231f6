/-
  ExoCore.ProcTree.Subtree — TERMINATION KILLS EXACTLY THE SUBTREE.

  `_terminate` walks the children over a copy of the list while each of them takes itself out
  of it.  `terminateTree_spec` says what the walk takes out (`Pruned`); here this is read as
  a client sees it: what the killed processes look like, and that every other process is
  the same, except that the parent has one child less.

    • `Pruned.killed` — the two halves, from one walk;
    • `termination_exact` — a permitted `terminate`, a `check_runtime` that times out, and a
      `terminate` without control.
-/
import ExoCore.ProcTree.Escalation

namespace ExoCore.ProcTree

open ExoCore.Lib

/-- **`p` and its descendants are killed, nobody else is touched.** -/
structure Killed {R Lib : Type} (m m' : Manager R Lib) (p : Pid) : Prop where
  dead : ∀ q, Reach m p q → (m'.procs q).state = .terminated ∧ q ∉ m'.processes ∧
    (m'.procs q).children = [] ∧ (m'.procs q).deadline = none
  orphaned : ∀ y, m.parent p = some y → p ∉ (m'.procs y).children
  rootless : m.root = some p → m'.root = none
  others : ∀ q, ¬ Reach m p q → (m'.procs q).state = (m.procs q).state ∧
    m'.parent q = m.parent q ∧ (m'.procs q).children = (m.procs q).children.erase p ∧
    m'.effective q = m.effective q ∧ (q ∈ m'.processes ↔ q ∈ m.processes)

section Killed

variable {R Lib : Type} [LinearOrder R] [DecidableEq Lib] {m m' : Manager R Lib} {p q : Pid}

/-- A process that is not in the subtree has no child in it but `p`. -/
theorem Forest.child_outside (hf : Forest m) (hq : ¬ Reach m p q) {c : Pid}
    (hc : c ∈ (m.procs q).children) : Reach m p c ↔ c = p := by
  constructor
  · intro h
    cases h with
    | refl => rfl
    | @tail b _ hpb hb =>
      have hpar := ((hf.children b c).mp hb).2
      rw [((hf.children q c).mp hc).2] at hpar
      cases hpar
      exact absurd hpb hq
  · rintro rfl
    exact .refl m c

theorem Pruned.killed (h : Pruned m m' (Doomed m p)) (hf : Forest m) (hr : Rooted m)
    (hp : p ∈ m.processes) : Killed m m' p where
  dead q hq := by
    rw [h.gone q ⟨hp, hq⟩]
    exact ⟨rfl, fun hmem => ((h.processes q).mp hmem).2 ⟨hp, hq⟩, rfl, rfl⟩
  orphaned y hy hmem := by
    have hkids := h.mem_children y fun hD => hf.not_reach_parent hy hD.2
    exact ((hkids p).mp hmem).2 ⟨hp, .refl m p⟩
  rootless hroot := h.rootGone p hroot ⟨hp, .refl m p⟩ ((hr.root p).mp hroot).2
  others q hq := by
    have hkept : ¬ Doomed m p q := fun hD => hq hD.2
    have hkids := h.mem_children q hkept
    refine ⟨h.state hkept, congrFun h.parent q, ?_, congrFun h.effective q, ?_⟩
    · -- a sublist without `p` of a list that is kept, `p` apart
      have hgone : p ∉ (m'.procs q).children := fun hmem => ((hkids p).mp hmem).2 ⟨hp, .refl m p⟩
      have hsub : (m'.procs q).children.Sublist ((m.procs q).children.erase p) := by
        have hsub := (h.children q).erase p
        rwa [List.erase_of_not_mem hgone] at hsub
      have hkeep : (m.procs q).children.erase p ⊆ (m'.procs q).children := by
        intro c hc
        obtain ⟨hcp, hc⟩ := (hf.nodup q).mem_erase_iff.mp hc
        exact (hkids c).mpr ⟨hc, fun hD => hcp ((hf.child_outside hq hc).mp hD.2)⟩
      exact hsub.eq_of_length_le (((hf.nodup q).erase p).subperm hkeep).length_le
    · rw [h.processes]
      exact and_iff_left fun hD => hq hD.2

end Killed

/-! ## The calls. -/

section Calls

variable {R Lib : Type} [LinearOrder R] [DecidableEq Lib] {m : Manager R Lib} {p : Pid}

/-- **Termination is exact**, on every well-formed tree and for every registered process:
`terminate` under control, and `check_runtime` of a running process past its deadline, return
and kill exactly the subtree; `terminate` without control raises and changes nothing. -/
theorem termination_exact (hf : Forest m) (hr : Rooted m) (hp : p ∈ m.processes) :
    (∀ caller : Option Pid, Below m.parent (caller.getD p) p →
      ∃ m', Returns (fun fuel => terminate fuel m p caller) (.ok (), m') ∧ Killed m m' p) ∧
    (∀ deadline now, (m.procs p).state = .running → (m.procs p).deadline = some deadline →
      deadline < now → ∃ m',
        Returns (fun fuel => checkRuntime fuel m p now)
          (.error (.timeout s!"Process {p} exceeded runtime"), m') ∧ Killed m m' p) ∧
    ∀ caller : Option Pid, ¬ Below m.parent (caller.getD p) p →
      Returns (fun fuel => terminate fuel m p caller)
        (.error (.permissionError "Controller does not own target"), m) := by
  obtain ⟨m', hret, hpruned⟩ := terminate_returns hf p
  have hkilled := hpruned.killed hf hr hp
  refine ⟨fun caller hctl => ?_, fun deadline now hrun hdeadline hlate => ?_, fun caller hctl => ?_⟩
  · obtain ⟨-, hok⟩ | ⟨hno, -⟩ := assertControl_spec hf.lines (caller.getD p) p
    · exact ⟨m', hok.andThen (hret.andThen (Returns.pure _)), hkilled⟩
    · exact absurd hctl hno
  · obtain ⟨m', hret, h⟩ := checkRuntime_late hf hrun hdeadline hlate
    exact ⟨m', hret, h.killed hf hr hp⟩
  · obtain ⟨hyes, -⟩ | ⟨-, hbad⟩ := assertControl_spec hf.lines (caller.getD p) p
    · exact absurd hyes hctl
    · exact hbad.andThen (Returns.pure _)

end Calls

/-- The child of `jailed` is terminated by its parent. -/
theorem termination_exact_jailed :
    ∃ m', Returns (fun fuel => terminate fuel jailed 2 (some 1)) (.ok (), m') ∧
      Killed jailed m' 2 := by
  obtain ⟨hf, hr⟩ := registered_run jailed_registered
  exact (termination_exact hf hr (by decide)).1 (some 1) ⟨_, jailed_line, by simp⟩

end ExoCore.ProcTree
