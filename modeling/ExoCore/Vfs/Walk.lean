/-
  ExoCore.Vfs.Walk — the path walkers as folds over the components.

  `components path` are the maximal runs of characters other than `/`.  Both
  walkers go through them from left to right:

    * `resolvePath_eq` — `resolve_path` is the fold of `enter`;
    * `resolveParent_spec` — when `resolve_parent` succeeds, its directory is the
      fold over all components but the last and its leaf is the last one (`.`
      apart), and the two walkers AGREE: `resolve_path` finds what `find_child`
      finds for that directory and leaf.
-/
import ExoCore.Vfs.State

namespace ExoCore.Vfs

open List

/-! ## §1. Components. -/

/-- The components of `p`, with `cur` the part of the current one already read. -/
def componentsFrom (cur : Str) : Str → List Str
  | [] => if cur = [] then [] else [cur]
  | c :: p =>
    if c = slash then (if cur = [] then [] else [cur]) ++ componentsFrom [] p
    else componentsFrom (cur ++ [c]) p

/-- The maximal runs of characters other than `/`. -/
def components (p : Str) : List Str := componentsFrom [] p

theorem componentsFrom_eq (p cur : Str) : componentsFrom cur p =
    (if cur ++ p.takeWhile (· != slash) = [] then [] else [cur ++ p.takeWhile (· != slash)]) ++
      components (p.dropWhile (· != slash)) := by
  induction p generalizing cur with
  | nil => simp [componentsFrom, components]
  | cons c p ih =>
    by_cases hc : c = slash
    · subst hc
      simp [componentsFrom, components]
    · have hne : (c != slash) = true := by simpa using hc
      rw [componentsFrom, if_neg hc, ih, takeWhile_cons, dropWhile_cons]
      simp [hne]

theorem components_dropWhile (p : Str) : components (p.dropWhile (· == slash)) = components p := by
  induction p with
  | nil => rfl
  | cons c p ih =>
    by_cases hc : c = slash
    · subst hc
      rw [dropWhile_cons]
      simp only [beq_self_eq_true, if_true, ih]
      simp [components, componentsFrom]
    · simp [hc]

/-- `next_segment` splits the first component off. -/
theorem components_nextSegment (p : Str) : components p =
    (if (nextSegment p).1 = [] then [] else [(nextSegment p).1]) ++
      components (nextSegment p).2 := by
  rw [← components_dropWhile p]
  have h := componentsFrom_eq (p.dropWhile (· == slash)) []
  rw [nil_append] at h
  exact h

theorem components_nil : components [] = [] := rfl

/-- While something is left, `next_segment` has moved on. -/
theorem nextSegment_length (p : Str) (h : (nextSegment p).2 ≠ []) :
    (nextSegment p).2.length < p.length := by
  unfold nextSegment at *
  dsimp only at *
  have h1 : (p.dropWhile (· == slash)).length ≤ p.length := (dropWhile_suffix _).length_le
  cases hq : p.dropWhile (· == slash) with
  | nil => simp [hq] at h
  | cons c q =>
    -- the first character left is not a slash, so the component is not empty
    have hc : (c == slash) = false := by
      have := head?_dropWhile_not (· == slash) p
      rw [hq] at this
      exact this
    have hc' : (c != slash) = true := by simp [bne, hc]
    rw [hq, length_cons] at h1
    rw [dropWhile_cons, if_pos hc']
    have h2 : (q.dropWhile (· != slash)).length ≤ q.length := (dropWhile_suffix _).length_le
    omega

/-- A component is not empty and has no slash. -/
theorem mem_componentsFrom (p : Str) {c : Str} : ∀ cur, slash ∉ cur → c ∈ componentsFrom cur p →
    c ≠ [] ∧ slash ∉ c := by
  induction p with
  | nil =>
    intro cur hcur hc
    unfold componentsFrom at hc
    split at hc
    · cases hc
    · rename_i hne
      rw [mem_singleton.mp hc]
      exact ⟨hne, hcur⟩
  | cons a p ih =>
    intro cur hcur hc
    unfold componentsFrom at hc
    split at hc
    · rcases mem_append.mp hc with hc | hc
      · split at hc
        · cases hc
        · rename_i hne
          rw [mem_singleton.mp hc]
          exact ⟨hne, hcur⟩
      · exact ih [] not_mem_nil hc
    · rename_i ha
      refine ih (cur ++ [a]) ?_ hc
      simpa [hcur] using Ne.symm ha

/-- The components that a walk does not skip. -/
def plain (path : Str) : List Str := (components path).filter (· ≠ dot)

variable {c path : Str} {s : VfsState} {node : NodeId}

theorem mem_plain (h : c ∈ plain path) : c ≠ [] ∧ c ≠ dot ∧ slash ∉ c := by
  obtain ⟨hc, hd⟩ := mem_filter.mp h
  obtain ⟨h0, hs⟩ := mem_componentsFrom path [] not_mem_nil hc
  exact ⟨h0, by simpa using hd, hs⟩

/-! ## §2. `resolve_path`. -/

/-- Entering one component after the other. -/
def walk (s : VfsState) (node : NodeId) (cs : List Str) : Option NodeId := cs.foldlM (enter s) node

section

variable (s : VfsState)
variable (node : NodeId)

theorem walk_cons (c : Str) (cs : List Str) :
    walk s node (c :: cs) = (enter s node c).bind fun n => walk s n cs := by
  unfold walk
  rw [foldlM_cons]
  rfl

theorem walk_append (cs cs' : List Str) :
    walk s node (cs ++ cs') = (walk s node cs).bind fun n => walk s n cs' := by
  unfold walk
  rw [foldlM_append]
  rfl

theorem walk_singleton (c : Str) : walk s node [c] = enter s node c := by
  rw [walk_cons]
  cases enter s node c <;> rfl

theorem enter_nil : enter s node [] = some node := if_pos rfl

theorem enter_dot : enter s node dot = some node := by
  rw [enter, if_neg (by decide), if_pos rfl]

end

theorem enter_name (h0 : c ≠ []) (h1 : c ≠ dot)
    (h2 : c ≠ dotdot) : enter s node c = findChild s node c := by
  rw [enter, if_neg h0, if_neg h1, if_neg h2]

/-- The loop walks the components: one turn enters one of them, or nothing when
the path goes on with slashes only. -/
theorem resolveLoop_eq (s : VfsState) : ∀ (fuel : ℕ) (p : Str) (node : NodeId),
    p.length ≤ fuel → resolveLoop s fuel p node = walk s node (components p) := by
  intro fuel
  induction fuel with
  | zero =>
    intro p node hp
    obtain rfl : p = [] := length_eq_zero_iff.mp (by omega)
    rfl
  | succ fuel ih =>
    intro p node hp
    have hcomp := components_nextSegment p
    have hlen := nextSegment_length p
    rw [resolveLoop]
    generalize nextSegment p = sr at hcomp hlen ⊢
    obtain ⟨seg, rest⟩ := sr
    dsimp only at hcomp hlen ⊢
    have henter : ∀ cs, walk s node ((if seg = [] then [] else [seg]) ++ cs) =
        (enter s node seg).bind fun n => walk s n cs := by
      intro cs
      by_cases hseg : seg = []
      · rw [if_pos hseg, hseg, enter_nil]
        rfl
      · rw [if_neg hseg, singleton_append, walk_cons]
    rw [hcomp, henter]
    cases enter s node seg with
    | none => rfl
    | some n =>
      show (if rest = [] then some n else resolveLoop s fuel rest n) = walk s n (components rest)
      by_cases hrest : rest = []
      · rw [if_pos hrest, hrest]
        rfl
      · rw [if_neg hrest]
        have := hlen hrest
        exact ih rest n (by omega)

/-- Skipped components do not matter. -/
theorem walk_filter {skip : Str} (hskip : ∀ n, enter s n skip = some n) (node : NodeId)
    (cs : List Str) : walk s node (cs.filter (· ≠ skip)) = walk s node cs := by
  induction cs generalizing node with
  | nil => rfl
  | cons c cs ih =>
    by_cases hc : c = skip
    · rw [filter_cons_of_neg (by simp [hc]), ih, walk_cons, hc, hskip]
      rfl
    · rw [filter_cons_of_pos (by simp [hc]), walk_cons, walk_cons]
      simp only [ih]

/-- **`resolve_path` is a fold** over the components that count. -/
theorem resolvePath_eq (hready : s.ready = true) (hpath : path ≠ []) :
    resolvePath s path = walk s (startNode s path) (plain path) := by
  rw [plain, walk_filter (enter_dot s), resolvePath, if_neg (by simp [hready, hpath])]
  exact resolveLoop_eq s _ _ _ (le_refl _)

/-! ## §3. `resolve_parent`. -/

/-- Entering directories one after the other. -/
def walkDirs (s : VfsState) (node : NodeId) (cs : List Str) : Option NodeId :=
  cs.foldlM (fun n c => enterLast s n (some c)) node

theorem walkDirs_cons (s : VfsState) (node : NodeId) (c : Str) (cs : List Str) :
    walkDirs s node (c :: cs) = (enterLast s node (some c)).bind fun n => walkDirs s n cs := by
  unfold walkDirs
  rw [foldlM_cons]
  rfl

theorem walkDirs_toList (s : VfsState) (node : NodeId) (last : Option Str) (cs : List Str) :
    walkDirs s node (last.toList ++ cs) = (enterLast s node last).bind fun n => walkDirs s n cs := by
  cases last with
  | none => rfl
  | some c => exact walkDirs_cons s node c cs

theorem enterLast_some {m : NodeId}
    (h : enterLast s node (some c) = some m) :
    (c = dotdot ∧ upFrom s node = m) ∨
      (c ≠ dotdot ∧ findChild s node c = some m ∧ (s.nodes m).type = .dir) := by
  rw [enterLast] at h
  by_cases hc : c = dotdot
  · rw [if_pos hc] at h
    exact .inl ⟨hc, Option.some.inj h⟩
  · rw [if_neg hc] at h
    cases hf : findChild s node c with
    | none => simp [hf] at h
    | some n =>
      simp only [hf] at h
      by_cases hd : (s.nodes n).type = .dir
      · rw [if_pos hd] at h
        obtain rfl := Option.some.inj h
        exact .inr ⟨hc, rfl, hd⟩
      · rw [if_neg hd] at h
        cases h

/-- A directory entered by one walker is entered by the other. -/
theorem walk_of_walkDirs {cs : List Str} (hcs : ∀ c ∈ cs, c ≠ [] ∧ c ≠ dot)
    {n : NodeId} (h : walkDirs s node cs = some n) : walk s node cs = some n := by
  induction cs generalizing node with
  | nil => exact h
  | cons c cs ih =>
    rw [walkDirs_cons] at h
    rw [walk_cons]
    obtain ⟨m, hm, h⟩ := Option.bind_eq_some_iff.mp h
    have henter : enter s node c = some m := by
      obtain ⟨h0, h1⟩ := hcs c (by simp)
      rcases enterLast_some hm with ⟨hc, hup⟩ | ⟨hc, hf, -⟩
      · rw [enter, if_neg h0, if_neg h1, if_pos hc, hup]
      · rw [enter_name h0 h1 hc, hf]
    rw [henter]
    exact ih (fun c hc => hcs c (by simp [hc])) h

/-- The loop has entered everything up to the component it holds as `last`. -/
theorem parentLoop_spec (s : VfsState) : ∀ (fuel : ℕ) (p : Str) (node : NodeId)
    (last : Option Str) {node' : NodeId} {leaf : Str}, p.length ≤ fuel → leaf ≠ dot →
    parentLoop s fuel p node last = some (node', some leaf) →
    ∃ init, last.toList ++ plain p = init ++ [leaf] ∧ walkDirs s node init = some node' := by
  intro fuel
  induction fuel with
  | zero =>
    intro p node last node' leaf hp _ h
    obtain rfl : p = [] := length_eq_zero_iff.mp (by omega)
    simp only [parentLoop, Option.some.injEq, Prod.mk.injEq] at h
    obtain ⟨rfl, rfl⟩ := h
    exact ⟨[], rfl, rfl⟩
  | succ fuel ih =>
    intro p node last node' leaf hp hleaf h
    have hcomp := components_nextSegment p
    have hlen := nextSegment_length p
    rw [parentLoop] at h
    unfold plain
    rw [hcomp]
    generalize nextSegment p = sr at hcomp hlen h ⊢
    obtain ⟨seg, rest⟩ := sr
    dsimp only at hcomp hlen h ⊢
    by_cases hrest : rest = []
    · rw [if_pos hrest] at h
      subst hrest
      by_cases hseg : seg = []
      · rw [if_pos hseg] at h
        simp only [Option.some.injEq, Prod.mk.injEq] at h
        obtain ⟨rfl, rfl⟩ := h
        rw [if_pos hseg]
        exact ⟨[], rfl, rfl⟩
      · -- the last component of the path becomes the leaf
        rw [if_neg hseg] at h
        obtain ⟨n, hn, heq⟩ := Option.map_eq_some_iff.mp h
        simp only [Prod.mk.injEq, Option.some.injEq] at heq
        obtain ⟨rfl, rfl⟩ := heq
        refine ⟨last.toList, ?_, ?_⟩
        · rw [if_neg hseg, components_nil, append_nil,
            filter_cons_of_pos (by simp [hleaf]), filter_nil]
        · rw [← append_nil last.toList, walkDirs_toList, hn]
          rfl
    · rw [if_neg hrest] at h
      have hfuel : rest.length ≤ fuel := by
        have := hlen hrest
        omega
      by_cases hskip : seg = [] ∨ seg = dot
      · rw [if_pos hskip] at h
        obtain ⟨init, hinit, hwalk⟩ := ih rest node last hfuel hleaf h
        refine ⟨init, ?_, hwalk⟩
        rw [← hinit, filter_append]
        rcases hskip with hs | hs <;> simp [hs, plain, dot]
      · rw [if_neg hskip] at h
        cases hn : enterLast s node last with
        | none => simp [hn] at h
        | some n =>
          simp only [hn] at h
          obtain ⟨init, hinit, hwalk⟩ := ih rest n (some seg) hfuel hleaf h
          refine ⟨last.toList ++ init, ?_, ?_⟩
          · rw [append_assoc, ← hinit, if_neg (fun hs => hskip (.inl hs)),
              singleton_append, filter_cons_of_pos (by simp; tauto)]
            rfl
          · rw [walkDirs_toList, hn]
            exact hwalk

/-- **What `resolve_parent` answers**: the leaf is the last component, the
directory is reached through the others, and `resolve_path` looks the leaf up in
that directory. -/
theorem resolveParent_spec {leaf : Str} {p : NodeId}
    (h : resolveParent s path = some (p, leaf)) :
    (leaf ≠ [] ∧ leaf ≠ dot ∧ leaf ≠ dotdot) ∧
      ∃ init, plain path = init ++ [leaf] ∧ walkDirs s (startNode s path) init = some p := by
  unfold resolveParent at h
  split at h
  · cases h
  split at h
  · rename_i node last hloop
    split at h
    · cases h
    · rename_i hlast
      simp only [Option.some.injEq, Prod.mk.injEq] at h
      obtain ⟨rfl, rfl⟩ := h
      simp only [not_or] at hlast
      obtain ⟨init, hinit, hwalk⟩ :=
        parentLoop_spec s _ _ _ none (le_refl _) hlast.2.1 hloop
      exact ⟨hlast, init, hinit, hwalk⟩
  · cases h

theorem resolveParent_path_ne {r : NodeId × Str}
    (h : resolveParent s path = some r) : path ≠ [] := by
  rintro rfl
  cases h

/-- **The two walkers agree.** -/
theorem resolvePath_of_parent {leaf : Str} {p : NodeId}
    (hready : s.ready = true) (h : resolveParent s path = some (p, leaf)) :
    resolvePath s path = findChild s p leaf := by
  obtain ⟨⟨h0, h1, h2⟩, init, hinit, hwalk⟩ := resolveParent_spec h
  have hcs : ∀ c ∈ init, c ≠ [] ∧ c ≠ dot := by
    intro c hc
    have := mem_plain (show c ∈ plain path by simp [hinit, hc])
    exact ⟨this.1, this.2.1⟩
  rw [resolvePath_eq hready (resolveParent_path_ne h), hinit, walk_append,
    walk_of_walkDirs hcs hwalk]
  show walk s p [leaf] = _
  rw [walk_singleton, enter_name h0 h1 h2]

end ExoCore.Vfs
