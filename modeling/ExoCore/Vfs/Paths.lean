/-
  ExoCore.Vfs.Paths — what a PATH means, and the path of a node.

    • `walkers_agree`   — `resolve_path` is the fold of one step over the pieces between the
      slashes, and `resolve_parent` stops one piece before it;
    • `Orderly`         — the tree of a run without cut names and without cycles;
    • `PathTo`          — the names on the way from the root to a node;
    • `getcwd_inverts`  — `vfs_getcwd` spells these names, and `resolve_path` reads them back.
-/
import ExoCore.Vfs.Names
import ExoCore.Vfs.Structure

namespace ExoCore.Vfs

open ExoCore.Lib List

/-! ## §1. The pieces of a path. -/

/-- The components are the pieces between the slashes, without the empty ones. -/
theorem componentsFrom_splitOn (p cur : Str) : componentsFrom cur p =
    ((p.splitOn slash).modifyHead (cur ++ ·)).filter (· ≠ []) := by
  induction p generalizing cur with
  | nil =>
    rw [splitOn_nil, modifyHead_cons, append_nil, componentsFrom]
    by_cases hcur : cur = []
    · rw [if_pos hcur, hcur]
      rfl
    · rw [if_neg hcur, filter_cons_of_pos (by simpa using hcur)]
      rfl
  | cons c p ih =>
    unfold List.splitOn at ih ⊢
    rw [componentsFrom, splitOnP_cons_eq_if_modifyHead]
    by_cases hc : c = slash
    · have hid : (fun l : Str => [] ++ l) = id := rfl
      rw [if_pos hc, if_pos (beq_iff_eq.mpr hc), modifyHead_cons, append_nil, ih, hid,
        modifyHead_id]
      by_cases hcur : cur = []
      · rw [if_pos hcur, hcur]
        rfl
      · rw [if_neg hcur, filter_cons_of_pos (by simpa using hcur)]
        rfl
    · rw [if_neg hc, if_neg (fun h => hc (beq_iff_eq.mp h)), modifyHead_modifyHead, ih]
      congr 2
      funext l
      rw [append_assoc]
      rfl

theorem components_splitOn (p : Str) : components p = (p.splitOn slash).filter (· ≠ []) := by
  rw [components, componentsFrom_splitOn]
  exact congrArg (List.filter _) (congrFun modifyHead_id _)

/-! ## §2. The two walkers. -/

/-- One piece: the empty one and `.` stay, `..` goes up, any other name goes to the child. -/
def pathStep (s : VfsState) (node : NodeId) (piece : Str) : Option NodeId :=
  if piece = [] ∨ piece = dot then some node
  else if piece = dotdot then some (if node = 0 then 0 else (s.entry node).parent)
  else findChild s node piece

/-- The meaning of a path: the fold over its pieces. -/
def foldPath (s : VfsState) (path : Str) : Option NodeId :=
  if path = [] then none
  else (path.splitOn slash).foldlM (pathStep s) (if path.head? = some slash then 0 else s.cwdNode)

section Walkers

variable {s : VfsState}

theorem enter_eq_pathStep (s : VfsState) : enter s = pathStep s := by
  funext node piece
  unfold enter pathStep
  by_cases h0 : piece = []
  · rw [if_pos h0, if_pos (.inl h0)]
  by_cases h1 : piece = dot
  · rw [if_neg h0, if_pos h1, if_pos (.inr h1)]
  rw [if_neg h0, if_neg h1, if_neg (not_or.mpr ⟨h0, h1⟩)]
  rfl

theorem resolvePath_eq_fold (hready : s.ready = true) (path : Str) :
    resolvePath s path = foldPath s path := by
  unfold foldPath
  by_cases hpath : path = []
  · rw [if_pos hpath, hpath, resolvePath, if_pos (by rw [isEmpty_nil, Bool.or_true])]
  · rw [if_neg hpath, resolvePath_eq hready hpath, plain, walk_filter (enter_dot s),
      components_splitOn, walk_filter (enter_nil s), ← enter_eq_pathStep]
    rfl

/-- What the walkers do not skip, in terms of the pieces. -/
theorem plain_splitOn (path : Str) :
    plain path = (path.splitOn slash).filter fun c => c ≠ [] ∧ c ≠ dot := by
  rw [plain, components_splitOn, filter_filter]
  congr 1
  funext c
  rw [Bool.decide_and, Bool.and_comm]

end Walkers

/-- **THE WALKERS AGREE.**  `resolve_path` is the fold over the pieces of the path; and when
`resolve_parent` succeeds, its directory is a used one, its leaf is the last piece that counts
and none of the special names, and `resolve_path` looks that leaf up in that directory. -/
theorem walkers_agree {s : VfsState} (hw : Wf s) (path : Str) :
    resolvePath s path = foldPath s path ∧
      ∀ p leaf, resolveParent s path = some (p, leaf) →
        IsDir s p ∧
        ((path.splitOn slash).filter fun c => c ≠ [] ∧ c ≠ dot).getLast? = some leaf ∧
        leaf ≠ dot ∧ leaf ≠ dotdot ∧ resolvePath s path = findChild s p leaf := by
  refine ⟨resolvePath_eq_fold hw.ready path, ?_⟩
  intro p leaf h
  obtain ⟨⟨-, h1, h2⟩, init, hinit, -⟩ := resolveParent_spec h
  refine ⟨hw.resolveParent h, ?_, h1, h2, resolvePath_of_parent hw.ready h⟩
  rw [← plain_splitOn, hinit, getLast?_append, getLast?_singleton]
  rfl

/-- `//a/./` in the tree with `/a`. -/
theorem walkers_agree_slashes :
    resolvePath (vfsMkdir (vfsInit blank).2 pathA).2 [slash, slash, 0x61, slash, 0x2E, slash] =
      findChild (vfsMkdir (vfsInit blank).2 pathA).2 0 [0x61] := by
  have hrun : Run (fun _ _ => True) (vfsInit blank).2 (vfsMkdir (vfsInit blank).2 pathA).2 :=
    .single (step_of_exec (.mkdir pathA) trivial rfl)
  have hparent : resolveParent (vfsMkdir (vfsInit blank).2 pathA).2
      [slash, slash, 0x61, slash, 0x2E, slash] = some (0, [0x61]) := by decide +kernel
  exact ((walkers_agree (wf_of_run hrun) _).2 0 [0x61] hparent).2.2.2.2

/-! ## §3. Spelling names. -/

/-- `/a/b/c` for the names `a`, `b` and `c`. -/
def spell (names : List Str) : Str := names.flatMap (slash :: ·)

section Spell

variable {names : List Str}

theorem spell_cons (n : Str) (ns : List Str) : spell (n :: ns) = slash :: (n ++ spell ns) := rfl

theorem spell_append (ns ms : List Str) : spell (ns ++ ms) = spell ns ++ spell ms :=
  flatMap_append

theorem componentsFrom_append (n cur rest : Str) (hn : slash ∉ n) :
    componentsFrom cur (n ++ rest) = componentsFrom (cur ++ n) rest := by
  induction n generalizing cur with
  | nil => rw [nil_append, append_nil]
  | cons c n ih =>
    obtain ⟨hc, hn⟩ := ne_and_not_mem_of_not_mem_cons hn
    rw [cons_append, componentsFrom, if_neg (Ne.symm hc), ih _ hn, append_assoc]
    rfl

/-- What is spelled is read back, behind the component that is being read. -/
theorem componentsFrom_spell (h : ∀ n ∈ names, GoodName n) (cur : Str) :
    componentsFrom cur (spell names) = (if cur = [] then [] else [cur]) ++ names := by
  induction names generalizing cur with
  | nil => exact (append_nil _).symm
  | cons n ns ih =>
    obtain ⟨hn, hns⟩ := forall_mem_cons.mp h
    rw [spell_cons, componentsFrom, if_pos rfl, componentsFrom_append n [] _ hn.2.1,
      nil_append, ih hns, if_neg hn.1]
    rfl

/-- **Names behind a path** are more components. -/
theorem components_spell (p : Str) (h : ∀ n ∈ names, GoodName n) :
    components (p ++ spell names) = components p ++ names := by
  unfold components
  generalize ([] : Str) = cur
  induction p generalizing cur with
  | nil => exact componentsFrom_spell h cur
  | cons c p ih =>
    rw [cons_append, componentsFrom, componentsFrom]
    split
    · rw [ih, append_assoc]
    · exact ih _

theorem plain_spell (p : Str) (h : ∀ n ∈ names, GoodName n) :
    plain (p ++ spell names) = plain p ++ names := by
  rw [plain, components_spell p h, filter_append]
  congr 1
  exact filter_eq_self.mpr fun n hn => decide_eq_true (h n hn).2.2.1

end Spell

/-! ## §4. Orderly trees. -/

/-- No leaf is cut, and no rename puts a node below itself. -/
def Orderly.Ok (s : VfsState) (op : Op) : Prop := LeafOk s op ∧ RenameOk s op

/-- **The tree of such a run.** -/
structure Orderly (s : VfsState) : Prop where
  wf : Wf s
  rooted : AllRooted s
  unique : UniqueNames s
  labelled : Labelled s

theorem orderly_of_run {s₀ s : VfsState} (hrun : Run Orderly.Ok (vfsInit s₀).2 s) : Orderly s := by
  refine inv_of_run Orderly hrun
    ⟨vfsInit_wf s₀, vfsInit_rooted s₀, vfsInit_unique s₀, vfsInit_labelled s₀⟩ ?_
  rintro a b h ⟨op, r, ⟨hleaf, hrename⟩, alloc, -, hexec⟩
  have hstep := exec_tree hexec
  exact ⟨hstep.wf h.wf, hstep.rooted hrename h.wf h.rooted, hstep.unique hleaf h.wf h.unique,
    hstep.labelled h.wf h.labelled⟩

/-- With unique names a node is found below its parent under its name. -/
theorem UniqueNames.findChild {s : VfsState} (h : UniqueNames s) (hw : Wf s) {i : NodeId}
    (hi : (s.entry i).used = true) : findChild s (s.entry i).parent (s.entry i).name = some i := by
  have hmatch : isChild s (s.entry i).parent (s.entry i).name i = true :=
    isChild_iff.mpr ⟨hi, rfl, rfl⟩
  rw [findChild_dir (hw.parent i hi)]
  cases hf : (List.finRange 64).find? (isChild s (s.entry i).parent (s.entry i).name) with
  | none => exact absurd hmatch (find?_eq_none.mp hf i (mem_finRange i))
  | some j =>
    obtain ⟨hj, hpar, hname⟩ := isChild_iff.mp (find?_some hf)
    by_contra hne
    exact h j i (fun hji => hne (congrArg some hji)) hj hi hpar hname

/-! ## §5. The path of a node. -/

/-- **The names from the root down to a node.** -/
inductive PathTo (s : VfsState) : NodeId → List Str → Prop
  | root : PathTo s 0 []
  | child {i : NodeId} {names : List Str} (hi : i ≠ 0) (h : PathTo s (s.entry i).parent names) :
      PathTo s i (names ++ [(s.entry i).name])

section PathTo

variable {s : VfsState} {i : NodeId} {names : List Str}

theorem PathTo.exists (h : Rooted (parentOf s) 0 i) : ∃ names, PathTo s i names := by
  obtain ⟨k, hk⟩ := h
  induction k generalizing i with
  | zero =>
    obtain rfl : i = 0 := hk
    exact ⟨[], .root⟩
  | succ k ih =>
    by_cases hi : i = 0
    · rw [hi]
      exact ⟨[], .root⟩
    · obtain ⟨names, hnames⟩ := ih hk
      exact ⟨_, .child hi hnames⟩

section

variable (h : PathTo s i names)
include h

theorem PathTo.unique : ∀ {names' : List Str}, PathTo s i names' → names' = names := by
  induction h with
  | root =>
    intro names' h'
    cases h' with
    | root => rfl
    | child hi _ => exact absurd rfl hi
  | child hi _ ih =>
    intro names' h'
    cases h' with
    | root => exact absurd rfl hi
    | child _ h' => rw [ih h']

theorem PathTo.nil_iff : names = [] ↔ i = 0 := by
  cases h with
  | root => exact ⟨fun _ => rfl, fun _ => rfl⟩
  | child hi _ => exact ⟨fun hnil => absurd hnil (append_ne_nil_of_right_ne_nil _ nofun),
      fun h0 => absurd h0 hi⟩

/-- Every name on the way is one that a path can spell. -/
theorem PathTo.good (hs : Orderly s) (hi : (s.entry i).used = true) : ∀ n ∈ names, GoodName n := by
  induction h with
  | root => exact fun n hn => absurd hn not_mem_nil
  | @child i names hi0 _ ih =>
    intro n hn
    rcases mem_append.mp hn with hn | hn
    · exact ih (hs.wf.parent i hi).1 n hn
    · rw [mem_singleton.mp hn]
      exact (hs.labelled i hi0 hi).2

/-- **The names lead to the node.** -/
theorem PathTo.walk (hs : Orderly s) (hi : (s.entry i).used = true) : walk s 0 names = some i := by
  induction h with
  | root => rfl
  | @child i names hi0 _ ih =>
    obtain ⟨h0, -, h1, h2⟩ := (hs.labelled i hi0 hi).2
    rw [walk_append, ih (hs.wf.parent i hi).1]
    show Vfs.walk s (s.entry i).parent [(s.entry i).name] = some i
    rw [walk_singleton, enter_name h0 h1 h2]
    exact hs.unique.findChild hs.wf hi

/-- **The loop of `build_path`** puts the names in front of what it has, up to 126 characters. -/
theorem buildLoop_eq : ∀ {tmp : Str}, tmp.length ≤ 126 →
    buildLoop s i tmp =
      if (spell names ++ tmp).length ≤ 126 then some (spell names ++ tmp) else none := by
  induction h with
  | root =>
    intro tmp htmp
    rw [buildLoop, if_pos rfl]
    exact (if_pos htmp).symm
  | @child i names hi _ ih =>
    intro tmp htmp
    have hspell : spell (names ++ [(s.entry i).name]) ++ tmp =
        spell names ++ slash :: ((s.entry i).name ++ tmp) := by
      rw [spell_append, append_assoc, spell_cons]
      show spell names ++ slash :: (((s.entry i).name ++ []) ++ tmp) = _
      rw [append_nil]
    rw [buildLoop, if_neg hi, hspell]
    have hlen : (slash :: ((s.entry i).name ++ tmp)).length =
        (s.nodes i).name.length + tmp.length + 1 := by
      rw [length_cons, length_append]
      rfl
    by_cases hlong : 128 ≤ (s.nodes i).name.length + tmp.length + 2
    · rw [if_pos hlong, if_neg]
      rw [length_append, hlen]
      omega
    · rw [if_neg hlong]
      exact ih (Nat.le_trans (Nat.le_of_eq hlen) (by omega))

end

end PathTo

/-- The path of the node with these names: `/` for the root. -/
def fullPath (names : List Str) : Str := if names = [] then [slash] else spell names

section Cwd

variable {s : VfsState} {names : List Str}

theorem buildPath_eq {i : NodeId} (h : PathTo s i names) (buf : Bool) (len : ℕ) :
    buildPath s i buf len =
      if buf = true ∧ (fullPath names).length ≤ 126 ∧ (fullPath names).length + 1 ≤ len
      then some (fullPath names) else none := by
  unfold buildPath fullPath
  cases buf with
  | false =>
    rw [if_pos (.inl rfl), if_neg]
    exact fun hno => nomatch hno.1
  | true =>
    by_cases hlen : len = 0
    · rw [if_pos (.inr hlen), if_neg]
      rintro ⟨-, -, hle⟩
      omega
    rw [if_neg (by rintro (h | h) <;> [cases h; exact hlen h])]
    by_cases hi : i = 0
    · rw [if_pos hi, if_pos (h.nil_iff.mpr hi)]
      by_cases h2 : len < 2
      · rw [if_pos h2, if_neg]
        rintro ⟨-, -, hle⟩
        rw [length_singleton] at hle
        omega
      · rw [if_neg h2, if_pos]
        exact ⟨rfl, by decide, by rw [length_singleton]; omega⟩
    · rw [if_neg hi, if_neg (fun hnil => hi (h.nil_iff.mp hnil)), buildLoop_eq h (Nat.zero_le _),
        append_nil]
      by_cases h126 : (spell names).length ≤ 126
      · rw [if_pos h126]
        show (if len < (spell names).length + 1 then none else some (spell names)) = _
        by_cases hshort : len < (spell names).length + 1
        · rw [if_pos hshort, if_neg]
          rintro ⟨-, -, hle⟩
          omega
        · rw [if_neg hshort, if_pos ⟨rfl, h126, by omega⟩]
      · rw [if_neg h126, if_neg]
        exact fun hle => h126 hle.2.1

/-- The path of a node resolves to the node, from any directory. -/
theorem resolvePath_fullPath {i : NodeId} (h : PathTo s i names) (hs : Orderly s)
    (hi : (s.entry i).used = true) (c : NodeId) :
    resolvePath { s with cwdNode := c } (fullPath names) = some i := by
  have hhead : (fullPath names).head? = some slash := by
    unfold fullPath
    split
    · rfl
    · rename_i hne
      obtain ⟨n, ns, rfl⟩ := exists_cons_of_ne_nil hne
      rfl
  have hplain : plain (fullPath names) = names := by
    unfold fullPath
    split
    · rename_i hnil
      rw [hnil]
      rfl
    · exact plain_spell [] (h.good hs hi)
  have hne : fullPath names ≠ [] := by
    intro hnil
    rw [hnil] at hhead
    cases hhead
  rw [resolvePath_eq (show ({ s with cwdNode := c } : VfsState).ready = true from hs.wf.ready) hne,
    hplain, startNode, if_pos hhead]
  -- a walk does not look at the current directory
  exact h.walk hs hi

end Cwd

/-- **GETCWD INVERTS CHDIR.**  In every state of a run whose leaves fit and whose renames put no
node below itself there is one list of names from the root to the current directory; with `q`
the path they spell, `vfs_getcwd` stores `q` exactly when it has at most 126 characters and fits
the buffer with its terminator; and `q` resolves to the current directory, whatever the current
directory is then. -/
theorem getcwd_inverts {s₀ s : VfsState} (hrun : Run Orderly.Ok (vfsInit s₀).2 s) :
    ∃ names, (∀ names', PathTo s s.cwdNode names' ↔ names' = names) ∧
      (∀ buf len, vfsGetcwd s buf len =
        if buf = true ∧ (fullPath names).length ≤ 126 ∧ (fullPath names).length + 1 ≤ len
        then some (fullPath names) else none) ∧
      ∀ c, resolvePath { s with cwdNode := c } (fullPath names) = some s.cwdNode := by
  have hs := orderly_of_run hrun
  have hcwd := hs.wf.cwd.1
  obtain ⟨names, hnames⟩ := PathTo.exists (hs.rooted s.cwdNode hcwd)
  refine ⟨names, fun names' => ?_, fun buf len => buildPath_eq hnames buf len,
    fun c => resolvePath_fullPath hnames hs hcwd c⟩
  constructor
  · exact hnames.unique
  · rintro rfl
    exact hnames

/-- The tree with `/a` in it. -/
theorem run_mkdir : Run Orderly.Ok (vfsInit blank).2 (vfsMkdir (vfsInit blank).2 pathA).2 := by
  refine .single (step_of_exec (.mkdir pathA) ⟨?_, trivial⟩ rfl)
  intro p leaf h
  cases (show resolveParent (vfsInit blank).2 pathA = some (0, [0x61]) by decide +kernel).symm.trans h
  decide

/-- `mkdir /a`, `chdir /a`. -/
theorem getcwd_inverts_chdir :
    vfsGetcwd (vfsChdir (vfsMkdir (vfsInit blank).2 pathA).2 pathA).2 true 3 = some pathA ∧
      vfsGetcwd (vfsChdir (vfsMkdir (vfsInit blank).2 pathA).2 pathA).2 true 2 = none ∧
      resolvePath { (vfsChdir (vfsMkdir (vfsInit blank).2 pathA).2 pathA).2 with cwdNode := 0 } pathA =
        some (vfsChdir (vfsMkdir (vfsInit blank).2 pathA).2 pathA).2.cwdNode := by
  have hrun : Run Orderly.Ok (vfsInit blank).2
      (vfsChdir (vfsMkdir (vfsInit blank).2 pathA).2 pathA).2 :=
    run_mkdir.tail (step_of_exec (.chdir pathA) ⟨trivial, trivial⟩ rfl)
  have hpath : PathTo (vfsChdir (vfsMkdir (vfsInit blank).2 pathA).2 pathA).2
      (vfsChdir (vfsMkdir (vfsInit blank).2 pathA).2 pathA).2.cwdNode [[0x61]] := by
    have hcwd : (vfsChdir (vfsMkdir (vfsInit blank).2 pathA).2 pathA).2.cwdNode = 1 := by
      decide +kernel
    have hparent : ((vfsChdir (vfsMkdir (vfsInit blank).2 pathA).2 pathA).2.entry 1).parent = 0 := by
      decide +kernel
    have hname : ((vfsChdir (vfsMkdir (vfsInit blank).2 pathA).2 pathA).2.entry 1).name = [0x61] := by
      decide +kernel
    rw [hcwd, ← hname]
    have hroot : PathTo (vfsChdir (vfsMkdir (vfsInit blank).2 pathA).2 pathA).2
        ((vfsChdir (vfsMkdir (vfsInit blank).2 pathA).2 pathA).2.entry 1).parent [] := by
      rw [hparent]
      exact .root
    exact .child (by decide) hroot
  obtain ⟨names, hnames, hcwd, hresolve⟩ := getcwd_inverts hrun
  obtain rfl := (hnames _).mp hpath
  exact ⟨hcwd true 3, hcwd true 2, hresolve 0⟩

end ExoCore.Vfs
