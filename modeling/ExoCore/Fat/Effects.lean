/-
  ExoCore.Fat.Effects — what each call does to the volume.

  One lemma per function above the chains: the name (`makeShortName_first`), the
  slot `fs_open` works on (`openEntry_spec`), truncation (`truncEntry_spec`), the
  descriptor (`claimSlot_spec`) and the write (`writeFile_spec`).  A call touches
  the 32 bytes of ONE slot of the root directory and the chain of ONE file.
-/
import ExoCore.Fat.Directory
import ExoCore.Lib.Bytes

namespace ExoCore.Fat

open ExoCore.Lib Function List

/-! ## §1. The root directory. -/

/-- The clusters `root` are the root directory, all of it below 4 GiB. -/
structure RootDir (s : FsState) (root : List ℕ) : Prop where
  layout : Layout s
  held : Held s root
  head : root.head? = some s.fat.rootCluster
  below : ∀ o ∈ dirSlots s root, o < 2 ^ 32

section Root

variable {s s' : FsState} {root L new : List ℕ} {o q pos n : ℕ} {d : Bytes} {bf : ℕ → UInt8}

theorem setOpen_self (s : FsState) (k : Slot) (f : FsOpen) : (s.setOpen k f).openFiles k = f := by
  show update s.openFiles k f k = f
  rw [update_self]

theorem setOpen_of_ne (s : FsState) {j k : Slot} (f : FsOpen) (h : j ≠ k) :
    (s.setOpen k f).openFiles j = s.openFiles j := by
  show update s.openFiles k f j = _
  rw [update_of_ne h]

theorem RootDir.slot (hr : RootDir s root) : ∀ o ∈ dirSlots s root, 0 < o ∧ o < 2 ^ 32 :=
  fun o ho => ⟨slot_pos hr.layout hr.held ho, hr.below o ho⟩

/-- The directory needs its own links only. -/
theorem RootDir.congr (hr : RootDir s root) (hd : OnlyData s s')
    (hnext : ∀ c ∈ root, next s' c = next s c) : RootDir s' root := by
  refine ⟨hd.layout hr.layout, ⟨hr.held.chain.congr hnext, ?_, hr.held.nodup⟩, ?_, ?_⟩
  · exact fun c hc => hd.valid.mpr (hr.held.valid c hc)
  · rw [hd.fat]
    exact hr.head
  · rw [hd.dirSlots]
    exact hr.below

theorem Held.setOpen (hl : Held s L) (k : Slot) (f : FsOpen) : Held (s.setOpen k f) L :=
  ⟨hl.chain, hl.valid, hl.nodup⟩

theorem Layout.setOpen (h : Layout s) (k : Slot) (f : FsOpen) : Layout (s.setOpen k f) :=
  { h with }

/-- A first cluster is a word. -/
theorem Held.head_lt (h : Layout s) (hl : Held s L) : L.headD 0 < 2 ^ 32 := by
  cases L with
  | nil => exact Nat.two_pow_pos 32
  | cons c l =>
    have h1 := (hl.valid c mem_cons_self).2
    have h2 := h.numbers
    unfold fat32Eoc at h2
    show c < 2 ^ 32
    omega

section

variable (hr : RootDir s root)
include hr

theorem RootDir.setOpen (k : Slot) (f : FsOpen) : RootDir (s.setOpen k f) root :=
  ⟨hr.layout.setOpen k f, hr.held.setOpen k f, hr.head, hr.below⟩

/-- A write to a file apart from the directory. -/
theorem RootDir.wrote (hw : Wrote s s' L new pos n bf) (hap : ∀ c ∈ root, c ∉ L) :
    RootDir s' root :=
  hr.congr hw.data fun c hc => hw.next c (hr.held.valid c hc) (hw.apart hr.held hap c hc)

/-- Such a write leaves the slots alone. -/
theorem RootDir.wrote_slot (hw : Wrote s s' L new pos n bf) (hap : ∀ c ∈ root, c ∉ L)
    (ho : o ∈ dirSlots s root) : ∀ k, k < 32 → s'.data (o + k) = s.data (o + k) :=
  slot_same hw.data
    (fun c hc => hw.other c (hr.held.valid c hc) (hw.apart hr.held hap c hc)) ho

section

variable (ho : o ∈ dirSlots s root) (hd : ∀ a, a < o ∨ o + 32 ≤ a → d a = s.data a)
include ho hd

/-- **A write into the slot `o`**: the table, and the clusters of the files, stay. -/
theorem RootDir.entry_changes :
    Changes s { s with data := d } (next s) (cbyte { s with data := d }) := by
  have := dataStart_le_slot hr.layout hr.held ho
  exact changes_of_data hr.layout fun a ha => hd a (.inl (by omega))

theorem RootDir.entry_cbyte {c : ℕ} (hc : Valid s c) (hnot : c ∉ root) {k : ℕ}
    (hk : k < clusterSize s) : cbyte { s with data := d } c k = cbyte s c k := by
  obtain ⟨e, he, j, rfl, hj⟩ := slot_cluster ho
  refine cbyte_of_ne hr.layout (hr.held.valid e he) hc (fun hce => hnot (hce ▸ he)) ?_ hk
  exact fun a ha => hd a (by omega)

theorem RootDir.entry_slot (hq : q ∈ dirSlots s root) (hne : q ≠ o) :
    ∀ k, k < 32 → d (q + k) = s.data (q + k) := by
  intro k hk
  have := slot_apart hr.layout hr.held ho hq (Ne.symm hne)
  unfold Apart at this
  exact hd _ (by omega)

theorem RootDir.entry : RootDir { s with data := d } root :=
  hr.congr ⟨d, rfl⟩ fun c hc => (hr.entry_changes ho hd).next c (hr.held.valid c hc)

/-- The entry is not a byte of a file. -/
theorem RootDir.entry_fileByte (hl : Held s L) (hap : ∀ c ∈ root, c ∉ L)
    (hp : pos < L.length * clusterSize s) :
    fileByte { s with data := d } L pos = fileByte s L pos :=
  fileByte_congr ⟨d, rfl⟩ hr.layout hp fun c hc _ hk =>
    hr.entry_cbyte ho hd (hl.valid c hc) (fun hroot => hap c hroot hc) hk

end

/-- An entry that is brought up to date keeps its name. -/
theorem RootDir.enter_name (ho : o ∈ dirSlots s root) (c n : ℕ) (hq : q ∈ dirSlots s root) :
    ∀ k, k < 12 → (s.enter o c n).data (q + k) = s.data (q + k) := by
  intro k hk
  by_cases hqo : q = o
  · rw [hqo]
    exact putEntry_apart (by omega)
  · exact hr.entry_slot ho (fun a ha => putEntry_apart (by omega)) hq hqo k (by omega)

/-- A new entry is found under its name. -/
theorem RootDir.finds_newEntry {name : List UInt8} {pre post : List ℕ}
    (hslots : dirSlots s root = pre ++ o :: post) (hpre : ∀ q ∈ pre, Skips s.data name q)
    (hlen : name.length = 11) (h0 : name.getD 0 0 ≠ 0x00) (h5 : name.getD 0 0 ≠ 0xE5) :
    Finds (newEntry s.data o name) name (dirSlots s root) o := by
  refine ⟨pre, post, hslots, fun q hq => ?_, newEntry_matches hlen h0 h5⟩
  -- the slots in front are other slots, and as they were
  have hnodup := nodup_dirSlots hr.layout hr.held
  have hmem : ∀ x ∈ pre ++ o :: post, x ∈ dirSlots s root := fun x hx => hslots ▸ hx
  rw [hslots] at hnodup
  refine (skips_congr fun k hk => ?_).mpr (hpre q hq)
  exact hr.entry_slot (hmem o (by simp)) (fun a ha => newEntry_apart hlen ha)
    (hmem q (mem_append_left _ hq)) ((nodup_append.mp hnodup).2.2 q hq o mem_cons_self) k (by omega)

end

end Root

/-! ## §2. Names. -/

/-- The first byte of the name, past the slashes. -/
def firstByte (path : List UInt8) : Option UInt8 := (path.dropWhile (· == 0x2F)).head?

section Names

variable {path name : List UInt8}

theorem upperChar_ne_zero {c : UInt8} (hc : badChar c = false) : upperChar c ≠ 0 := by
  have hle : ¬ c ≤ 0x20 := by
    intro hle
    rw [badChar, decide_eq_true hle] at hc
    cases hc
  unfold upperChar
  split <;> grind

theorem upperChar_eq_deleted {c : UInt8} (hc : upperChar c = 0xE5) : c = 0xE5 := by
  unfold upperChar at hc
  split at hc
  · grind
  · exact hc

/-- **The first byte of a short name**: never `0x00`, and `0xE5` only when the path
says so. -/
theorem makeShortName_first (h : makeShortName path = some name) :
    name.getD 0 0 ≠ 0x00 ∧ (name.getD 0 0 = 0xE5 → firstByte path = some 0xE5) := by
  obtain ⟨base, ext, hs, rfl⟩ := (makeShortName_iff path name).mp h
  obtain ⟨c, b, q, rfl, hp, hc⟩ := hs.cons
  show upperChar c ≠ 0x00 ∧ (upperChar c = 0xE5 → (stripSlashes path).head? = some 0xE5)
  refine ⟨upperChar_ne_zero hc.2.2, fun h5 => ?_⟩
  rw [hp, head?_cons, upperChar_eq_deleted h5]

end Names

/-! ## §3. Opening. -/

section Open

variable {s : FsState} {root L : List ℕ} {name : List UInt8} {o : ℕ}

variable {fuel : ℕ}

/-- `fs_open` of a file that is there. -/
theorem openEntry_found (hr : RootDir s root) (hfuel : root.length ≤ fuel) (flags : ℕ)
    (hfinds : Finds s.data name (dirSlots s root) o) : openEntry fuel s name flags =
      if hasFlag flags fsOTrunc then (truncEntry fuel s o).map fun s' => (some o, s')
      else .ok (some o, s) := by
  have ho := scanList_of_finds hfinds (hr.below o hfinds.mem) 0
  unfold openEntry
  rw [findDirEntry_eq hr.layout hr.held hr.head hfuel]
  generalize (scanList s.data name (dirSlots s root) 0).answer = r at ho
  obtain ⟨found, freeOff⟩ := r
  cases ho
  show (if hasFlag flags fsOTrunc then _ else _) = _
  split
  · cases truncEntry fuel s o <;> rfl
  · rfl

/-- **The slot `fs_open` works on**: the slot of the name, a vacant one, or none. -/
theorem openEntry_spec (hr : RootDir s root) (hname : name.length = 11) (flags : ℕ) :
    (∃ o, Finds s.data name (dirSlots s root) o) ∨
    (∀ fuel, root.length ≤ fuel → openEntry fuel s name flags = .ok (none, s)) ∨
    ∃ o, hasFlag flags fsOCreat = true ∧ Vacant s.data o ∧
      (∃ pre post, dirSlots s root = pre ++ o :: post ∧ ∀ q ∈ pre, Skips s.data name q) ∧
      ∀ fuel, root.length ≤ fuel →
        openEntry fuel s name flags = .ok (some o, { s with data := newEntry s.data o name }) := by
  obtain ⟨o, _, hfinds⟩ | hnone | ⟨o, ho, ho0, hv, pre, post, hl, hpre⟩ :=
    scanList_cases s.data name (dirSlots s root) hr.slot
  · exact .inl ⟨o, hfinds⟩
  · refine .inr (.inl fun fuel hfuel => ?_)
    rw [openEntry, findDirEntry_eq hr.layout hr.held hr.head hfuel, hnone]
    exact if_pos (.inr rfl)
  · have hmem : o ∈ dirSlots s root := by
      rw [hl]
      exact mem_append_right pre mem_cons_self
    by_cases hcreat : hasFlag flags fsOCreat = true
    · refine .inr (.inr ⟨o, hcreat, hv, ⟨pre, post, hl, hpre⟩, fun fuel hfuel => ?_⟩)
      rw [openEntry, findDirEntry_eq hr.layout hr.held hr.head hfuel, ho]
      show (if !hasFlag flags fsOCreat ∨ o = 0 then _ else (createEntry s name o >>= _)) = _
      rw [if_neg (by simp [hcreat, ho0]), createEntry_eq (slot_has hr.layout hr.held hmem) hname]
      rfl
    · refine .inr (.inl fun fuel hfuel => ?_)
      rw [openEntry, findDirEntry_eq hr.layout hr.held hr.head hfuel, ho]
      exact if_pos (.inl (by simpa using hcreat))

/-- **Truncation** frees the chain of the file and clears its entry. -/
theorem truncEntry_spec (hr : RootDir s root) (hl : Held s L) (ho : o ∈ dirSlots s root)
    (hfirst : entryFirst s.data o = L.headD 0) :
    ∃ s₁, Changes s s₁ (fun e => if e ∈ L then 0 else next s e) (cbyte s) ∧
      ∀ fuel, L.length ≤ fuel → truncEntry fuel s o = .ok (s₁.enter o 0 0) := by
  have hhas := slot_has hr.layout hr.held ho
  obtain ⟨s₁, hch, hfree⟩ : ∃ s₁, Changes s s₁ (fun e => if e ∈ L then 0 else next s e) (cbyte s) ∧
      ∀ fuel, L.length ≤ fuel → freeFirst fuel s (L.headD 0) = .ok s₁ := by
    cases L with
    | nil => exact ⟨s, by simpa using Changes.refl s, fun _ _ => rfl⟩
    | cons c l =>
      obtain ⟨s₁, hret, hch⟩ := freeChain_spec l c s hr.layout hl
      refine ⟨s₁, hch, fun fuel hfuel => ?_⟩
      have hc0 : c ≠ 0 := by
        have := (hl.valid c mem_cons_self).1
        omega
      show (if c ≠ 0 then freeChain fuel s c else _) = _
      rw [if_pos hc0, hret fuel hfuel]
  refine ⟨s₁, hch, fun fuel hfuel => ?_⟩
  unfold truncEntry
  rw [entryFirstCluster_eq hhas, hfirst]
  show (freeFirst fuel s (L.headD 0) >>= _) = _
  rw [hfree fuel hfuel]
  exact putEntry_eq (hch.data.has.mpr hhas) 0 0

/-- The descriptor `fs_open` fills in. -/
def opened (s : FsState) (o flags : ℕ) : FsOpen :=
  { used := true
    dirEntryOffset := o
    firstCluster := entryFirst s.data o
    size := entrySize s.data o
    pos := if hasFlag flags fsOAppend then entrySize s.data o else 0
    flags := flags }

theorem opened_pos_lt (s : FsState) (o flags : ℕ) : (opened s o flags).pos < 2 ^ 32 := by
  have := entrySize_lt s.data o
  show (if hasFlag flags fsOAppend then entrySize s.data o else 0) < 2 ^ 32
  split <;> omega

/-- **The end of `fs_open`**: the first free descriptor, if there is one. -/
theorem claimSlot_spec (h : Has s o 32) (flags : ℕ) :
    (claimSlot s o flags = .ok (none, s) ∧ ∀ k, (s.openFiles k).used = true) ∨
    ∃ k, (s.openFiles k).used = false ∧
      claimSlot s o flags = .ok (some k, s.setOpen k (opened s o flags)) := by
  unfold claimSlot
  cases hfind : (List.finRange 16).find? fun fd => !(s.openFiles fd).used with
  | none =>
    refine .inl ⟨rfl, fun k => ?_⟩
    have := find?_eq_none.mp hfind k (mem_finRange k)
    simpa using this
  | some k =>
    refine .inr ⟨k, by simpa using find?_some hfind, ?_⟩
    show (entryFirstCluster s o >>= _) = _
    rw [entryFirstCluster_eq h]
    show (rd32 s (o + 28) >>= _) = _
    rw [entrySize_eq h]
    rfl

/-- `fs_open` ends as its entry tells. -/
theorem exec_open {s' : FsState} {path : List UInt8} {flags : ℕ} {entry : Option ℕ}
    (hmode : s.mode = .fat32) (hname : makeShortName path = some name)
    (hopen : openEntry fuel s name flags = .ok (entry, s')) :
    exec fuel s (.open path flags) = entry.elim (.ok (.fail, s')) fun o =>
      (claimSlot s' o flags).map (Prod.map (Ret.ofOption .fd) id) := by
  show (fsOpen fuel s path flags).map _ = _
  rw [fsOpen, if_neg (not_not.mpr hmode), hname]
  show (openEntry fuel s name flags >>= _).map _ = _
  rw [hopen]
  cases entry <;> rfl

/-- `fs_open` of a path that is no name. -/
theorem exec_open_unnamed {path : List UInt8} (hmode : s.mode = .fat32)
    (hname : makeShortName path = none) (flags : ℕ) :
    exec fuel s (.open path flags) = .ok (.fail, s) := by
  show (fsOpen fuel s path flags).map _ = _
  rw [fsOpen, if_neg (not_not.mpr hmode), hname]
  rfl

/-- **`fs_open` comes back** once it has an entry: with the first free descriptor, if any. -/
theorem returns_open {s' : FsState} {path : List UInt8} {flags bound : ℕ} (hmode : s.mode = .fat32)
    (hname : makeShortName path = some name)
    (hopen : ∀ fuel, bound ≤ fuel → openEntry fuel s name flags = .ok (some o, s'))
    (hhas : Has s' o 32) :
    (Returns (fun fuel => exec fuel s (.open path flags)) (.fail, s') ∧
      ∀ k, (s'.openFiles k).used = true) ∨
    ∃ k, Returns (fun fuel => exec fuel s (.open path flags))
      (.fd k, s'.setOpen k (opened s' o flags)) := by
  have hcall := fun fuel hfuel => exec_open hmode hname (hopen fuel hfuel)
  rw [Option.elim_some] at hcall
  obtain ⟨hclaim, hall⟩ | ⟨k, -, hclaim⟩ := claimSlot_spec hhas flags
  · rw [hclaim] at hcall
    exact .inl ⟨⟨bound, hcall⟩, hall⟩
  · rw [hclaim] at hcall
    exact .inr ⟨k, bound, hcall⟩

end Open

/-! ## §4. Writing. -/

section Write

variable {s : FsState} {root L : List ℕ} {slot : Slot} {buf : List UInt8}

/-- The descriptor after a write of `n` bytes to a file that now has the clusters `L`. -/
def written (f : FsOpen) (L : List ℕ) (n : ℕ) : FsOpen :=
  { afterWrite f n with firstCluster := L.headD 0 }

/-- The file has a cluster: the loop, then the entry. -/
theorem writeFile_of_loop {s₁ s₂ : FsState} {f : FsOpen} {c n fuel : ℕ}
    (hfirst : firstCluster s (s.openFiles slot) = .ok (c, s₁)) (hc : c ≠ 0)
    (hloop : writeLoop buf fuel s₁ { s.openFiles slot with firstCluster := c } 0 = .ok (n, f, s₂))
    (hhas : Has s₂ f.dirEntryOffset 32) : writeFile fuel s slot buf =
      .ok (some n, (s₂.enter f.dirEntryOffset f.firstCluster f.size).setOpen slot f) := by
  have hput := putEntry_eq hhas f.firstCluster f.size
  unfold writeFile
  show (firstCluster s (s.openFiles slot) >>= _) = _
  rw [hfirst]
  show (if c = 0 then _ else (writeLoop buf fuel s₁ _ 0 >>= _)) = _
  rw [if_neg hc, hloop]
  show (entrySetFirstCluster s₂ f.dirEntryOffset f.firstCluster >>= fun s =>
    wr32 s (f.dirEntryOffset + 28) f.size >>= fun s => .ok (some n, s.setOpen slot f)) = _
  rw [← bind_assoc, hput]
  rfl

/-- A write of `buf` that returned `n`: the bytes are in the file, which has `new`
clusters more; `n` is short only on a full volume; the entry and the descriptor are up
to date. -/
def WriteDone (s : FsState) (slot : Slot) (buf : List UInt8) (L : List ℕ) : Prop :=
  ∃ n new s₁, Wrote s s₁ L new (s.openFiles slot).pos n
      (fun p => buf.getD (p - (s.openFiles slot).pos) 0) ∧
    L ++ new ≠ [] ∧ n ≤ buf.length ∧ (n < buf.length → Full s₁) ∧
    ∀ fuel, buf.length < fuel → writeFile fuel s slot buf = .ok (some n,
      (s₁.enter (s.openFiles slot).dirEntryOffset ((L ++ new).headD 0)
        (afterWrite (s.openFiles slot) n).size).setOpen slot
        (written (s.openFiles slot) (L ++ new) n))

/-- The write, once the file has a cluster. -/
theorem writeFile_done {s₁ : FsState} {new : List ℕ} (hr : RootDir s root)
    (ho : (s.openFiles slot).dirEntryOffset ∈ dirSlots s root)
    (hpos : (s.openFiles slot).pos < 2 ^ 32)
    (hword : (s.openFiles slot).pos + buf.length < 2 ^ 32 ∨
      s.fat.totalClusters * clusterSize s < 2 ^ 32)
    (hw : Wrote s s₁ L new (s.openFiles slot).pos 0
      (fun p => buf.getD (p - (s.openFiles slot).pos) 0)) (hne : L ++ new ≠ [])
    (hfirst : firstCluster s (s.openFiles slot) = .ok ((L ++ new).headD 0, s₁)) :
    WriteDone s slot buf L := by
  obtain ⟨c, M, hM⟩ := exists_cons_of_ne_nil hne
  have hhead : ∀ l, (L ++ (new ++ l)).headD 0 = c := by
    intro l
    rw [← append_assoc, hM]
    rfl
  have hc0 : c ≠ 0 := by
    have := (hw.held.valid c (by rw [hM]; exact mem_cons_self)).1
    omega
  obtain ⟨n, new', s₂, hloop, hw₂, hn, hfull⟩ := writeLoop_spec buf
    (fun p => buf.getD (p - (s.openFiles slot).pos) 0) buf.length s₁
    { s.openFiles slot with firstCluster := c } (L ++ new) 0 (hw.data.layout hr.layout) hw.held
    (by rw [hM]; rfl) hpos (by rw [hw.data.fat, hw.data.clusterSize]; exact hword)
    (Nat.zero_le _) (le_refl _)
    (fun k _ => by
      show buf.getD ((s.openFiles slot).pos + k - (s.openFiles slot).pos) 0 = _
      rw [Nat.add_sub_cancel_left, Nat.zero_add])
  rw [Nat.zero_add] at hn hfull
  have hw' := hw.trans hw₂
  rw [Nat.zero_add] at hw'
  refine ⟨n, new ++ new', s₂, hw', ?_, hn, hfull, fun fuel hfuel => ?_⟩
  · rw [← append_assoc, hM]
    simp
  · have hc := hhead []
    rw [append_nil] at hc
    rw [hc] at hfirst
    have hret := hloop fuel hfuel
    rw [Nat.zero_add] at hret
    rw [writeFile_of_loop hfirst hc0 hret (hw'.data.has.mpr (slot_has hr.layout hr.held ho)),
      hhead new', written, hhead new']
    rfl

/-- **`fs_write_fd` past its checks**: nothing, when the file has no cluster and none is
free; otherwise a write. -/
theorem writeFile_spec (buf : List UInt8) (hr : RootDir s root) (hl : Held s L)
    (ho : (s.openFiles slot).dirEntryOffset ∈ dirSlots s root)
    (hfirst : (s.openFiles slot).firstCluster = L.headD 0) (hpos : (s.openFiles slot).pos < 2 ^ 32)
    (hword : (s.openFiles slot).pos + buf.length < 2 ^ 32 ∨
      s.fat.totalClusters * clusterSize s < 2 ^ 32) :
    (L = [] ∧ Full s ∧ ∀ fuel, writeFile fuel s slot buf = .ok (none, s)) ∨
      WriteDone s slot buf L := by
  by_cases hL : L = []
  · -- the first cluster
    subst hL
    have hf0 : (s.openFiles slot).firstCluster = 0 := hfirst
    obtain ⟨hret, hfull⟩ | ⟨d, s₁, hv, hret, hw⟩ := allocCluster_first hr.layout
      (s.openFiles slot).pos fun p => buf.getD (p - (s.openFiles slot).pos) 0
    · refine .inl ⟨rfl, hfull, fun fuel => ?_⟩
      unfold writeFile
      show (firstCluster s (s.openFiles slot) >>= _) = _
      rw [firstCluster, if_pos hf0, hret]
      rfl
    · refine .inr (writeFile_done hr ho hpos hword hw (by simp) ?_)
      rw [firstCluster, if_pos hf0, hret]
      rfl
  · have hf0 : (s.openFiles slot).firstCluster ≠ 0 := by
      obtain ⟨c, l, rfl⟩ := exists_cons_of_ne_nil hL
      have h2 := (hl.valid c mem_cons_self).1
      rw [hfirst]
      show c ≠ 0
      omega
    refine .inr (writeFile_done hr ho hpos hword (Wrote.refl hl _ _) (by simpa using hL) ?_)
    rw [firstCluster, if_neg hf0, append_nil, hfirst]

end Write

/-! ## §5. The calls on a descriptor. -/

/-- `fs_write_fd` accepts the descriptor. -/
def Writable (flags : ℕ) : Prop := hasFlag flags fsOWronly = true ∨ flags &&& fsORdwr = fsORdwr

instance (flags : ℕ) : Decidable (Writable flags) := inferInstanceAs (Decidable (_ ∨ _))

section Descriptor

variable {s : FsState} {L : List ℕ} {fd : ℤ} {slot : Slot}

theorem openSlot_of_used (h : (s.openFiles slot).used = true) : openSlot s slot = some slot := by
  have hlt := slot.isLt
  have hnat : (⟨((slot : ℕ) : ℤ).toNat, by omega⟩ : Slot) = slot := Fin.ext (Int.toNat_natCast _)
  unfold openSlot
  rw [dif_pos ⟨by omega, by omega⟩]
  simp only [hnat, h, if_true]

theorem fsWriteFd_eq (hmode : s.mode = .fat32) (hslot : openSlot s fd = some slot) (buf : List UInt8)
    (fuel : ℕ) : fsWriteFd fuel s fd (some buf) =
      if Writable (s.openFiles slot).flags then writeFile fuel s slot buf else .ok (none, s) := by
  have hcheck : ((!hasFlag (s.openFiles slot).flags fsOWronly) = true ∧
      (s.openFiles slot).flags &&& fsORdwr ≠ fsORdwr) ↔ ¬ Writable (s.openFiles slot).flags := by
    simp [Writable]
  rw [fsWriteFd, if_neg (not_not.mpr hmode), hslot]
  dsimp only
  split
  · next hro => rw [if_neg (hcheck.mp hro)]
  · next hwr => rw [if_pos (not_not.mp (mt hcheck.mpr hwr))]

theorem exec_write_eq (hmode : s.mode = .fat32) (hslot : openSlot s fd = some slot)
    (hwr : Writable (s.openFiles slot).flags) (buf : List UInt8) (fuel : ℕ) :
    exec fuel s (.write fd (some buf)) =
      (writeFile fuel s slot buf).map (Prod.map (Ret.ofOption .count) id) := by
  show (fsWriteFd fuel s fd (some buf)).map _ = _
  rw [fsWriteFd_eq hmode hslot, if_pos hwr]

/-- **The call** returns what is returned past its checks. -/
theorem returns_write {buf : List UInt8} {b : ℕ} {r : Option ℕ} {s' : FsState}
    (hmode : s.mode = .fat32) (hslot : openSlot s fd = some slot)
    (hwr : Writable (s.openFiles slot).flags)
    (h : ∀ fuel, b < fuel → writeFile fuel s slot buf = .ok (r, s')) :
    Returns (fun fuel => exec fuel s (.write fd (some buf))) (Ret.ofOption .count r, s') := by
  refine ⟨b + 1, fun fuel hfuel => (exec_write_eq hmode hslot hwr buf fuel).trans ?_⟩
  rw [h fuel hfuel]
  rfl

/-- `fs_write_fd` fails at once, or it has a buffer and a descriptor it accepts. -/
theorem exec_write_cases (hmode : s.mode = .fat32) (fd : ℤ) (buf : Option (List UInt8)) :
    (∀ fuel, exec fuel s (.write fd buf) = .ok (.fail, s)) ∨
      ∃ slot l, openSlot s fd = some slot ∧ buf = some l ∧ Writable (s.openFiles slot).flags := by
  have hcall : ∀ fuel, exec fuel s (.write fd buf) =
      (fsWriteFd fuel s fd buf).map (Prod.map (Ret.ofOption .count) id) := fun _ => rfl
  cases hslot : openSlot s fd with
  | none =>
    refine .inl fun fuel => ?_
    rw [hcall, fsWriteFd, if_neg (not_not.mpr hmode), hslot]
    rfl
  | some slot =>
    cases buf with
    | none =>
      refine .inl fun fuel => ?_
      rw [hcall, fsWriteFd, if_neg (not_not.mpr hmode), hslot]
      rfl
    | some l =>
      by_cases hwr : Writable (s.openFiles slot).flags
      · exact .inr ⟨slot, l, rfl, rfl, hwr⟩
      · refine .inl fun fuel => ?_
        rw [hcall, fsWriteFd_eq hmode hslot, if_neg hwr]
        rfl

/-- `fs_read_fd` fails at once, or it has a buffer and a descriptor. -/
theorem exec_read_cases (hmode : s.mode = .fat32) (fd : ℤ) (buf : Bool) (len : ℕ) :
    (∀ fuel, exec fuel s (.read fd buf len) = .ok (.fail, s)) ∨
      ∃ slot, openSlot s fd = some slot ∧ buf = true := by
  have hcall : ∀ fuel, exec fuel s (.read fd buf len) =
      (fsReadFd fuel s fd buf len).map (Prod.map (Ret.ofOption .bytes) id) := fun _ => rfl
  simp only [hcall, fsReadFd, if_neg (not_not.mpr hmode)]
  cases hslot : openSlot s fd with
  | none => exact .inl fun _ => rfl
  | some slot =>
    cases buf with
    | false => exact .inl fun _ => rfl
    | true => exact .inr ⟨slot, rfl, rfl⟩

variable {fuel len : ℕ} {r : Ret} {s' : FsState}

/-- **`fs_lseek_fd`**, from a base that leaves no 64-bit overflow. -/
theorem exec_lseek_eq {offset whence base : ℤ} (hmode : s.mode = .fat32)
    (hslot : openSlot s fd = some slot) (hbase : seekBase (s.openFiles slot) whence = some base)
    (hlow : -2 ^ 63 ≤ base + offset) (hhigh : base + offset < 2 ^ 32) :
    exec fuel s (.lseek fd offset whence) = .ok (if base + offset < 0 then (.fail, s) else
      (.pos (base + offset).toNat,
        s.setOpen slot { s.openFiles slot with pos := (base + offset).toNat })) := by
  have hlong : toLong (base + offset) = base + offset := by
    unfold toLong
    rw [Int.bmod_eq_of_le] <;> omega
  have hmod : (base + offset).toNat % 2 ^ 32 = (base + offset).toNat := Nat.mod_eq_of_lt (by omega)
  show Except.ok ((fsLseekFd s fd offset whence).map (Ret.ofOption .pos) id) = _
  rw [fsLseekFd, if_neg (not_not.mpr hmode), hslot]
  simp only [hbase, hlong, hmod]
  split <;> rfl

/-- `fs_lseek_fd` moves the cursor, whatever it is asked. -/
theorem exec_lseek_moved {offset whence : ℤ}
    (h : exec fuel s (.lseek fd offset whence) = .ok (r, s')) : Moved s s' := by
  have hs : (fsLseekFd s fd offset whence).2 = s' := congrArg Prod.snd (Except.ok.inj h)
  exact hs ▸ fsLseekFd_moved s fd offset whence

/-- `fs_read_fd` moves the cursor, whatever the descriptor says about the file. -/
theorem exec_read_moved {buf : Bool}
    (h : exec fuel s (.read fd buf len) = .ok (r, s')) : Moved s s' := by
  obtain ⟨x, hread, hr⟩ := map_ok.mp h
  cases hr
  exact (fsReadFd_bounds s fuel fd buf len).value hread

/-- `fs_close` clears the descriptor, if there is one. -/
theorem exec_close_cases
    (h : exec fuel s (.close fd) = .ok (r, s')) :
    s' = s ∨ ∃ slot, s' = s.setOpen slot FsOpen.zero := by
  have hs : s' = (fsClose s fd).2 := (congrArg Prod.snd (Except.ok.inj h)).symm
  rw [hs, fsClose]
  split
  · exact .inl rfl
  · exact .inr ⟨_, rfl⟩

/-- **`fs_read_fd`**: the bytes of the file from the position on. -/
theorem exec_read_spec (h : Layout s) (hmode : s.mode = .fat32) (hslot : openSlot s fd = some slot)
    (hl : Held s L) (hfirst : (s.openFiles slot).firstCluster = L.headD 0)
    (hfits : (s.openFiles slot).size ≤ L.length * clusterSize s)
    (hword : (s.openFiles slot).size < 2 ^ 32) {k : ℕ}
    (hk : min len ((s.openFiles slot).size - (s.openFiles slot).pos) = k) (hfuel : k < fuel) :
    exec fuel s (.read fd true len) =
      .ok (.bytes ((List.range k).map fun i => fileByte s L ((s.openFiles slot).pos + i)),
        s.setOpen slot { s.openFiles slot with pos := (s.openFiles slot).pos + k }) := by
  show (fsReadFd fuel s fd true len).map _ = _
  rw [fsReadFd, if_neg (not_not.mpr hmode), hslot]
  by_cases hnone : (s.openFiles slot).size ≤ (s.openFiles slot).pos ∨ len = 0
  · -- nothing to read
    obtain rfl : k = 0 := by omega
    have hsame : s.setOpen slot { s.openFiles slot with pos := (s.openFiles slot).pos + 0 } = s :=
      congrArg (fun f => { s with openFiles := f }) (update_eq_self slot s.openFiles)
    rw [hsame]
    exact congrArg _ (if_pos hnone)
  · have hhead : L.head? = some (s.openFiles slot).firstCluster := by
      rw [hfirst]
      cases L with
      | nil =>
        rw [length_nil, Nat.zero_mul] at hfits
        omega
      | cons c l => rfl
    have hloop := readLoop_spec h hl slot (show k ≤ len by omega) fuel (s.openFiles slot) [] hhead
      (Nat.zero_le _) hfuel (by rw [length_nil]; omega) (by rw [length_nil]; omega)
    show (if (s.openFiles slot).size ≤ (s.openFiles slot).pos ∨ len = 0 then _
      else (readLoop s slot (min len ((s.openFiles slot).size - (s.openFiles slot).pos)) len fuel
        (s.openFiles slot) [] >>= _)).map _ = _
    rw [if_neg hnone, hk, hloop]
    rfl

end Descriptor

/-! ## §6. Fuel. -/

theorem findLoop_approx (s : FsState) (name : List UInt8) : ∀ (n c freeOff : ℕ),
    Approx (findLoop s name n c freeOff) (findLoop s name (n + 1) c freeOff) := by
  intro n
  induction n with
  | zero => exact fun c freeOff => .error _
  | succ n ih =>
    intro c freeOff
    rw [findLoop, findLoop]
    refine .ite (.ite (.refl _) (.bind (.refl _) fun scan => ?_)) (.refl _)
    cases scan with
    | stop => exact .refl _
    | found => exact .refl _
    | past freeOff => exact .bind (.refl _) fun v => .ite (.refl _) (ih v freeOff)

theorem freeChain_approx : ∀ (n : ℕ) (s : FsState) (c : ℕ),
    Approx (freeChain n s c) (freeChain (n + 1) s c) := by
  intro n
  induction n with
  | zero => exact fun s c => .error _
  | succ n ih =>
    intro s c
    rw [freeChain, freeChain]
    exact .ite (.bind (.refl _) fun v => .bind (.refl _) fun r => .ite (.refl _) (ih _ v)) (.refl _)

theorem readLoop_approx (s : FsState) (slot : Slot) (len cap : ℕ) :
    ∀ (n : ℕ) (f : FsOpen) (out : List UInt8),
      Approx (readLoop s slot len cap n f out) (readLoop s slot len cap (n + 1) f out) := by
  intro n
  induction n with
  | zero => exact fun f out => .error _
  | succ n ih =>
    intro f out
    rw [readLoop, readLoop]
    exact .ite (.bind (.refl _) fun r => .ite (.refl _) (.ite (.refl _)
      (.bind (.refl _) fun bytes => .ite (.refl _) (ih _ _)))) (.refl _)

theorem writeLoop_approx (buf : List UInt8) : ∀ (n : ℕ) (s : FsState) (f : FsOpen) (done : ℕ),
    Approx (writeLoop buf n s f done) (writeLoop buf (n + 1) s f done) := by
  intro n
  induction n with
  | zero => exact fun s f done => .error _
  | succ n ih =>
    intro s f done
    rw [writeLoop, writeLoop]
    exact .ite (.bind (.refl _) fun r => .ite (.refl _) (.ite (.refl _)
      (.bind (.refl _) fun bytes => .bind (.refl _) fun s => ih _ _ _))) (.refl _)

theorem fsOpen_approx (s : FsState) (path : List UInt8) (flags n : ℕ) :
    Approx (fsOpen n s path flags) (fsOpen (n + 1) s path flags) := by
  refine .ite (.refl _) ?_
  cases makeShortName path with
  | none => exact .refl _
  | some name =>
    refine .bind (.bind (findLoop_approx s name n _ 0) fun r => ?_) fun r => .refl _
    obtain ⟨found, freeOff⟩ := r
    cases found with
    | none => exact .refl _
    | some off =>
      exact .ite (.bind (.bind (.refl _) fun first =>
        .bind (.ite (freeChain_approx n s first) (.refl _)) fun s => .refl _)
        fun s => .refl _) (.refl _)

theorem fsReadFd_approx (s : FsState) (fd : ℤ) (buf : Bool) (len n : ℕ) :
    Approx (fsReadFd n s fd buf len) (fsReadFd (n + 1) s fd buf len) := by
  refine .ite (.refl _) ?_
  cases openSlot s fd with
  | none => exact .refl _
  | some slot =>
    exact .ite (.refl _) (.ite (.refl _) (.bind (readLoop_approx s slot _ _ n _ _) fun r => .refl _))

/-- **More fuel changes no answer.** -/
theorem exec_approx (s : FsState) (op : Op) (n : ℕ) : Approx (exec n s op) (exec (n + 1) s op) := by
  cases op with
  | «open» path flags => exact .map _ (fsOpen_approx s path flags n)
  | read fd buf len => exact .map _ (fsReadFd_approx s fd buf len n)
  | write fd buf =>
    refine .map _ (.ite (.refl _) ?_)
    cases openSlot s fd with
    | none => exact .refl _
    | some slot =>
      cases buf with
      | none => exact .refl _
      | some bytes =>
        exact .ite (.refl _) (.bind (.refl _) fun r => .ite (.refl _)
          (.bind (writeLoop_approx bytes n _ _ 0) fun r => .refl _))
  | lseek fd offset whence => exact .refl _
  | close fd => exact .refl _

/-! ## §7. A small volume. -/

/-- 16 sectors of 512 bytes: the boot sector, two copies of the table, 13 clusters of one
sector.  Cluster 2 is the root directory, which is empty. -/
def smallImage : Bytes :=
  putBytes (putBytes (putBytes (putBytes (putBytes (putBytes (putBytes (putBytes (putBytes
    (putBytes (putBytes (fun _ => 0)
    11 (leBytes 2 512)) 13 [1]) 14 (leBytes 2 1)) 16 [2]) 32 (leBytes 4 16)) 36 (leBytes 4 1))
    44 (leBytes 4 2)) 82 fat32Label) 510 [0x55, 0xAA])
    (512 + 8) (leBytes 4 fat32EocMark)) (1024 + 8) (leBytes 4 fat32EocMark)

/-- The image, mounted. -/
def smallVolume : FsState :=
  { data := smallImage
    present := true
    size := 16 * 512
    mode := .fat32
    fat := ⟨512, 1, 1, 2, 1, 16, 2, 3, 13⟩
    openFiles := fun _ => FsOpen.zero }

theorem fsMount_smallImage : fsMount smallImage true (16 * 512) = .ok smallVolume := by
  have hparse : fat32Parse { smallVolume with mode := .raw, fat := FatInfo.zero } =
      .ok (some smallVolume.fat) := by decide +kernel
  show (fat32Parse { smallVolume with mode := .raw, fat := FatInfo.zero } >>= _) = _
  rw [hparse]
  rfl

theorem smallVolume_rootDir : RootDir smallVolume [2] := by
  refine ⟨⟨⟨rfl, by decide, by decide, by decide, by decide, by decide, by decide, by decide,
    by decide⟩, by decide, by decide⟩, ⟨?_, ?_, nodup_singleton 2⟩, rfl, ?_⟩
  · show Eoc (next smallVolume 2)
    decide +kernel
  · intro c hc
    rw [mem_singleton.mp hc]
    exact ⟨by decide, by decide⟩
  · decide +kernel

/-- Every slot of the root directory is free. -/
theorem smallVolume_slots : ∀ q ∈ dirSlots smallVolume [2], smallVolume.data q = 0x00 := by
  decide +kernel

/-- The answer of a call. -/
def answer (fuel : ℕ) (s : FsState) (op : Op) : Option Ret := (exec fuel s op).toOption.map Prod.fst

/-- The state after a call. -/
def after (fuel : ℕ) (s : FsState) (op : Op) : FsState :=
  match exec fuel s op with
  | .ok (_, s') => s'
  | .error _ => s

variable {fuel : ℕ} {s : FsState}

theorem exec_of_answer {op : Op} {r : Ret}
    (h : answer fuel s op = some r) : exec fuel s op = .ok (r, after fuel s op) := by
  unfold answer at h
  unfold after
  cases hx : exec fuel s op with
  | error e =>
    rw [hx] at h
    cases h
  | ok x =>
    rw [hx] at h
    cases h
    rfl

/-- What `fs_open` answered. -/
theorem fsOpen_of_answer {path : List UInt8} {flags : ℕ} (fd : Option Slot)
    (h : answer fuel s (.open path flags) = some (Ret.ofOption .fd fd)) :
    fsOpen fuel s path flags = .ok (fd, after fuel s (.open path flags)) := by
  obtain ⟨⟨fd', t⟩, hopen, hret⟩ := map_ok.mp (exec_of_answer h)
  obtain ⟨hfd, ht⟩ := Prod.mk.inj hret
  have hsame : fd' = fd := by
    cases fd' <;> cases fd <;> cases hfd <;> rfl
  rw [hopen, hsame, ← ht]
  rfl

/-- A call that is evaluated with some fuel returns. -/
theorem returns_of_answer {op : Op} {r : Ret}
    (h : answer fuel s op = some r) : Returns (fun n => exec n s op) (r, after fuel s op) :=
  returns_of_approx (exec_approx s op) (exec_of_answer h)

/-- `/A`. -/
def pathA : List UInt8 := [0x2F, 0x41]

/-- The short name of `/A`. -/
def nameA : List UInt8 := 0x41 :: List.replicate 10 0x20

/-- `FS_O_RDWR | FS_O_CREAT`. -/
def rdwrCreat : ℕ := fsORdwr ||| fsOCreat

end ExoCore.Fat
