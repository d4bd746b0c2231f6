/-
  ExoCore.Fat.Volume — the volume stays WELL-FORMED.

  A volume is consistent when its clusters are parted into chains: one for the
  root directory, one for each file, and nothing linked besides.  The chains are
  ghost data, `chain none` for the directory and `chain (some o)` for the file of
  the slot `o`, and form a `Family` in the sense of `Lib.Chain`: a write extends
  one chain, a truncation drops one, a new file adds an empty one.

  Main results:
    • `Consistent.change` — what a call has to show about the ONE slot it touches;
    • `VolumeInv.exec`    — every call returns, and keeps the invariant;
    • `volume_consistent` — so does every run, as long as no `fs_open` that finds
      no descriptor truncates a file that is open.
-/
import ExoCore.Fat.Geometry
import ExoCore.Lib.Tables

namespace ExoCore.Fat

open ExoCore.Lib Function List

/-! ## §1. Consistency. -/

/-- The values `0x0FFFFFF0 .. 0x0FFFFFF7` and `1` link nothing. -/
def Reserved (v : ℕ) : Prop := v = 1 ∨ 0x0FFFFFF0 ≤ v ∧ v < fat32Eoc

/-- The owners of chains: the directory, and the slots that hold a file. -/
def owners (s : FsState) (root : List ℕ) : Set (Option ℕ) :=
  {k | ∀ o, k = some o → o ∈ dirSlots s root ∧ IsFile s.data o}

/-- **The volume is consistent**, with these chains. -/
structure Consistent (s : FsState) (chain : Option ℕ → List ℕ) : Prop where
  table : (s.fat.totalClusters + 2) * 4 ≤ s.fat.sectorsPerFat * s.fat.bytesPerSector
  before : s.fat.reservedSectors + s.fat.fatCount * s.fat.sectorsPerFat ≤ s.fat.firstDataSector
  copies : Copies s
  head : (chain none).head? = some s.fat.rootCluster
  family : Family (next s) Eoc Reserved 2 (s.fat.totalClusters + 2) (owners s (chain none)) chain
  first : ∀ o ∈ dirSlots s (chain none), IsFile s.data o →
    entryFirst s.data o = (chain (some o)).headD 0
  size : ∀ o ∈ dirSlots s (chain none), IsFile s.data o →
    entrySize s.data o ≤ (chain (some o)).length * clusterSize s
  tail : (dirSlots s (chain none)).Pairwise fun o q => s.data o = 0x00 → s.data q = 0x00

/-- **A well-formed volume.** -/
def WellFormed (s : FsState) : Prop := ∃ chain, Consistent s chain

/-- The volume is smaller than 4 GiB. -/
def Small (s : FsState) : Prop := s.fat.totalSectors * s.fat.bytesPerSector < 2 ^ 32

/-- What a descriptor says about its file. -/
structure Descriptor (s : FsState) (root : List ℕ) (f : FsOpen) : Prop where
  slot : f.dirEntryOffset ∈ dirSlots s root
  file : IsFile s.data f.dirEntryOffset
  first : f.firstCluster = entryFirst s.data f.dirEntryOffset
  size : f.size = entrySize s.data f.dirEntryOffset
  below : f.pos < 2 ^ 32

/-- **The invariant of a run**: a consistent volume below 4 GiB, and descriptors that
mirror the entries of different files. -/
structure VolumeInv (s : FsState) (chain : Option ℕ → List ℕ) : Prop where
  layout : Layout s
  small : dataStart s + s.fat.totalClusters * clusterSize s < 2 ^ 32
  mode : s.mode = .fat32
  volume : Consistent s chain
  descs : ∀ k, (s.openFiles k).used = true → Descriptor s (chain none) (s.openFiles k)
  single : ∀ j k, (s.openFiles j).used = true → (s.openFiles k).used = true →
    (s.openFiles j).dirEntryOffset = (s.openFiles k).dirEntryOffset → j = k

/-- **One file changed**: the slot `o` holds a file with the clusters `L`, and the volume is
consistent; the other slots and the clusters of the other files are as they were, and every
name is found where it was. -/
structure FileChange (s s' : FsState) (chain : Option ℕ → List ℕ) (o : ℕ) (L : List ℕ) : Prop where
  data : OnlyData s s'
  slot : o ∈ dirSlots s (chain none)
  other : ∀ q ∈ dirSlots s (chain none), q ≠ o → ∀ k, k < 32 → s'.data (q + k) = s.data (q + k)
  file : IsFile s'.data o
  volume : Consistent s' (update chain (some o) L)
  bytes : ∀ c, Valid s c → c ∉ chain none → c ∉ L → ∀ k, k < clusterSize s →
    cbyte s' c k = cbyte s c k
  names : ∀ name q, Finds s.data name (dirSlots s (chain none)) q →
    Finds s'.data name (dirSlots s (chain none)) q

section Consistent

variable {s s' : FsState} {chain : Option ℕ → List ℕ} {root L : List ℕ} {o : ℕ} {k : Option ℕ}

theorem none_mem_owners (s : FsState) (root : List ℕ) : none ∈ owners s root :=
  fun o h => by cases h

theorem some_mem_owners : some o ∈ owners s root ↔ o ∈ dirSlots s root ∧ IsFile s.data o :=
  ⟨fun h => h o rfl, fun h q hq => by cases hq; exact h⟩

/-- The directory keeps its chain. -/
theorem update_none (chain : Option ℕ → List ℕ) (o : ℕ) (L : List ℕ) :
    update chain (some o) L none = chain none := by
  rw [update_of_ne]
  exact nofun

theorem Consistent.held (h : Consistent s chain) (hk : k ∈ owners s (chain none)) :
    Held s (chain k) :=
  ⟨h.family.linked k hk, h.family.range k hk, h.family.nodup k hk⟩

theorem VolumeInv.rootDir (h : VolumeInv s chain) : RootDir s (chain none) := by
  have hheld := h.volume.held (none_mem_owners s _)
  refine ⟨h.layout, hheld, h.volume.head, fun o ho => ?_⟩
  obtain ⟨c, hc, k, rfl, hk⟩ := slot_cluster ho
  obtain ⟨h1, h2⟩ := hheld.valid c hc
  have hend := h.layout.cluster_succ ⟨h1, h2⟩ (show c - 2 < s.fat.totalClusters by omega)
  have := h.small
  omega

/-- The chain of a file does not meet the directory. -/
theorem Consistent.apart (h : Consistent s chain) (ho : o ∈ dirSlots s (chain none))
    (hf : IsFile s.data o) : ∀ c ∈ chain none, c ∉ chain (some o) :=
  h.family.apart none (none_mem_owners s _) (some o) (some_mem_owners.mpr ⟨ho, hf⟩) nofun

/-- What has to be shown about the slot. -/
theorem Consistent.change (h : Consistent s chain) (hd : OnlyData s s') (hcop : Copies s')
    (ho : o ∈ dirSlots s (chain none))
    (hother : ∀ q ∈ dirSlots s (chain none), q ≠ o → ∀ k, k < 32 →
      s'.data (q + k) = s.data (q + k))
    (hfile : IsFile s'.data o)
    (hfam : Family (next s') Eoc Reserved 2 (s.fat.totalClusters + 2)
      (insert (some o) (owners s (chain none))) (update chain (some o) L))
    (hfirst : entryFirst s'.data o = L.headD 0)
    (hsize : entrySize s'.data o ≤ L.length * clusterSize s)
    (htail : (dirSlots s (chain none)).Pairwise fun p q => s'.data p = 0x00 → s'.data q = 0x00) :
    Consistent s' (update chain (some o) L) := by
  have hroot : update chain (some o) L none = chain none := update_none chain o L
  have hkeys : owners s' (chain none) = insert (some o) (owners s (chain none)) := by
    ext k
    cases k with
    | none => exact iff_of_true (none_mem_owners _ _) (.inr (none_mem_owners _ _))
    | some q =>
      rw [Set.mem_insert_iff, some_mem_owners, some_mem_owners, hd.dirSlots]
      by_cases hqo : q = o
      · subst hqo
        exact iff_of_true ⟨ho, hfile⟩ (.inl rfl)
      · have hne : some q ≠ some o := fun hq => hqo (Option.some.inj hq)
        rw [or_iff_right hne]
        refine and_congr_right fun hq => isFile_congr fun k hk => ?_
        exact hother q hq hqo k (by omega)
  -- the entries: the one that is written, and the others
  have hentry : ∀ q ∈ dirSlots s (chain none), IsFile s'.data q →
      entryFirst s'.data q = (update chain (some o) L (some q)).headD 0 ∧
      entrySize s'.data q ≤ (update chain (some o) L (some q)).length * clusterSize s := by
    intro q hq hqf
    by_cases hqo : q = o
    · rw [hqo, update_self]
      exact ⟨hfirst, hsize⟩
    · have hsame := hother q hq hqo
      have hqf := (isFile_congr fun k hk => hsame k (by omega)).mp hqf
      rw [update_of_ne (fun hq => hqo (Option.some.inj hq)),
        entryFirst_congr fun k _ hk => hsame k (by omega), entrySize_congr fun k _ hk => hsame k hk]
      exact ⟨h.first q hq hqf, h.size q hq hqf⟩
  refine ⟨by rw [hd.fat]; exact h.table, by rw [hd.fat]; exact h.before, hcop, ?_, ?_, ?_, ?_, ?_⟩
  · rw [hroot, hd.fat]
    exact h.head
  · rw [hroot, hkeys, hd.fat]
    exact hfam
  · rw [hroot, hd.dirSlots]
    exact fun q hq hqf => (hentry q hq hqf).1
  · rw [hroot, hd.dirSlots, hd.clusterSize]
    exact fun q hq hqf => (hentry q hq hqf).2
  · rw [hroot, hd.dirSlots]
    exact htail

/-- A descriptor on another file. -/
theorem Descriptor.change {f : FsOpen} (h : Descriptor s root f) (hd : OnlyData s s')
    (hsame : ∀ k, k < 32 → s'.data (f.dirEntryOffset + k) = s.data (f.dirEntryOffset + k)) :
    Descriptor s' root f := by
  refine ⟨?_, (isFile_congr fun k hk => hsame k (by omega)).mpr h.file, ?_, ?_, h.below⟩
  · rw [hd.dirSlots]
    exact h.slot
  · rw [entryFirst_congr fun k _ hk => hsame k (by omega)]
    exact h.first
  · rw [entrySize_congr fun k _ hk => hsame k hk]
    exact h.size

end Consistent

/-! ## §2. The three changes. -/

section Changes

variable {s s₁ : FsState} {chain : Option ℕ → List ℕ} {new : List ℕ} {o n pos size : ℕ}
  {bf : ℕ → UInt8} {name : List UInt8}

/-- The clusters of a file are freed, and none of the directory. -/
theorem RootDir.truncated {root L : List ℕ} (hr : RootDir s root) (hap : ∀ c ∈ root, c ∉ L)
    (hch : Changes s s₁ (fun e => if e ∈ L then 0 else next s e) (cbyte s)) : RootDir s₁ root := by
  refine hr.congr hch.data fun c hc => ?_
  rw [hch.next c (hr.held.valid c hc), if_neg (hap c hc)]

/-- **The entry is written** for the clusters `L`, over a volume `s₁` with the slots of `s`. -/
theorem Consistent.entered {L : List ℕ} (h : Consistent s chain) (ho : o ∈ dirSlots s (chain none))
    (hf : IsFile s.data o) (hd : OnlyData s s₁) (hcop : Copies s₁) (hr₁ : RootDir s₁ (chain none))
    (hslot : ∀ q ∈ dirSlots s (chain none), ∀ k, k < 32 → s₁.data (q + k) = s.data (q + k))
    (hbytes : ∀ c, Valid s c → c ∉ L → ∀ k, k < clusterSize s → cbyte s₁ c k = cbyte s c k)
    (hfam : Family (next s₁) Eoc Reserved 2 (s.fat.totalClusters + 2) (owners s (chain none))
      (update chain (some o) L)) (hhead : L.headD 0 < 2 ^ 32) (hword : size < 2 ^ 32)
    (hsize : size ≤ L.length * clusterSize s) :
    FileChange s (s₁.enter o (L.headD 0) size) chain o L := by
  have ho₁ : o ∈ dirSlots s₁ (chain none) := hd.dirSlots ▸ ho
  have hput : ∀ a, a < o ∨ o + 32 ≤ a → putEntry s₁.data o (L.headD 0) size a = s₁.data a :=
    fun a ha => putEntry_apart (by omega)
  have hch := hr₁.entry_changes ho₁ hput
  have hother : ∀ q ∈ dirSlots s (chain none), q ≠ o → ∀ k, k < 32 →
      (s₁.enter o (L.headD 0) size).data (q + k) = s.data (q + k) := fun q hq hqo k hk =>
    (hr₁.entry_slot ho₁ hput (hd.dirSlots ▸ hq) hqo k hk).trans (hslot q hq k hk)
  have hname : ∀ q ∈ dirSlots s (chain none), ∀ k, k < 12 →
      (s₁.enter o (L.headD 0) size).data (q + k) = s.data (q + k) := fun q hq k hk =>
    (hr₁.enter_name ho₁ _ _ (hd.dirSlots ▸ hq) k hk).trans (hslot q hq k (by omega))
  have hfile : IsFile (s₁.enter o (L.headD 0) size).data o := (isFile_congr (hname o ho)).mpr hf
  refine ⟨hd.trans hch.data, ho, hother, hfile, ?_, fun c hv hroot hL k hk => ?_,
    fun name q hfinds => hfinds.congr hname⟩
  · refine h.change (hd.trans hch.data) (hch.copies hcop) ho hother hfile ?_
      (entryFirst_putEntry hhead) ((entrySize_putEntry hword).trans_le hsize)
      (h.tail.imp_of_mem fun {p q} hp hq hpq => ?_)
    · rw [Set.insert_eq_of_mem (some_mem_owners.mpr ⟨ho, hf⟩)]
      exact hfam.congr fun c h1 h2 => hch.next c (hd.valid.mpr ⟨h1, h2⟩)
    · have hfirst := fun x hx => hname x hx 0 (by omega)
      simp only [Nat.add_zero] at hfirst
      rw [hfirst p hp, hfirst q hq]
      exact hpq
  · rw [← hbytes c hv hL k hk]
    exact hr₁.entry_cbyte ho₁ hput (hd.valid.mpr hv) hroot (hd.clusterSize ▸ hk)

/-- **A write**: the chain of the file grows. -/
theorem Consistent.wrote (h : Consistent s chain) (hr : RootDir s (chain none))
    (ho : o ∈ dirSlots s (chain none)) (hf : IsFile s.data o)
    (hw : Wrote s s₁ (chain (some o)) new pos n bf)
    (hsize : size ≤ (chain (some o) ++ new).length * clusterSize s) (hword : size < 2 ^ 32) :
    FileChange s (s₁.enter o ((chain (some o) ++ new).headD 0) size) chain o
      (chain (some o) ++ new) := by
  have hap := h.apart ho hf
  have hr₁ := hr.wrote hw hap
  refine h.entered ho hf hw.data (hw.copies h.copies) hr₁ (fun q hq => hr.wrote_slot hw hap hq)
    hw.other ?_ (hw.held.head_lt hr₁.layout) hword hsize
  refine h.family.extend (by omega) not_eoc_zero (some_mem_owners.mpr ⟨ho, hf⟩)
    (fun c hc => ⟨?_, hw.free c hc⟩) hw.held.nodup hw.held.chain fun c h1 h2 => hw.next c ⟨h1, h2⟩
  exact hw.data.valid.mp (hw.held.valid c (mem_append_right _ hc))

/-- **A truncation**: the chain of the file is freed. -/
theorem Consistent.truncated (h : Consistent s chain) (hr : RootDir s (chain none))
    (ho : o ∈ dirSlots s (chain none)) (hf : IsFile s.data o)
    (hch : Changes s s₁ (fun e => if e ∈ chain (some o) then 0 else next s e) (cbyte s)) :
    FileChange s (s₁.enter o 0 0) chain o [] := by
  have hkey : some o ∈ owners s (chain none) := some_mem_owners.mpr ⟨ho, hf⟩
  refine h.entered (L := []) ho hf hch.data (hch.copies h.copies) (hr.truncated (h.apart ho hf) hch)
    (fun q hq => slot_same hch.data (fun c hc => hch.byte c (hr.held.valid c hc)) hq)
    (fun c hv _ => hch.byte c hv) ?_ (by norm_num) (by norm_num) (Nat.zero_le _)
  refine h.family.drop hkey (fun c hc => ?_) fun c h1 h2 hc => ?_
  · obtain ⟨h1, h2⟩ := h.family.range _ hkey c hc
    rw [hch.next c ⟨h1, h2⟩, if_pos hc]
  · rw [hch.next c ⟨h1, h2⟩, if_neg hc]

/-- **A new file** with an empty chain, in the first vacant slot. -/
theorem Consistent.created (h : Consistent s chain) (hr : RootDir s (chain none))
    {pre post : List ℕ} (hv : Vacant s.data o)
    (hslots : dirSlots s (chain none) = pre ++ o :: post) (hpre : ∀ q ∈ pre, Skips s.data name q)
    (hnone : ∀ q, ¬ Finds s.data name (dirSlots s (chain none)) q)
    (hlen : name.length = 11) (h0 : name.getD 0 0 ≠ 0x00) (h5 : name.getD 0 0 ≠ 0xE5) :
    FileChange s { s with data := newEntry s.data o name } chain o [] := by
  have ho : o ∈ dirSlots s (chain none) := by
    rw [hslots]
    exact mem_append_right pre mem_cons_self
  have hd : ∀ a, a < o ∨ o + 32 ≤ a → newEntry s.data o name a = s.data a :=
    fun a ha => newEntry_apart hlen ha
  have hch := hr.entry_changes ho hd
  have hm := newEntry_matches (d := s.data) (o := o) hlen h0 h5
  have hother : ∀ q ∈ dirSlots s (chain none), q ≠ o → ∀ k, k < 32 →
      newEntry s.data o name (q + k) = s.data (q + k) :=
    fun q hq hqo => hr.entry_slot ho hd hq hqo
  refine ⟨hch.data, ho, hother, hm.1, ?_,
    fun c hcv hroot _ k hk => hr.entry_cbyte ho hd hcv hroot hk, fun nm q hfinds => ?_⟩
  · have hkey : some o ∉ owners s (chain none) :=
      fun hmem => hv.not_isFile (some_mem_owners.mp hmem).2
    refine h.change hch.data (hch.copies h.copies) ho hother hm.1 ?_
      entryFirst_newEntry (entrySize_newEntry.trans_le (Nat.zero_le _)) ?_
    · exact (h.family.insert hkey).congr fun c h1 h2 => hch.next c ⟨h1, h2⟩
    · -- no slot in front of the new entry is free, so the zeros stay behind it
      have hnodup := nodup_dirSlots hr.layout hr.held
      have htail := h.tail
      rw [hslots] at hnodup htail hother ⊢
      exact zeros_fill hnodup htail (fun q hq => (hpre q hq).1) hm.1.1
        fun q hq hqo => hother q hq hqo 0 (by omega)
  · -- the new entry stands in front of a name at most, and has another name
    have hname : nm ≠ name := fun heq => hnone q (heq ▸ hfinds)
    have hqo : q ≠ o := fun hqo => hv.not_isFile (hqo ▸ hfinds.isFile)
    obtain ⟨pre', post', hslots', hpre', hq⟩ := hfinds
    have hsame : ∀ x ∈ pre' ++ q :: post', x ≠ o → ∀ k, k < 12 →
        newEntry s.data o name (x + k) = s.data (x + k) :=
      fun x hx hxo k hk => hother x (hslots' ▸ hx) hxo k (by omega)
    refine ⟨pre', post', hslots', fun x hx => ?_, (matches_congr (hsame q (by simp) hqo)).mpr hq⟩
    by_cases hxo : x = o
    · rw [hxo]
      exact ⟨hm.1.1, fun hm' => hname (hm'.2.symm.trans hm.2)⟩
    · exact (skips_congr (hsame x (mem_append_left _ hx) hxo)).mpr (hpre' x hx)

end Changes

/-! ## §3. Opening and writing. -/

/-- **What `fs_open` does before it takes a descriptor**: the file is there, and stays or is
cut; or it is made. -/
inductive Reaches (s : FsState) (chain : Option ℕ → List ℕ) (name : List UInt8) (flags o : ℕ) :
    FsState → (Option ℕ → List ℕ) → Prop
  | found (hfinds : Finds s.data name (dirSlots s (chain none)) o)
      (htrunc : hasFlag flags fsOTrunc = false) : Reaches s chain name flags o s chain
  | truncated {s₁ : FsState} (hfinds : Finds s.data name (dirSlots s (chain none)) o)
      (htrunc : hasFlag flags fsOTrunc = true) (hc : FileChange s s₁ chain o []) :
      Reaches s chain name flags o s₁ (update chain (some o) [])
  | created {s₁ : FsState} (hv : Vacant s.data o) (hc : FileChange s s₁ chain o [])
      (hfinds : Finds s₁.data name (dirSlots s (chain none)) o) :
      Reaches s chain name flags o s₁ (update chain (some o) [])

/-- **How `fs_open` ends**: without an entry, without a descriptor, or with both. -/
inductive OpenDone (s : FsState) (chain : Option ℕ → List ℕ) (path : List UInt8) (flags : ℕ) :
    Ret → FsState → (Option ℕ → List ℕ) → Prop
  | refused : OpenDone s chain path flags .fail s chain
  | full {name : List UInt8} {o : ℕ} {s₁ : FsState} {chain' : Option ℕ → List ℕ}
      (hname : makeShortName path = some name) (hr : Reaches s chain name flags o s₁ chain')
      (hall : ∀ k, (s.openFiles k).used = true) : OpenDone s chain path flags .fail s₁ chain'
  | opened {name : List UInt8} {o : ℕ} {s₁ : FsState} {chain' : Option ℕ → List ℕ}
      (hname : makeShortName path = some name) (hr : Reaches s chain name flags o s₁ chain')
      (k : Slot) : OpenDone s chain path flags (.fd k) (s₁.setOpen k (opened s₁ o flags)) chain'

section Open

variable {s s₁ : FsState} {chain chain' : Option ℕ → List ℕ} {path name : List UInt8} {flags o : ℕ}

theorem Reaches.data (h : Reaches s chain name flags o s₁ chain') : OnlyData s s₁ := by
  cases h with
  | found => exact OnlyData.refl s
  | truncated _ _ hc => exact hc.data
  | created _ hc => exact hc.data

/-- The file is there afterwards. -/
theorem Reaches.finds (h : Reaches s chain name flags o s₁ chain') :
    Finds s₁.data name (dirSlots s₁ (chain' none)) o := by
  have hd := h.data
  cases h with
  | found hfinds => exact hfinds
  | truncated hfinds _ hc =>
    rw [update_none, hd.dirSlots]
    exact hc.names name o hfinds
  | created _ _ hfinds =>
    rw [update_none, hd.dirSlots]
    exact hfinds

variable (h : Consistent s chain) (hr : RootDir s (chain none))
include h hr

/-- The entry of `fs_open`, if it has one. -/
theorem Consistent.openEntry (hname : makeShortName path = some name) (flags : ℕ) :
    (∀ fuel, (chain none).length ≤ fuel → openEntry fuel s name flags = .ok (none, s)) ∨
    ∃ o s₁ bound, OnlyData s s₁ ∧ Has s o 32 ∧
      (∀ fuel, bound ≤ fuel → Fat.openEntry fuel s name flags = .ok (some o, s₁)) ∧
      (firstByte path ≠ some 0xE5 → ∃ chain', Reaches s chain name flags o s₁ chain') := by
  have hlen := makeShortName_length hname
  obtain ⟨h0, h5⟩ := makeShortName_first hname
  by_cases hfind : ∃ o, Finds s.data name (dirSlots s (chain none)) o
  · obtain ⟨o, hfinds⟩ := hfind
    have ho := hfinds.mem
    have hf := hfinds.isFile
    have hhas := slot_has hr.layout hr.held ho
    have hopen := fun fuel (hfuel : (chain none).length ≤ fuel) =>
      openEntry_found hr hfuel flags hfinds
    cases htrunc : hasFlag flags fsOTrunc with
    | false =>
      rw [htrunc] at hopen
      exact .inr ⟨o, s, _, OnlyData.refl s, hhas, hopen, fun _ => ⟨_, .found hfinds htrunc⟩⟩
    | true =>
      obtain ⟨s₁, hch, hret⟩ := truncEntry_spec hr (h.held (some_mem_owners.mpr ⟨ho, hf⟩)) ho
        (h.first o ho hf)
      have hc := h.truncated hr ho hf hch
      refine .inr ⟨o, s₁.enter o 0 0, max (chain none).length (chain (some o)).length, hc.data, hhas,
        fun fuel hfuel => ?_, fun _ => ⟨_, .truncated hfinds htrunc hc⟩⟩
      rw [hopen fuel (by omega), htrunc, hret fuel (by omega)]
      rfl
  · push Not at hfind
    obtain ⟨o, hfinds⟩ | hnone | ⟨o, -, hv, ⟨pre, post, hslots, hpre⟩, hopen⟩ :=
      openEntry_spec hr hlen flags
    · exact absurd hfinds (hfind o)
    · exact .inl hnone
    · have ho : o ∈ dirSlots s (chain none) := by
        rw [hslots]
        exact mem_append_right pre mem_cons_self
      refine .inr ⟨o, _, _, ⟨_, rfl⟩, slot_has hr.layout hr.held ho, hopen, fun hbyte => ?_⟩
      have h5 : name.getD 0 0 ≠ 0xE5 := fun hb => hbyte (h5 hb)
      exact ⟨_, .created hv (h.created hr hv hslots hpre hfind hlen h0 h5)
        (hr.finds_newEntry hslots hpre hlen h0 h5)⟩

/-- **`fs_open` returns**, and is accounted for if the name may be given to a file. -/
theorem Consistent.open (hmode : s.mode = .fat32) (path : List UInt8) (flags : ℕ) :
    ∃ r s', Returns (fun fuel => exec fuel s (.open path flags)) (r, s') ∧
      (firstByte path ≠ some 0xE5 → ∃ chain', OpenDone s chain path flags r s' chain') := by
  cases hname : makeShortName path with
  | none =>
    exact ⟨.fail, s, ⟨0, fun _ _ => exec_open_unnamed hmode hname flags⟩, fun _ => ⟨_, .refused⟩⟩
  | some name =>
    obtain hnone | ⟨o, s₁, bound, hd, hhas, hopen, hreach⟩ := h.openEntry hr hname flags
    · exact ⟨.fail, s, ⟨_, fun fuel hfuel => exec_open hmode hname (hnone fuel hfuel)⟩,
        fun _ => ⟨_, .refused⟩⟩
    · obtain ⟨hfail, hall⟩ | ⟨k, hfd⟩ := returns_open hmode hname hopen (hd.has.mpr hhas)
      · refine ⟨.fail, s₁, hfail, fun hbyte => ?_⟩
        obtain ⟨chain', hreach⟩ := hreach hbyte
        exact ⟨chain', .full hname hreach (hd.openFiles ▸ hall)⟩
      · refine ⟨.fd k, _, hfd, fun hbyte => ?_⟩
        obtain ⟨chain', hreach⟩ := hreach hbyte
        exact ⟨chain', .opened hname hreach k⟩

/-- **`fs_write_fd` past its checks**, through a descriptor that mirrors its entry: nothing, on
a full volume; otherwise a change of its file. -/
theorem Consistent.write {slot : Slot} (hdesc : Descriptor s (chain none) (s.openFiles slot))
    (ho : (s.openFiles slot).dirEntryOffset = o) (buf : List UInt8)
    (hword : (s.openFiles slot).pos + buf.length < 2 ^ 32 ∨
      s.fat.totalClusters * clusterSize s < 2 ^ 32) :
    (∀ fuel, writeFile fuel s slot buf = .ok (none, s)) ∨
    ∃ n new s₁, Wrote s s₁ (chain (some o)) new (s.openFiles slot).pos n
        (fun p => buf.getD (p - (s.openFiles slot).pos) 0) ∧ n ≤ buf.length ∧
      (afterWrite (s.openFiles slot) n).pos < 2 ^ 32 ∧
      (afterWrite (s.openFiles slot) n).size < 2 ^ 32 ∧
      FileChange s (s₁.enter o ((chain (some o) ++ new).headD 0)
        (afterWrite (s.openFiles slot) n).size) chain o (chain (some o) ++ new) ∧
      ∀ fuel, buf.length < fuel → writeFile fuel s slot buf = .ok (some n,
        (s₁.enter o ((chain (some o) ++ new).headD 0)
          (afterWrite (s.openFiles slot) n).size).setOpen slot
          (written (s.openFiles slot) (chain (some o) ++ new) n)) := by
  subst ho
  obtain ⟨hslot, hfile, hfirst, hsize, hbelow⟩ := hdesc
  obtain ⟨-, -, hnone⟩ | ⟨n, new, s₁, hw, -, hn, -, hdone⟩ := writeFile_spec buf hr
    (h.held (some_mem_owners.mpr ⟨hslot, hfile⟩)) hslot (hfirst.trans (h.first _ hslot hfile)) hbelow
    hword
  · exact .inl hnone
  · obtain ⟨hpos, hlt⟩ := hw.words (hword.imp_left fun hend => by omega) hbelow
      (hsize ▸ entrySize_lt _ _)
    have hfits := hw.size_fits (hsize.trans_le (h.size _ hslot hfile))
    exact .inr ⟨n, new, s₁, hw, hn, hpos, hlt, h.wrote hr hslot hfile hw hfits hlt, hdone⟩

end Open

/-! ## §4. The descriptors. -/

section Descriptors

variable {s s₁ : FsState} {chain : Option ℕ → List ℕ} {L : List ℕ} {o : ℕ} {k : Slot} {f : FsOpen}

theorem Consistent.setOpen (h : Consistent s chain) (k : Slot) (f : FsOpen) :
    Consistent (s.setOpen k f) chain :=
  { h with }

section

variable (h : VolumeInv s chain)
include h

/-- A descriptor is filled in, or given back. -/
theorem VolumeInv.setOpen
    (hf : f.used = true → Descriptor s (chain none) f ∧
      ∀ j, j ≠ k → (s.openFiles j).used = true → (s.openFiles j).dirEntryOffset ≠ f.dirEntryOffset) :
    VolumeInv (s.setOpen k f) chain := by
  have hdesc : ∀ {g : FsOpen}, Descriptor s (chain none) g →
      Descriptor (s.setOpen k f) (chain none) g :=
    fun hg => { hg with }
  refine ⟨(h.rootDir.setOpen k f).layout, h.small, h.mode, h.volume.setOpen k f, fun j hj => ?_, ?_⟩
  · by_cases hjk : j = k
    · subst hjk
      rw [setOpen_self] at hj ⊢
      exact hdesc (hf hj).1
    · rw [setOpen_of_ne s f hjk] at hj ⊢
      exact hdesc (h.descs j hj)
  · -- two descriptors on one file are one descriptor
    refine distinct_write (·.used = true) FsOpen.dirEntryOffset k h.single
      (fun j hj => setOpen_of_ne s f hj) ?_
    rw [setOpen_self]
    exact fun hused => (hf hused).2

/-- The slot `o` changes, and no descriptor is on it. -/
theorem VolumeInv.change (hc : FileChange s s₁ chain o L)
    (hfree : ∀ j, (s.openFiles j).used = true → (s.openFiles j).dirEntryOffset ≠ o) :
    VolumeInv s₁ (update chain (some o) L) := by
  have hd := hc.data
  refine ⟨hd.layout h.layout, ?_, ?_, hc.volume, ?_, ?_⟩
  · have := h.small
    unfold dataStart at this ⊢
    rw [hd.fat, hd.clusterSize]
    exact this
  · rw [hd.mode]
    exact h.mode
  · rw [hd.openFiles, update_none]
    intro j hj
    have hdesc := h.descs j hj
    exact hdesc.change hd (hc.other _ hdesc.slot (hfree j hj))
  · rw [hd.openFiles]
    exact h.single

/-- The slot of the descriptor `k` changes, and the descriptor with it: take it away for
the time between. -/
theorem VolumeInv.update (hk : (s.openFiles k).used = true)
    (hc : FileChange s s₁ chain (s.openFiles k).dirEntryOffset L)
    (hf : Descriptor s₁ (chain none) f) (ho : f.dirEntryOffset = (s.openFiles k).dirEntryOffset) :
    VolumeInv (s₁.setOpen k f) (update chain (some (s.openFiles k).dirEntryOffset) L) := by
  have hother : ∀ j, ((s.setOpen k FsOpen.zero).openFiles j).used = true →
      j ≠ k ∧ (s.openFiles j).used = true ∧
      ((s.setOpen k FsOpen.zero).openFiles j).dirEntryOffset ≠ (s.openFiles k).dirEntryOffset := by
    intro j hj
    by_cases hjk : j = k
    · rw [hjk, setOpen_self] at hj
      cases hj
    · rw [setOpen_of_ne s _ hjk] at hj ⊢
      exact ⟨hjk, hj, fun hjo => hjk (h.single j k hj hk hjo)⟩
  have hdata : OnlyData (s.setOpen k FsOpen.zero) (s₁.setOpen k FsOpen.zero) := by
    obtain ⟨d, rfl⟩ := hc.data
    exact ⟨d, rfl⟩
  have hc' : FileChange (s.setOpen k FsOpen.zero) (s₁.setOpen k FsOpen.zero) chain
      (s.openFiles k).dirEntryOffset L :=
    { hc with data := hdata, volume := hc.volume.setOpen k _ }
  have h₁ := (h.setOpen (k := k) (f := FsOpen.zero) nofun).change hc' fun j hj => (hother j hj).2.2
  have hidem : (s₁.setOpen k FsOpen.zero).setOpen k f = s₁.setOpen k f :=
    congrArg (fun g => { s₁ with openFiles := g }) (update_idem _ _ _)
  rw [← hidem]
  refine h₁.setOpen fun _ => ⟨?_, fun j hjk hj => ?_⟩
  · rw [update_none]
    exact { hf with }
  · rw [hdata.openFiles] at hj ⊢
    rw [ho]
    exact (hother j hj).2.2

/-- A new descriptor, on a file without one. -/
theorem VolumeInv.claim (ho : o ∈ dirSlots s (chain none)) (hf : IsFile s.data o)
    (hfree : ∀ j, (s.openFiles j).used = true → (s.openFiles j).dirEntryOffset ≠ o) (k : Slot)
    (flags : ℕ) : VolumeInv (s.setOpen k (opened s o flags)) chain := by
  exact h.setOpen fun _ => ⟨⟨ho, hf, rfl, rfl, opened_pos_lt s o flags⟩, fun j _ hj => hfree j hj⟩

end

end Descriptors

/-! ## §5. The calls. -/

/-- The descriptor `k` is on the file that `path` names. -/
def OnFile (s : FsState) (path : List UInt8) (k : Slot) : Prop :=
  (s.openFiles k).used = true ∧
    makeShortName path = some (getBytes s.data (s.openFiles k).dirEntryOffset 11)

instance (s : FsState) (path : List UInt8) (k : Slot) : Decidable (OnFile s path k) :=
  inferInstanceAs (Decidable (_ ∧ _))

/-- The calls considered: no name begins with `0xE5`, and no file is opened while another
descriptor on it is open. -/
def Allowed (s : FsState) : Op → Ret → Prop
  | .open path _, .fd _ => firstByte path ≠ some 0xE5 ∧ ∀ j, ¬ OnFile s path j
  | .open path _, _ => firstByte path ≠ some 0xE5
  | _, _ => True

instance (s : FsState) (op : Op) (r : Ret) : Decidable (Allowed s op r) := by
  cases op <;> cases r <;> unfold Allowed <;> infer_instance

/-- Without a free descriptor, `fs_open` does not truncate a file that is open. -/
def KeepsOpen (s : FsState) : Op → Prop
  | .open path flags => (∀ k, (s.openFiles k).used = true) → hasFlag flags fsOTrunc = true →
      ∀ j, ¬ OnFile s path j
  | _ => True

/-- What a call does to a well-formed volume. -/
def Keeps (s : FsState) (op : Op) : Prop :=
  ∃ r s', Returns (fun fuel => exec fuel s op) (r, s') ∧
    (Allowed s op r → KeepsOpen s op → ∃ chain, VolumeInv s' chain)

section Calls

variable {s : FsState} {chain : Option ℕ → List ℕ} {path name : List UInt8} {fd : ℤ} {slot : Slot}
  {o flags : ℕ}

theorem VolumeInv.keeps (h : VolumeInv s chain) {op : Op} {r : Ret}
    (hret : ∀ fuel, exec fuel s op = .ok (r, s)) : Keeps s op :=
  ⟨r, s, ⟨0, fun fuel _ => hret fuel⟩, fun _ _ => ⟨chain, h⟩⟩

/-- No descriptor is on the file that is found, unless the call says so. -/
theorem Finds.not_open {root : List ℕ} (hfinds : Finds s.data name (dirSlots s root) o)
    (hname : makeShortName path = some name) (hnot : ∀ j, ¬ OnFile s path j) (j : Slot)
    (hj : (s.openFiles j).used = true) : (s.openFiles j).dirEntryOffset ≠ o := by
  intro hjo
  obtain ⟨_, _, _, _, hm⟩ := hfinds
  refine hnot j ⟨hj, ?_⟩
  rw [hjo, hm.2]
  exact hname

theorem Allowed.byte {r : Ret} (h : Allowed s (.open path flags) r) : firstByte path ≠ some 0xE5 := by
  cases r with
  | fd k => exact h.1
  | _ => exact h

section

variable (h : VolumeInv s chain)
include h

/-- No descriptor is on the file that `fs_open` works on. -/
theorem VolumeInv.unopened {s₁ : FsState} {chain' : Option ℕ → List ℕ}
    (hname : makeShortName path = some name) (hr : Reaches s chain name flags o s₁ chain')
    (hnot : ∀ j, ¬ OnFile s path j) (j : Slot) (hj : (s.openFiles j).used = true) :
    (s.openFiles j).dirEntryOffset ≠ o := by
  cases hr with
  | found hfinds => exact hfinds.not_open hname hnot j hj
  | truncated hfinds => exact hfinds.not_open hname hnot j hj
  | created hv =>
    -- descriptors are on files, not on vacant slots
    exact fun hjo => hv.not_isFile (hjo ▸ (h.descs j hj).file)

/-- `fs_open` keeps the invariant up to the descriptor. -/
theorem VolumeInv.reached {s₁ : FsState} {chain' : Option ℕ → List ℕ}
    (hname : makeShortName path = some name) (hr : Reaches s chain name flags o s₁ chain')
    (hnot : hasFlag flags fsOTrunc = true → ∀ j, ¬ OnFile s path j) : VolumeInv s₁ chain' := by
  cases hr with
  | found => exact h
  | truncated hfinds htrunc hc => exact h.change hc (hfinds.not_open hname (hnot htrunc))
  | created hv hc => exact h.change hc fun j hj hjo => hv.not_isFile (hjo ▸ (h.descs j hj).file)

/-- **`fs_open`.** -/
theorem VolumeInv.open (path : List UInt8) (flags : ℕ) : Keeps s (.open path flags) := by
  obtain ⟨r, s', hret, hdone⟩ := h.volume.open h.rootDir h.mode path flags
  refine ⟨r, s', hret, fun hok hkeep => ?_⟩
  obtain ⟨chain', hdone⟩ := hdone hok.byte
  refine ⟨chain', ?_⟩
  cases hdone with
  | refused => exact h
  | full hname hr hall => exact h.reached hname hr (hkeep hall)
  | opened hname hr k =>
    have hnone := h.unopened hname hr hok.2
    rw [← hr.data.openFiles] at hnone
    exact (h.reached hname hr fun _ => hok.2).claim hr.finds.mem hr.finds.isFile hnone k flags

/-- **`fs_write_fd`** past its checks. -/
theorem VolumeInv.writeSlot (hslot : openSlot s fd = some slot)
    (hwr : Writable (s.openFiles slot).flags) (buf : List UInt8) :
    Keeps s (.write fd (some buf)) := by
  have hused := openSlot_used hslot
  have hdesc := h.descs slot hused
  have hword : s.fat.totalClusters * clusterSize s < 2 ^ 32 := by
    have := h.small
    omega
  obtain hret | ⟨n, new, s₁, -, -, hpos, hlt, hc, hret⟩ :=
    h.volume.write h.rootDir hdesc rfl buf (.inr hword)
  · exact ⟨.fail, s, returns_write (b := 0) h.mode hslot hwr fun fuel _ => hret fuel,
      fun _ _ => ⟨chain, h⟩⟩
  · have hdesc' : Descriptor (s₁.enter (s.openFiles slot).dirEntryOffset
        ((chain (some (s.openFiles slot).dirEntryOffset) ++ new).headD 0)
        (afterWrite (s.openFiles slot) n).size) (chain none)
        (written (s.openFiles slot) (chain (some (s.openFiles slot).dirEntryOffset) ++ new) n) := by
      refine ⟨hc.data.dirSlots ▸ hdesc.slot, hc.file, ?_, (entrySize_putEntry hlt).symm, hpos⟩
      have := hc.volume.first _ (by rw [update_none, hc.data.dirSlots]; exact hdesc.slot) hc.file
      rw [update_self] at this
      exact this.symm
    exact ⟨.count n, _, returns_write h.mode hslot hwr hret, fun _ _ =>
      ⟨_, h.update hused hc hdesc' rfl⟩⟩

/-- A descriptor moves its cursor. -/
theorem VolumeInv.seek (hused : (s.openFiles slot).used = true) {p : ℕ} (hp : p < 2 ^ 32) :
    VolumeInv (s.setOpen slot { s.openFiles slot with pos := p }) chain := by
  have hdesc := h.descs slot hused
  refine h.setOpen fun _ => ⟨{ hdesc with below := hp }, fun j hj hu ho => ?_⟩
  exact hj (h.single j slot hu hused ho)

theorem VolumeInv.moved {s' : FsState} (hm : Moved s s') : VolumeInv s' chain := by
  obtain rfl | ⟨slot, p, hused, hp, rfl⟩ := hm
  · exact h
  · exact h.seek hused (hp (h.descs slot hused).below)

/-- **Every call returns, and keeps the invariant.** -/
theorem VolumeInv.exec (op : Op) : Keeps s op := by
  cases op with
  | «open» path flags => exact h.open path flags
  | read fd buf len =>
    obtain hfail | ⟨slot, hslot, rfl⟩ := exec_read_cases h.mode fd buf len
    · exact h.keeps hfail
    · have hdesc := h.descs slot (openSlot_used hslot)
      have hkey := some_mem_owners.mpr ⟨hdesc.slot, hdesc.file⟩
      have hsize : (s.openFiles slot).size < 2 ^ 32 := hdesc.size ▸ entrySize_lt _ _
      have hread : ∀ fuel, _ < fuel → Fat.exec fuel s (.read fd true len) = _ := fun fuel hfuel =>
        exec_read_spec h.layout h.mode hslot (h.volume.held hkey)
          (hdesc.first.trans (h.volume.first _ hdesc.slot hdesc.file))
          (hdesc.size.trans_le (h.volume.size _ hdesc.slot hdesc.file)) hsize rfl hfuel
      refine ⟨_, _, ⟨_, hread⟩, fun _ _ => ⟨chain, h.moved ?_⟩⟩
      exact exec_read_moved (hread _ (Nat.lt_succ_self _))
  | write fd buf =>
    obtain hfail | ⟨slot, l, hslot, rfl, hwr⟩ := exec_write_cases h.mode fd buf
    · exact h.keeps hfail
    · exact h.writeSlot hslot hwr l
  | lseek fd offset whence =>
    have hret : ∀ fuel, Fat.exec fuel s (.lseek fd offset whence) = .ok _ := fun _ => rfl
    exact ⟨_, _, ⟨0, fun fuel _ => hret fuel⟩, fun _ _ => ⟨chain, h.moved (exec_lseek_moved (hret 0))⟩⟩
  | close fd =>
    have hret : ∀ fuel, Fat.exec fuel s (.close fd) = .ok _ := fun _ => rfl
    refine ⟨_, _, ⟨0, fun fuel _ => hret fuel⟩, fun _ _ => ⟨chain, ?_⟩⟩
    obtain hs | ⟨slot, hs⟩ := exec_close_cases (hret 0)
    · rw [hs]
      exact h
    · rw [hs]
      exact h.setOpen nofun

end

end Calls

/-! ## §6. Mounting. -/

section Mount

variable {data : Bytes} {present : Bool} {size : ℕ} {s : FsState}
variable (h : fsMount data present size = .ok s)
include h

/-- **A mounted volume with its tables in place has a consistent layout**, if no cluster number is
an end mark. -/
theorem fsMount_layout (hmode : s.mode = .fat32)
    (htable : (s.fat.totalClusters + 2) * 4 ≤ s.fat.sectorsPerFat * s.fat.bytesPerSector)
    (hbefore : s.fat.reservedSectors + s.fat.fatCount * s.fat.sectorsPerFat ≤
      s.fat.firstDataSector) (hnumbers : s.fat.totalClusters + 2 ≤ fat32Eoc) : Layout s := by
  obtain ⟨hpres, hsize, -, b, hb, hparse⟩ := fsMount_fat32 h hmode
  obtain ⟨hb16, hb32⟩ := readBootSector_lt hb
  obtain ⟨hbps, htotal, h512, hspc, hres, hfats, hend, hin⟩ := BootSector.parse_facts hparse
  have hlast : s.fat.totalClusters + 2 < 2 ^ 32 := by
    unfold fat32Eoc at hnumbers
    omega
  refine ⟨⟨hpres, hbps ▸ ⟨h512, hb16⟩, hspc, hres, htable, hbefore, ?_, by omega, hlast⟩,
    hfats, hnumbers⟩
  rw [hsize, hbps]
  exact (Nat.mul_le_mul_right _ hend).trans hin

/-- A volume below 4 GiB ends below 4 GiB, and no cluster number is an end mark. -/
theorem fsMount_small (hmode : s.mode = .fat32) (hsmall : Small s) :
    dataStart s + s.fat.totalClusters * clusterSize s < 2 ^ 32 ∧
      s.fat.totalClusters + 2 ≤ 0x0FFFFFF0 := by
  obtain ⟨-, -, -, b, -, hparse⟩ := fsMount_fat32 h hmode
  obtain ⟨hbps, htotal, h512, hspc, -, -, hend, -⟩ := BootSector.parse_facts hparse
  have hdata : dataStart s + s.fat.totalClusters * clusterSize s ≤ b.total32 * b.bps := by
    calc dataStart s + s.fat.totalClusters * clusterSize s
        = (s.fat.firstDataSector + s.fat.totalClusters * s.fat.sectorsPerCluster) *
            s.fat.bytesPerSector := by
          unfold dataStart clusterSize
          ring
      _ ≤ b.total32 * b.bps := by
          rw [hbps]
          exact Nat.mul_le_mul_right _ hend
  have hlt : b.total32 * b.bps < 2 ^ 32 := by
    unfold Small at hsmall
    rwa [hbps, htotal] at hsmall
  -- at least 512 bytes per cluster: fewer than 2^23 clusters
  have hcount : s.fat.totalClusters * 512 ≤ s.fat.totalClusters * clusterSize s := by
    refine Nat.mul_le_mul_left _ ?_
    calc 512 = 512 * 1 := rfl
      _ ≤ s.fat.bytesPerSector * s.fat.sectorsPerCluster :=
          Nat.mul_le_mul (hbps ▸ h512) hspc
  exact ⟨by omega, by omega⟩

/-- **Mounting establishes the invariant.** -/
theorem fsMount_inv {chain : Option ℕ → List ℕ} (hmode : s.mode = .fat32) (hsmall : Small s)
    (hvol : Consistent s chain) : VolumeInv s chain := by
  obtain ⟨hend, hcount⟩ := fsMount_small h hmode hsmall
  have hlayout := fsMount_layout h hmode hvol.table hvol.before (by unfold fat32Eoc; omega)
  obtain ⟨-, -, hfree, -⟩ := fsMount_fat32 h hmode
  refine ⟨hlayout, hend, hmode, hvol, fun k hk => ?_, fun j k hj => ?_⟩
  · rw [hfree k] at hk
    cases hk
  · rw [hfree j] at hj
    cases hj

end Mount

/-! ## §7. Runs. -/

/-- A call of a client that opens no file twice. -/
def ClientStep (s s' : FsState) : Prop :=
  ∃ op r, Returns (fun fuel => exec fuel s op) (r, s') ∧ Allowed s op r

/-- A call of such a client that, without a free descriptor, does not truncate a file that
is open. -/
def CarefulStep (s s' : FsState) : Prop :=
  ∃ op r, Returns (fun fuel => exec fuel s op) (r, s') ∧ Allowed s op r ∧ KeepsOpen s op

/-- **The volume stays well-formed.**  From a well-formed volume below 4 GiB, every run of
opens, reads, writes, seeks and closes leads to well-formed volumes only, whether the
calls succeed, fail or stop early; and every further call returns. -/
theorem volume_consistent {data : Bytes} {present : Bool} {size : ℕ} {s₀ s : FsState}
    (hmount : fsMount data present size = .ok s₀) (hmode : s₀.mode = .fat32) (hsmall : Small s₀)
    (hwf : WellFormed s₀) (hrun : Relation.ReflTransGen CarefulStep s₀ s) :
    WellFormed s ∧ ∀ op, ∃ r s', Returns (fun fuel => exec fuel s op) (r, s') := by
  obtain ⟨chain₀, hvol⟩ := hwf
  have hinv : ∃ chain, VolumeInv s chain := by
    refine inv_of_run (fun t => ∃ chain, VolumeInv t chain) hrun
      ⟨chain₀, fsMount_inv hmount hmode hsmall hvol⟩ ?_
    rintro t u ⟨chain, h⟩ ⟨op, r, hret, hok, hkeep⟩
    obtain ⟨r', u', hret', hinv⟩ := h.exec op
    cases hret.unique hret'
    exact hinv hok hkeep
  obtain ⟨chain, h⟩ := hinv
  refine ⟨⟨chain, h.volume⟩, fun op => ?_⟩
  obtain ⟨r, s', hret, _⟩ := h.exec op
  exact ⟨r, s', hret⟩

/-! ### The small volume. -/

/-- The directory has cluster 2, and there are no files. -/
def smallChain : Option ℕ → List ℕ
  | none => [2]
  | some _ => []

theorem smallVolume_owners {k : Option ℕ} (hk : k ∈ owners smallVolume [2]) : k = none := by
  cases k with
  | none => rfl
  | some o =>
    obtain ⟨ho, hf⟩ := some_mem_owners.mp hk
    exact absurd (smallVolume_slots o ho) hf.1

theorem smallVolume_consistent : Consistent smallVolume smallChain := by
  have hheld := smallVolume_rootDir.held
  have hfree : ∀ c, c < 15 → 2 < c → next smallVolume c = 0 := by decide +kernel
  refine ⟨by decide, by decide, ?_, rfl, ⟨?_, ?_, ?_, ?_, ?_⟩, ?_, ?_, ?_⟩
  · show ∀ i, i < 2 → ∀ x, x < 512 → smallImage (tableStart smallVolume i + x) =
      smallImage (tableStart smallVolume 0 + x)
    decide +kernel
  · intro k hk
    rw [smallVolume_owners hk]
    exact hheld.chain
  · intro k hk
    rw [smallVolume_owners hk]
    exact hheld.valid
  · intro k hk
    rw [smallVolume_owners hk]
    exact hheld.nodup
  · intro i hi j hj hij
    exact absurd ((smallVolume_owners hi).trans (smallVolume_owners hj).symm) hij
  · intro c h1 h2 h0 _
    refine ⟨none, none_mem_owners _ _, ?_⟩
    by_cases hc : c = 2
    · rw [hc]
      exact mem_singleton_self 2
    · exact absurd (hfree c h2 (by omega)) h0
  · exact fun o ho hf => absurd (smallVolume_slots o ho) hf.1
  · exact fun o ho hf => absurd (smallVolume_slots o ho) hf.1
  · exact pairwise_of_forall_mem_list fun p _ q hq _ => smallVolume_slots q hq

theorem smallVolume_wellFormed : WellFormed smallVolume := ⟨smallChain, smallVolume_consistent⟩

/-- `/A` is made on the small volume. -/
theorem volume_consistent_small :
    WellFormed (after 1 smallVolume (.open pathA rdwrCreat)) ∧
      ∃ r s', Returns (fun fuel => exec fuel (after 1 smallVolume (.open pathA rdwrCreat))
        (.write 0 (some [0x78]))) (r, s') := by
  have hstep : CarefulStep smallVolume (after 1 smallVolume (.open pathA rdwrCreat)) := by
    refine ⟨.open pathA rdwrCreat, .fd 0, returns_of_answer (by decide +kernel),
      ⟨by decide, by decide⟩, fun hall => ?_⟩
    have h0 := hall 0
    cases h0
  obtain ⟨hwf, hcalls⟩ := volume_consistent fsMount_smallImage rfl (by unfold Small; decide)
    smallVolume_wellFormed (.single hstep)
  exact ⟨hwf, hcalls _⟩

/-! ### A truncation that fails. -/

/-- Sixteen files `A` to `P`, one byte into the first, then `fs_open` of `A` once more,
with `FS_O_TRUNC`, and another byte through the descriptor. -/
def exhaust : List Op :=
  ((List.range 16).map fun i => .open [0x41 + UInt8.ofNat i] rdwrCreat) ++
    [.write 0 (some [0x78]), .open [0x41] (fsORdwr ||| fsOTrunc), .write 0 (some [0x78])]

/-- Every call of the list is answered, and allowed. -/
def clientRun : FsState → List Op → Bool
  | _, [] => true
  | s, op :: ops =>
    (match answer 16 s op with
      | some r => decide (Allowed s op r)
      | none => false) && clientRun (after 16 s op) ops

theorem run_of_clientRun : ∀ (ops : List Op) {s : FsState}, clientRun s ops = true →
    Relation.ReflTransGen ClientStep s (ops.foldl (after 16) s)
  | [], s, _ => .refl
  | op :: ops, s, h => by
    obtain ⟨h1, h2⟩ := Bool.and_eq_true_iff.mp h
    refine .head ?_ (run_of_clientRun ops h2)
    cases hr : answer 16 s op with
    | none =>
      rw [hr] at h1
      cases h1
    | some r =>
      rw [hr] at h1
      exact ⟨op, r, returns_of_answer hr, of_decide_eq_true h1⟩

/-- The volume at the end: the entry of `A` begins at cluster 3, which is free. -/
theorem exhaust_end : (exhaust.foldl (after 16) smallVolume).fat.rootCluster = 2 ∧
    1536 ∈ dirSlots (exhaust.foldl (after 16) smallVolume) [2] ∧
    (exhaust.foldl (after 16) smallVolume).data 1536 = 0x41 ∧
    (exhaust.foldl (after 16) smallVolume).data (1536 + 11) = attrArchive ∧
    entryFirst (exhaust.foldl (after 16) smallVolume).data 1536 = 3 ∧
    next (exhaust.foldl (after 16) smallVolume) 3 = 0 := by
  decide +kernel

/-- The failed `fs_open` has freed the cluster of an open file; the next write through its
descriptor enters the free cluster into the directory again. -/
theorem failed_truncation_breaks_volume :
    ∃ s₀ s, fsMount smallImage true (16 * 512) = .ok s₀ ∧ s₀.mode = .fat32 ∧ Small s₀ ∧
      WellFormed s₀ ∧ Relation.ReflTransGen ClientStep s₀ s ∧ ¬ WellFormed s := by
  refine ⟨smallVolume, exhaust.foldl (after 16) smallVolume, fsMount_smallImage, rfl,
    by unfold Small; decide, smallVolume_wellFormed, run_of_clientRun exhaust (by decide +kernel), ?_⟩
  obtain ⟨hroot, hslot, hname, hattr, hfirst, hfree⟩ := exhaust_end
  generalize exhaust.foldl (after 16) smallVolume = s at *
  rintro ⟨chain, h⟩
  have hmem : 1536 ∈ dirSlots s (chain none) := by
    have hhead := h.head
    rw [hroot] at hhead
    obtain ⟨c, hc, ho⟩ := mem_flatMap.mp hslot
    rw [mem_singleton] at hc
    subst hc
    exact mem_flatMap.mpr ⟨2, mem_of_mem_head? hhead, ho⟩
  have hfile : IsFile s.data 1536 := by
    unfold IsFile Hidden
    rw [hname, hattr]
    decide
  -- cluster 3 is on the chain of the file, so it must be linked
  have hhead := h.first 1536 hmem hfile
  rw [hfirst] at hhead
  have hheld := h.held (some_mem_owners.mpr ⟨hmem, hfile⟩)
  cases hL : chain (some 1536) with
  | nil =>
    rw [hL] at hhead
    cases hhead
  | cons c l =>
    rw [hL] at hhead hheld
    cases hhead
    exact hheld.next_ne_zero 3 mem_cons_self hfree

end ExoCore.Fat
