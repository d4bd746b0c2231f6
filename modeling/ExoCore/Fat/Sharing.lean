/-
  ExoCore.Fat.Sharing — several descriptors on ONE file.

  A descriptor keeps its own copy of the file's entry, first cluster and size,
  and `fs_write_fd` enters that copy into the directory.  A copy that is out of
  date therefore takes back what the other descriptors wrote, and after a
  truncation it leads to clusters that are free or belong to another file.
  `History` is what the users of the files remember of a run: the last byte
  written at every position since the last truncation, and the clusters each
  truncation freed.

  Main results:
    • `Shared.exec`          — one call keeps the volume and the memory in step,
      if a write goes through a descriptor with an up-to-date copy;
    • `descriptors_coherent` — in every run of such calls nothing written is lost;
    • `stale_write_loses`    — with an outdated copy it is.
-/
import ExoCore.Fat.Volume

namespace ExoCore.Fat

open ExoCore.Lib Function List Relation

/-! ## §1. What is remembered of a run. -/

/-- **The history of a run**, as the users of the files remember it. -/
structure History where
  /-- The name a descriptor was opened under. -/
  name : Slot → List UInt8
  /-- The last byte written at a position of a file since its last truncation. -/
  last : List UInt8 → ℕ → Option UInt8
  /-- The descriptor is older than the last truncation of its file. -/
  old : Slot → Bool
  /-- The clusters that truncations of its file freed since the descriptor was opened. -/
  freed : Slot → Set ℕ

namespace History

/-- Nothing has happened yet. -/
def start : History := ⟨fun _ => [], fun _ _ => none, fun _ => false, fun _ => ∅⟩

/-- The file is truncated, and the clusters `cs` are free. -/
def truncate (h : History) (name : List UInt8) (cs : Set ℕ) : History :=
  { h with
    last := update h.last name fun _ => none
    old := fun k => h.old k || h.name k == name
    freed := fun k => if h.name k = name then h.freed k ∪ cs else h.freed k }

/-- The descriptor `k` is opened on the file. -/
def opens (h : History) (k : Slot) (name : List UInt8) : History :=
  { h with
    name := update h.name k name
    old := update h.old k false
    freed := update h.freed k ∅ }

/-- The bytes `l` are written at `pos` through the descriptor `k`. -/
def writes (h : History) (k : Slot) (pos : ℕ) (l : List UInt8) : History :=
  { h with
    last := update h.last (h.name k) fun p =>
      if pos ≤ p ∧ p < pos + l.length then l[p - pos]? else h.last (h.name k) p }

end History

/-- The clusters that were linked and are free now. -/
def freedBy (s s' : FsState) : Set ℕ := {c | next s c ≠ 0 ∧ next s' c = 0}

/-- The history behind a call that took `s` to `s'`.  `fs_open` truncates also when it
finds no descriptor; a write counts with the bytes it says it wrote. -/
def History.next (h : History) (s : FsState) (op : Op) (r : Ret) (s' : FsState) : History :=
  match op, r with
  | .open path flags, r =>
    match makeShortName path with
    | none => h
    | some name =>
      let h := if hasFlag flags fsOTrunc then h.truncate name (freedBy s s') else h
      match r with
      | .fd k => h.opens k name
      | _ => h
  | .write fd (some buf), .count n =>
    match openSlot s fd with
    | none => h
    | some k => h.writes k (s.openFiles k).pos (buf.take n)
  | _, _ => h

/-! ## §2. The calls of a run. -/

/-- The descriptor's copy of the entry is the entry. -/
def Fresh (s : FsState) (f : FsOpen) : Prop :=
  f.firstCluster = entryFirst s.data f.dirEntryOffset ∧
    f.size = entrySize s.data f.dirEntryOffset

/-- **The write may be made**: the copy is up to date, the file has not been truncated
since the descriptor was opened, and the write ends below 4 GiB. -/
def WriteOk (s : FsState) (h : History) (k : Slot) (buf : List UInt8) : Prop :=
  Fresh s (s.openFiles k) ∧ h.old k = false ∧
    ((s.openFiles k).pos + buf.length < 2 ^ 32 ∨ s.fat.totalClusters * clusterSize s < 2 ^ 32)

/-- The calls considered: no name begins with `0xE5`, and every write may be made. -/
def CoherentCall (s : FsState) (h : History) : Op → Prop
  | .open path _ => firstByte path ≠ some 0xE5
  | .write fd (some buf) =>
    ∀ k, openSlot s fd = some k → Writable (s.openFiles k).flags → WriteOk s h k buf
  | _ => True

instance (s : FsState) (f : FsOpen) : Decidable (Fresh s f) := inferInstanceAs (Decidable (_ ∧ _))

instance (s : FsState) (h : History) (k : Slot) (buf : List UInt8) :
    Decidable (WriteOk s h k buf) := inferInstanceAs (Decidable (_ ∧ _))

instance (s : FsState) (h : History) : ∀ op, Decidable (CoherentCall s h op)
  | .open _ _ => inferInstanceAs (Decidable (_ ≠ _))
  | .write _ none => .isTrue trivial
  | .write _ (some _) => inferInstanceAs (Decidable (∀ _ : Slot, _ → _ → _))
  | .read _ _ _ => .isTrue trivial
  | .lseek _ _ _ => .isTrue trivial
  | .close _ => .isTrue trivial

/-- A call, with the history. -/
def Recorded (x : FsState × History) (op : Op) (r : Ret) (y : FsState × History) : Prop :=
  Returns (fun fuel => exec fuel x.1 op) (r, y.1) ∧ y.2 = x.2.next x.1 op r y.1

/-- Any call. -/
def SharedStep (x y : FsState × History) : Prop := ∃ op r, Recorded x op r y

/-- A call considered. -/
def CoherentStep (x y : FsState × History) : Prop :=
  ∃ op r, Recorded x op r y ∧ CoherentCall x.1 x.2 op

/-- **The descriptor reads back what was written**: the file ends behind every byte of
`last`, and a read from any position gives these bytes. -/
def ReadsBack (s : FsState) (k : Slot) (last : ℕ → Option UInt8) : Prop :=
  (∀ p b, last p = some b → p < (s.openFiles k).size) ∧
    ∀ pos len : ℕ, pos < 2 ^ 32 → ∃ s₁ l s₂,
      Returns (fun fuel => exec fuel s (.lseek k pos 0)) (.pos pos, s₁) ∧
      Returns (fun fuel => exec fuel s₁ (.read k true len)) (.bytes l, s₂) ∧
      l.length = min len ((s.openFiles k).size - pos) ∧
      ∀ i b, i < l.length → last (pos + i) = some b → l[i]? = some b

/-! ## §3. What a call changes. -/

section Changes

variable {s s' : FsState} {chain : Option ℕ → List ℕ} {root L : List ℕ} {o q p : ℕ}
  {name : List UInt8}

/-- A name is found in one slot. -/
theorem Finds.unique (hr : RootDir s root) (h : Finds s.data name (dirSlots s root) o)
    (h' : Finds s.data name (dirSlots s root) q) : o = q := by
  have ho := scanList_of_finds h (hr.below o h.mem) 0
  have hq := scanList_of_finds h' (hr.below q h'.mem) 0
  rw [ho] at hq
  exact Option.some.inj hq

/-- A slot has one name. -/
theorem Finds.name_eq {d : Bytes} {l : List ℕ} {name' : List UInt8} (h : Finds d name l o)
    (h' : Finds d name' l o) : name = name' := by
  obtain ⟨_, _, _, _, hm⟩ := h
  obtain ⟨_, _, _, _, hm'⟩ := h'
  exact hm.2.symm.trans hm'.2

theorem FileChange.rootDir (hc : FileChange s s' chain o L) (hr : RootDir s (chain none)) :
    RootDir s' (chain none) := by
  have hheld := hc.volume.held (none_mem_owners _ _)
  have hhead := hc.volume.head
  rw [update_none] at hheld hhead
  refine ⟨hc.data.layout hr.layout, hheld, hhead, ?_⟩
  rw [hc.data.dirSlots]
  exact hr.below

/-- The bytes of the other files stay. -/
theorem FileChange.fileByte (hc : FileChange s s' chain o L) (h : Consistent s chain)
    (hl : Layout s) (hq : q ∈ dirSlots s (chain none)) (hf : IsFile s.data q) (hqo : q ≠ o)
    (hp : p < (chain (some q)).length * clusterSize s) :
    Fat.fileByte s' (chain (some q)) p = Fat.fileByte s (chain (some q)) p := by
  have hkey := some_mem_owners.mpr ⟨hq, hf⟩
  have hne : (some q : Option ℕ) ≠ some o := fun heq => hqo (Option.some.inj heq)
  have hkeys : ∀ x, x ∈ dirSlots s (chain none) → IsFile s'.data x →
      some x ∈ owners s' (update chain (some o) L none) := by
    intro x hx hxf
    rw [update_none]
    exact some_mem_owners.mpr ⟨hc.data.dirSlots ▸ hx, hxf⟩
  have hap := hc.volume.family.apart (some q)
    (hkeys q hq ((isFile_congr fun k hk => hc.other q hq hqo k (by omega)).mpr hf)) (some o)
    (hkeys o hc.slot hc.file) hne
  rw [update_of_ne hne, update_self] at hap
  refine fileByte_congr hc.data hl hp fun c hcq k hk => ?_
  exact hc.bytes c (h.family.range _ hkey c hcq)
    (fun hroot => h.apart hq hf c hroot hcq) (hap c hcq) k hk

end Changes

/-! ## §4. The invariant. -/

/-- **The volume remembers**: every byte of the history is in its file. -/
def Remembers (s : FsState) (chain : Option ℕ → List ℕ) (last : List UInt8 → ℕ → Option UInt8) :
    Prop :=
  ∀ name p b, last name p = some b → ∃ o, Finds s.data name (dirSlots s (chain none)) o ∧
    p < entrySize s.data o ∧ fileByte s (chain (some o)) p = b

/-- **The invariant of a run**: a consistent volume that remembers the history, and
descriptors on the files of their names.  Nothing is said about their copies of the
entries. -/
structure Shared (s : FsState) (h : History) (chain : Option ℕ → List ℕ) : Prop where
  root : RootDir s (chain none)
  mode : s.mode = .fat32
  volume : Consistent s chain
  names : ∀ k, (s.openFiles k).used = true →
    Finds s.data (h.name k) (dirSlots s (chain none)) (s.openFiles k).dirEntryOffset
  below : ∀ k, (s.openFiles k).used = true → (s.openFiles k).pos < 2 ^ 32
  last : Remembers s chain h.last
  freed : ∀ k, h.old k = false → h.freed k = ∅

section Invariant

variable {s s' s₁ : FsState} {h h' : History} {chain : Option ℕ → List ℕ} {L : List ℕ} {o p : ℕ}
  {k : Slot} {f : FsOpen} {name : List UInt8} {last last' : List UInt8 → ℕ → Option UInt8}
  {b : UInt8}

theorem History.truncate_last {cs : Set ℕ} {nm : List UInt8}
    (hb : (h.truncate name cs).last nm p = some b) : nm ≠ name ∧ h.last nm p = some b := by
  have hlast : update h.last name (fun _ => none) nm p = some b := hb
  by_cases hne : nm = name
  · rw [hne, update_self] at hlast
    cases hlast
  · rw [update_of_ne hne] at hlast
    exact ⟨hne, hlast⟩

/-- A descriptor that is not older than a truncation has seen no cluster freed. -/
theorem History.truncate_freed {cs : Set ℕ} (hfreed : ∀ k, h.old k = false → h.freed k = ∅) :
    ∀ k, (h.truncate name cs).old k = false → (h.truncate name cs).freed k = ∅ := by
  intro k hk
  obtain ⟨hold, hname⟩ := Bool.or_eq_false_iff.mp hk
  show (if h.name k = name then _ else h.freed k) = ∅
  rw [if_neg (by simpa using hname)]
  exact hfreed k hold

theorem History.opens_name (h : History) (k : Slot) (name : List UInt8) :
    (h.opens k name).name k = name := by
  show update h.name k name k = name
  rw [update_self]

theorem History.opens_freed (hfreed : ∀ k, h.old k = false → h.freed k = ∅) :
    ∀ j, (h.opens k name).old j = false → (h.opens k name).freed j = ∅ := by
  intro j hj
  have hold : update h.old k false j = false := hj
  show update h.freed k ∅ j = ∅
  by_cases hjk : j = k
  · rw [hjk, update_self]
  · rw [update_of_ne hjk] at hold ⊢
    exact hfreed j hold

/-- What is to be shown about the file that changes. -/
theorem Remembers.change (hr : Remembers s chain last) (hvol : Consistent s chain) (hl : Layout s)
    (hc : FileChange s s₁ chain o L)
    (hlast : ∀ name p b, last' name p = some b →
      (last name p = some b ∧ ¬ Finds s.data name (dirSlots s (chain none)) o) ∨
      (Finds s₁.data name (dirSlots s (chain none)) o ∧ p < entrySize s₁.data o ∧
        fileByte s₁ L p = b)) :
    Remembers s₁ (update chain (some o) L) last' := by
  intro name p b hb
  rw [update_none, hc.data.dirSlots]
  obtain ⟨hb, hnot⟩ | hfile := hlast name p b hb
  · obtain ⟨q, hfinds, hsize, hbyte⟩ := hr name p b hb
    have hqo : q ≠ o := fun hqo => hnot (hqo ▸ hfinds)
    have hfits := hvol.size q hfinds.mem hfinds.isFile
    refine ⟨q, hc.names name q hfinds, ?_, ?_⟩
    · rw [entrySize_congr fun k _ hk => hc.other q hfinds.mem hqo k hk]
      exact hsize
    · rw [update_of_ne fun heq => hqo (Option.some.inj heq),
        hc.fileByte hvol hl hfinds.mem hfinds.isFile hqo (by omega)]
      exact hbyte
  · refine ⟨o, ?_⟩
    rw [update_self]
    exact hfile

section

variable (hs : Shared s h chain)
include hs

/-- A file changes on the volume. -/
theorem Shared.change (hc : FileChange s s₁ chain o L) (hname : h'.name = h.name)
    (hfreed : ∀ k, h'.old k = false → h'.freed k = ∅)
    (hlast : ∀ name p b, h'.last name p = some b →
      (h.last name p = some b ∧ ¬ Finds s.data name (dirSlots s (chain none)) o) ∨
      (Finds s₁.data name (dirSlots s (chain none)) o ∧ p < entrySize s₁.data o ∧
        fileByte s₁ L p = b)) : Shared s₁ h' (update chain (some o) L) := by
  have hd := hc.data
  refine ⟨?_, hd.mode ▸ hs.mode, hc.volume, fun k hk => ?_, fun k hk => ?_,
    hs.last.change hs.volume hs.root.layout hc hlast, hfreed⟩
  · rw [update_none]
    exact hc.rootDir hs.root
  · rw [hd.openFiles] at hk ⊢
    rw [update_none, hd.dirSlots, hname]
    exact hc.names _ _ (hs.names k hk)
  · rw [hd.openFiles] at hk ⊢
    exact hs.below k hk

/-- A descriptor is filled in, moved or given back. -/
theorem Shared.setOpen (hname : ∀ j, j ≠ k → h'.name j = h.name j) (hlast : h'.last = h.last)
    (hfreed : ∀ k, h'.old k = false → h'.freed k = ∅)
    (hf : f.used = true → Finds s.data (h'.name k) (dirSlots s (chain none)) f.dirEntryOffset ∧
      f.pos < 2 ^ 32) : Shared (s.setOpen k f) h' chain := by
  refine ⟨hs.root.setOpen k f, hs.mode, hs.volume.setOpen k f, fun j hj => ?_, fun j hj => ?_, ?_,
    hfreed⟩
  · by_cases hjk : j = k
    · rw [hjk, setOpen_self] at hj ⊢
      exact (hf hj).1
    · rw [setOpen_of_ne s f hjk] at hj ⊢
      rw [hname j hjk]
      exact hs.names j hj
  · by_cases hjk : j = k
    · rw [hjk, setOpen_self] at hj ⊢
      exact (hf hj).2
    · rw [setOpen_of_ne s f hjk] at hj ⊢
      exact hs.below j hj
  · rw [hlast]
    exact hs.last

/-- The history can be cut on its own. -/
theorem Shared.truncate (name : List UInt8) (cs : Set ℕ) : Shared s (h.truncate name cs) chain :=
  { hs with
    last := fun nm p b hb => hs.last nm p b (History.truncate_last hb).2
    freed := History.truncate_freed hs.freed }

theorem Shared.moved (hm : Moved s s') : Shared s' h chain := by
  obtain rfl | ⟨slot, p, hused, hp, rfl⟩ := hm
  · exact hs
  · refine hs.setOpen (fun _ _ => rfl) rfl hs.freed fun _ => ⟨hs.names slot hused, ?_⟩
    exact hp (hs.below slot hused)

end

end Invariant

/-! ## §5. The calls. -/

section Calls

variable {s s' s₁ : FsState} {h : History} {chain : Option ℕ → List ℕ} {path name : List UInt8}
  {flags o : ℕ} {fd : ℤ} {k : Slot} {r : Ret}

/-- `fs_open` with `FS_O_TRUNC` cuts the history, whatever it finds. -/
theorem Shared.cut (hs : Shared s h chain) (name : List UInt8) (cs : Set ℕ) (flags : ℕ) :
    Shared s (if hasFlag flags fsOTrunc then h.truncate name cs else h) chain := by
  split
  · exact hs.truncate name cs
  · exact hs

/-- `fs_open` up to the descriptor. -/
theorem Shared.reached {chain' : Option ℕ → List ℕ} (hs : Shared s h chain)
    (hr : Reaches s chain name flags o s₁ chain') (cs : Set ℕ) :
    Shared s₁ (if hasFlag flags fsOTrunc then h.truncate name cs else h) chain' := by
  have hcut := hs.cut name cs flags
  cases hr with
  | found => exact hcut
  | truncated hfinds htrunc hc =>
    refine hcut.change hc rfl hcut.freed fun nm p b hb => .inl ⟨hb, fun hfinds' => ?_⟩
    rw [if_pos htrunc] at hb
    exact (History.truncate_last hb).1 (hfinds'.name_eq hfinds)
  | created hv hc =>
    -- the slot was vacant
    exact hcut.change hc rfl hcut.freed fun nm p b hb =>
      .inl ⟨hb, fun hfinds' => hv.not_isFile hfinds'.isFile⟩

/-- **`fs_open`.** -/
theorem Shared.open (hs : Shared s h chain) (hbyte : firstByte path ≠ some 0xE5)
    (hret : Returns (fun fuel => exec fuel s (.open path flags)) (r, s')) :
    ∃ chain', Shared s' (h.next s (.open path flags) r s') chain' := by
  obtain ⟨r', t, hret', hdone⟩ := hs.volume.open hs.root hs.mode path flags
  cases hret.unique hret'
  obtain ⟨chain', hdone⟩ := hdone hbyte
  refine ⟨chain', ?_⟩
  rw [History.next]
  cases hdone with
  | refused =>
    cases makeShortName path with
    | none => exact hs
    | some name => exact hs.cut name _ flags
  | full hname hr hall =>
    simp only [hname]
    exact hs.reached hr _
  | @opened name o s₁ _ hname hr k =>
    simp only [hname]
    have hs₁ := hs.reached hr (freedBy s (s₁.setOpen k (opened s₁ o flags)))
    refine hs₁.setOpen (fun j hj => update_of_ne hj _ _) rfl (History.opens_freed hs₁.freed)
      fun _ => ⟨?_, opened_pos_lt s₁ o flags⟩
    rw [History.opens_name]
    exact hr.finds

theorem History.writes_last {pos p : ℕ} {l nm : List UInt8} {b : UInt8}
    (hb : (h.writes k pos l).last nm p = some b) :
    (h.last nm p = some b ∧ (nm = h.name k → ¬ (pos ≤ p ∧ p < pos + l.length))) ∨
      (nm = h.name k ∧ pos ≤ p ∧ p < pos + l.length ∧ l[p - pos]? = some b) := by
  have hlast : update h.last (h.name k) (fun p =>
      if pos ≤ p ∧ p < pos + l.length then l[p - pos]? else h.last (h.name k) p) nm p = some b := hb
  by_cases hnm : nm = h.name k
  · subst hnm
    rw [update_self] at hlast
    split_ifs at hlast with hin
    · exact .inr ⟨rfl, hin.1, hin.2, hlast⟩
    · exact .inl ⟨hlast, fun _ => hin⟩
  · rw [update_of_ne hnm] at hlast
    exact .inl ⟨hlast, fun heq => absurd heq hnm⟩

/-- **A write through an up-to-date copy is remembered.** -/
theorem Shared.wrote (hs : Shared s h chain) {f : FsOpen} {buf : List UInt8} {new : List ℕ} {n : ℕ}
    (hfinds : Finds s.data (h.name k) (dirSlots s (chain none)) o)
    (hsize : f.size = entrySize s.data o) (hn : n ≤ buf.length)
    (hw : Wrote s s₁ (chain (some o)) new f.pos n fun p => buf.getD (p - f.pos) 0)
    (hlt : (afterWrite f n).size < 2 ^ 32)
    (hc : FileChange s (s₁.enter o ((chain (some o) ++ new).headD 0) (afterWrite f n).size) chain o
      (chain (some o) ++ new)) :
    Shared (s₁.enter o ((chain (some o) ++ new).headD 0) (afterWrite f n).size)
      (h.writes k f.pos (buf.take n)) (update chain (some o) (chain (some o) ++ new)) := by
  have ho := hfinds.mem
  have hold := hs.volume.size o ho hfinds.isFile
  have hfits := hw.size_fits (hsize.trans_le hold)
  have hap := hs.volume.apart ho hfinds.isFile
  have hlen : (buf.take n).length = n := length_take_of_le hn
  have hnew : (afterWrite f n).size = if n = 0 then f.size else max f.size (f.pos + n) := rfl
  -- the byte at a position of the file as it is now
  have hbyte : ∀ p, p < (afterWrite f n).size →
      fileByte (s₁.enter o ((chain (some o) ++ new).headD 0) (afterWrite f n).size)
        (chain (some o) ++ new) p =
      if f.pos ≤ p ∧ p < f.pos + n then buf.getD (p - f.pos) 0
      else if p < (chain (some o)).length * clusterSize s then fileByte s (chain (some o)) p
      else 0 := by
    intro p hp
    rw [← hw.byte p (by omega)]
    refine (hs.root.wrote hw hap).entry_fileByte (hw.data.dirSlots ▸ ho)
      (fun a ha => putEntry_apart (by omega)) hw.held (hw.apart hs.root.held hap) ?_
    rw [hw.data.clusterSize]
    omega
  refine hs.change hc rfl hs.freed fun nm p b hb => ?_
  obtain ⟨hb, hout⟩ | ⟨rfl, h1, h2, hb⟩ := History.writes_last hb
  · by_cases hnm : nm = h.name k
    · -- the file was written there before
      subst hnm
      obtain ⟨q, hq, hp, hqb⟩ := hs.last _ p b hb
      obtain rfl := hfinds.unique hs.root hq
      have hp' : p < (afterWrite f n).size := by
        rw [hnew]
        split <;> omega
      refine .inr ⟨hc.names _ _ hfinds, (entrySize_putEntry hlt).symm ▸ hp', ?_⟩
      have hnot := hout rfl
      rw [hlen] at hnot
      rw [hbyte p hp', if_neg hnot, if_pos (by omega)]
      exact hqb
    · exact .inl ⟨hb, fun hfinds' => hnm (hfinds'.name_eq hfinds)⟩
  · rw [hlen] at h2
    have hp' : p < (afterWrite f n).size := by
      rw [hnew]
      split <;> omega
    refine .inr ⟨hc.names _ _ hfinds, (entrySize_putEntry hlt).symm ▸ hp', ?_⟩
    rw [hbyte p hp', if_pos ⟨h1, h2⟩, getD_eq_getElem?_getD]
    rw [getElem?_take_of_lt (by omega)] at hb
    rw [hb]
    rfl

/-- **`fs_write_fd`** with an up-to-date copy: the memory is kept, and the write went to
clusters that are in use. -/
theorem Shared.write (hs : Shared s h chain) {buf : List UInt8} (hslot : openSlot s fd = some k)
    (hwr : Writable (s.openFiles k).flags) (hok : WriteOk s h k buf)
    (hret : Returns (fun fuel => exec fuel s (.write fd (some buf))) (r, s')) :
    (∃ chain', Shared s' (h.next s (.write fd (some buf)) r s') chain') ∧
      ∀ c j, Valid s c → j < clusterSize s → cbyte s' c j ≠ cbyte s c j → next s' c ≠ 0 := by
  obtain ⟨⟨hfirst, hsize⟩, -, hword⟩ := hok
  have hused := openSlot_used hslot
  have hfinds := hs.names k hused
  obtain hnone | ⟨n, new, s₁, hw, hn, hpos, hlt, hc, hdone⟩ := hs.volume.write hs.root
    ⟨hfinds.mem, hfinds.isFile, hfirst, hsize, hs.below k hused⟩ rfl buf hword
  · -- the volume is full, and nothing happens
    cases hret.unique (returns_write (b := 0) hs.mode hslot hwr fun fuel _ => hnone fuel)
    exact ⟨⟨chain, hs⟩, fun c j _ _ hne => absurd rfl hne⟩
  · have hs₁ := hs.wrote hfinds hsize hn hw hlt hc
    have hcount : Returns _ (Ret.count n, _) := returns_write hs.mode hslot hwr hdone
    cases hret.unique hcount
    refine ⟨?_, fun c j hv hj hne => ?_⟩
    · rw [History.next]
      simp only [hslot]
      refine ⟨_, hs₁.setOpen (fun _ _ => rfl) rfl hs₁.freed fun _ => ⟨?_, hpos⟩⟩
      rw [update_none, hc.data.dirSlots]
      exact hc.names _ _ hfinds
    · -- a byte changes in a cluster of the directory or of the file
      have hheld := fun key hkey => (hc.volume.held (k := key) hkey).next_ne_zero c
      by_cases hroot : c ∈ chain none
      · refine hheld none (none_mem_owners _ _) ?_
        rw [update_none]
        exact hroot
      · refine hheld (some (s.openFiles k).dirEntryOffset) (some_mem_owners.mpr ⟨?_, hc.file⟩) ?_
        · rw [update_none, hc.data.dirSlots]
          exact hfinds.mem
        · rw [update_self]
          by_contra hL
          exact hne (hc.bytes c hv hroot hL j hj)

/-- **One call**: the volume and the memory stay in step. -/
theorem Shared.exec (hs : Shared s h chain) {op : Op} (hok : CoherentCall s h op)
    (hret : Returns (fun fuel => exec fuel s op) (r, s')) :
    ∃ chain', Shared s' (h.next s op r s') chain' := by
  cases op with
  | «open» path flags => exact hs.open hok hret
  | write fd buf =>
    obtain hfail | ⟨k, l, hslot, rfl, hwr⟩ := exec_write_cases hs.mode fd buf
    · cases hret.unique ⟨0, fun fuel _ => hfail fuel⟩
      cases buf <;> exact ⟨chain, hs⟩
    · exact (hs.write hslot hwr (hok k hslot hwr) hret).1
  | read fd buf len =>
    obtain ⟨fuel, hret⟩ := hret
    exact ⟨chain, hs.moved (exec_read_moved (hret fuel (le_refl _)))⟩
  | lseek fd offset whence =>
    obtain ⟨fuel, hret⟩ := hret
    exact ⟨chain, hs.moved (exec_lseek_moved (hret fuel (le_refl _)))⟩
  | close fd =>
    obtain ⟨fuel, hret⟩ := hret
    obtain rfl | ⟨slot, rfl⟩ := exec_close_cases (hret fuel (le_refl _))
    · exact ⟨chain, hs⟩
    · exact ⟨chain, hs.setOpen (fun _ _ => rfl) rfl hs.freed nofun⟩

/-- A seek to a position below 4 GiB. -/
theorem exec_lseek_set (hmode : s.mode = .fat32) (hused : (s.openFiles k).used = true) {pos : ℕ}
    (hpos : pos < 2 ^ 32) (fuel : ℕ) : Fat.exec fuel s (.lseek k pos 0) =
      .ok (.pos pos, s.setOpen k { s.openFiles k with pos := pos }) := by
  rw [exec_lseek_eq hmode (openSlot_of_used hused) (show seekBase _ 0 = some 0 from rfl)
    (by omega) (by omega),
    if_neg (by omega), Int.zero_add, Int.toNat_natCast]

/-- A seek and a read: the bytes of the file from the position on. -/
theorem seek_read {L : List ℕ} {pos : ℕ} (hl : Layout s) (hmode : s.mode = .fat32)
    (hused : (s.openFiles k).used = true) (hheld : Held s L)
    (hfirst : (s.openFiles k).firstCluster = L.headD 0)
    (hfits : (s.openFiles k).size ≤ L.length * clusterSize s)
    (hword : (s.openFiles k).size < 2 ^ 32) (hpos : pos < 2 ^ 32) (len : ℕ) : ∃ s₁ s₂,
    Returns (fun fuel => Fat.exec fuel s (.lseek k pos 0)) (.pos pos, s₁) ∧
    Returns (fun fuel => Fat.exec fuel s₁ (.read k true len))
      (.bytes ((List.range (min len ((s.openFiles k).size - pos))).map fun i =>
        fileByte s L (pos + i)), s₂) := by
  have hself := setOpen_self s k { s.openFiles k with pos := pos }
  have hread : ∀ fuel, min len ((s.openFiles k).size - pos) < fuel →
      Fat.exec fuel (s.setOpen k { s.openFiles k with pos := pos }) (.read k true len) = _ :=
    fun fuel hfuel => exec_read_spec (hl.setOpen k _) hmode
      (openSlot_of_used (by rw [hself]; exact hused)) (hheld.setOpen k _)
      (by rw [hself]; exact hfirst) (by rw [hself]; exact hfits) (by rw [hself]; exact hword)
      (show _ = min len ((s.openFiles k).size - pos) by rw [hself]) hfuel
  rw [hself] at hread
  exact ⟨_, _, ⟨0, fun fuel _ => exec_lseek_set hmode hused hpos fuel⟩, _, hread⟩

/-- **A fresh descriptor reads back the history of its file.** -/
theorem Shared.reads (hs : Shared s h chain)
    (hfinds : Finds s.data name (dirSlots s (chain none)) o) (k : Slot) (flags : ℕ) : ReadsBack (s.setOpen k (opened s o flags)) k (h.last name) := by
  have ho := hfinds.mem
  have hf := hfinds.isFile
  have hremember : ∀ p b, h.last name p = some b →
      p < entrySize s.data o ∧ fileByte s (chain (some o)) p = b := by
    intro p b hb
    obtain ⟨q, hq, hp, hbyte⟩ := hs.last name p b hb
    obtain rfl := hfinds.unique hs.root hq
    exact ⟨hp, hbyte⟩
  have hself : (s.setOpen k (opened s o flags)).openFiles k = opened s o flags := setOpen_self s k _
  refine ⟨fun p b hb => ?_, fun pos len hpos => ?_⟩
  · rw [hself]
    exact (hremember p b hb).1
  · obtain ⟨s₁, s₂, hseek, hread⟩ := seek_read (hs.root.layout.setOpen k (opened s o flags)) hs.mode
      (by rw [hself]; rfl) ((hs.volume.held (some_mem_owners.mpr ⟨ho, hf⟩)).setOpen k _)
      (by rw [hself]; exact hs.volume.first o ho hf) (by rw [hself]; exact hs.volume.size o ho hf)
      (by rw [hself]; exact entrySize_lt s.data o) hpos len
    refine ⟨s₁, _, s₂, hseek, hread, ?_, fun i b hi hb => ?_⟩
    · rw [length_map, length_range]
    · rw [length_map, length_range] at hi
      rw [getElem?_map, getElem?_range hi]
      exact congrArg some (hremember _ b hb).2

/-- **A file that has been written can be opened, and read back.** -/
theorem Shared.reopen (hs : Shared s h chain) (hname : makeShortName path = some name)
    (htrunc : hasFlag flags fsOTrunc = false) (hfree : ∃ k, (s.openFiles k).used = false)
    (hlast : ∃ p b, h.last name p = some b) :
    ∃ k s', Returns (fun fuel => Fat.exec fuel s (.open path flags)) (.fd k, s') ∧
      ReadsBack s' k (h.last name) := by
  obtain ⟨p, b, hb⟩ := hlast
  obtain ⟨o, hfinds, -, -⟩ := hs.last name p b hb
  have hopen : ∀ fuel, (chain none).length ≤ fuel →
      openEntry fuel s name flags = .ok (some o, s) := by
    intro fuel hfuel
    rw [openEntry_found hs.root hfuel flags hfinds, htrunc]
    rfl
  obtain ⟨-, hall⟩ | ⟨k, hfd⟩ := returns_open hs.mode hname hopen
    (slot_has hs.root.layout hs.root.held hfinds.mem)
  · obtain ⟨j, hj⟩ := hfree
    rw [hall j] at hj
    cases hj
  · exact ⟨k, _, hfd, hs.reads hfinds k flags⟩

end Calls

/-! ## §6. Runs. -/

/-- **Descriptors on one file are coherent** while every write goes through one with an
up-to-date copy of the entry.  On a well-formed volume, after every run of such calls, a
fresh descriptor on any file reads back the last byte written at each position since the
last truncation, and is long enough to; and a further write changes no cluster that is
free behind it, nor one that a truncation freed since the descriptor was opened. -/
theorem descriptors_coherent {chain : Option ℕ → List ℕ} {s₀ s : FsState} {h : History}
    (hmode : s₀.mode = .fat32) (hvol : Consistent s₀ chain) (hroot : RootDir s₀ (chain none))
    (hclosed : ∀ k, (s₀.openFiles k).used = false)
    (hrun : ReflTransGen CoherentStep (s₀, .start) (s, h)) :
    (∀ path name flags, makeShortName path = some name → hasFlag flags fsOTrunc = false →
      (∃ k, (s.openFiles k).used = false) → (∃ p b, h.last name p = some b) →
      ∃ k s', Returns (fun fuel => exec fuel s (.open path flags)) (.fd k, s') ∧
        ReadsBack s' k (h.last name)) ∧
    ∀ fd k buf r s', openSlot s fd = some k → CoherentCall s h (.write fd (some buf)) →
      Returns (fun fuel => exec fuel s (.write fd (some buf))) (r, s') →
      ∀ c j, Valid s c → j < clusterSize s → cbyte s' c j ≠ cbyte s c j →
        next s' c ≠ 0 ∧ c ∉ h.freed k := by
  have hstart : Shared s₀ .start chain := by
    have hnot : ∀ k, ¬ (s₀.openFiles k).used = true := fun k => by simp [hclosed k]
    exact ⟨hroot, hmode, hvol, fun k hk => absurd hk (hnot k), fun k hk => absurd hk (hnot k),
      nofun, fun _ _ => rfl⟩
  obtain ⟨chain', hs⟩ : ∃ chain', Shared s h chain' := by
    refine inv_of_run (fun x : FsState × History => ∃ chain, Shared x.1 x.2 chain) hrun
      ⟨chain, hstart⟩ ?_
    rintro ⟨t, g⟩ ⟨u, g'⟩ ⟨chain, ht⟩ ⟨op, r, ⟨hret, hnext⟩, hok⟩
    obtain ⟨chain', hu⟩ := ht.exec hok hret
    exact ⟨chain', hnext ▸ hu⟩
  refine ⟨fun path name flags hname htrunc hfree hlast => hs.reopen hname htrunc hfree hlast,
    fun fd k buf r s' hslot hok hret c j hv hj hne => ?_⟩
  obtain hfail | ⟨k', l, hslot', hl, hwr⟩ := exec_write_cases hs.mode fd (some buf)
  · cases hret.unique ⟨0, fun fuel _ => hfail fuel⟩
    exact absurd rfl hne
  · rw [hslot] at hslot'
    cases hslot'
    have hwok := hok k hslot hwr
    refine ⟨(hs.write hslot hwr hwok hret).2 c j hv hj hne, ?_⟩
    rw [hs.freed k hwok.2.1]
    exact Set.notMem_empty c

/-! ### Two descriptors on the small volume. -/

/-- The state and the history after a call. -/
def follow (x : FsState × History) (op : Op) : FsState × History :=
  match exec 16 x.1 op with
  | .ok (r, s') => (s', x.2.next x.1 op r s')
  | .error _ => x

/-- Every call of the list is answered, and passes the check `ok`. -/
def followed (ok : FsState × History → Op → Bool) : FsState × History → List Op → Bool
  | _, [] => true
  | x, op :: ops => (answer 16 x.1 op).isSome && ok x op && followed ok (follow x op) ops

theorem run_of_followed (ok : FsState × History → Op → Bool) : ∀ (ops : List Op)
    (x : FsState × History), followed ok x ops = true →
    ReflTransGen (fun x y => ∃ op r, Recorded x op r y ∧ ok x op = true) x (ops.foldl follow x)
  | [], x, _ => .refl
  | op :: ops, x, h => by
    obtain ⟨h1, h2⟩ := Bool.and_eq_true_iff.mp h
    obtain ⟨h1, h3⟩ := Bool.and_eq_true_iff.mp h1
    obtain ⟨r, hr⟩ := Option.isSome_iff_exists.mp h1
    refine .head ⟨op, r, ?_, h3⟩ (run_of_followed ok ops _ h2)
    rw [follow, exec_of_answer hr]
    exact ⟨returns_of_answer hr, rfl⟩

/-- The second descriptor is opened behind the write through the first. -/
def takingTurns : List Op :=
  [.open pathA rdwrCreat, .write 0 (some [0x61, 0x62, 0x63]), .open pathA rdwrCreat,
    .write 1 (some [0x78])]

/-- What was written is read back: one byte of the second write, two of the first. -/
theorem descriptors_coherent_turns :
    ∃ (s : FsState) (h : History), (h.last nameA 0 = some 0x78 ∧ h.last nameA 2 = some 0x63) ∧
      ∃ k s', Returns (fun fuel => exec fuel s (.open pathA rdwrCreat)) (.fd k, s') ∧
        ReadsBack s' k (h.last nameA) := by
  have hrun : ReflTransGen CoherentStep (smallVolume, .start)
      (takingTurns.foldl follow (smallVolume, .start)) := by
    refine ReflTransGen.mono ?_ _ _ (run_of_followed
      (fun x op => decide (CoherentCall x.1 x.2 op)) takingTurns (smallVolume, .start)
      (by decide +kernel))
    exact fun x y ⟨op, r, hcall, hok⟩ => ⟨op, r, hcall, of_decide_eq_true hok⟩
  obtain ⟨hopen, -⟩ := descriptors_coherent rfl smallVolume_consistent smallVolume_rootDir
    (fun _ => rfl) hrun
  have hlast : (takingTurns.foldl follow (smallVolume, .start)).2.last nameA 0 = some 0x78 ∧
      (takingTurns.foldl follow (smallVolume, .start)).2.last nameA 2 = some 0x63 := by
    decide +kernel
  exact ⟨_, _, hlast, hopen pathA nameA rdwrCreat (by decide) (by decide) ⟨2, by decide +kernel⟩
    ⟨_, _, hlast.1⟩⟩

/-- Both descriptors are opened on the empty file. -/
def bothEmpty : List Op :=
  [.open pathA rdwrCreat, .open pathA rdwrCreat, .write 0 (some [0x61, 0x62, 0x63]),
    .write 1 (some [0x78])]

/-- **A write is lost.**  The second descriptor still says that the file is empty: its
write enters a new first cluster and the size 1, and a fresh descriptor does not reach
the third byte any more. -/
theorem stale_write_loses : ∃ (s : FsState) (h : History) (k : Slot) (s' : FsState),
    ReflTransGen SharedStep (smallVolume, .start) (s, h) ∧
    h.last nameA 2 = some 0x63 ∧
    Returns (fun fuel => exec fuel s (.open pathA rdwrCreat)) (.fd k, s') ∧
    (s'.openFiles k).size = 1 := by
  refine ⟨(bothEmpty.foldl follow (smallVolume, .start)).1,
    (bothEmpty.foldl follow (smallVolume, .start)).2, 2, _, ?_, by decide +kernel,
    returns_of_answer (show answer 16 _ _ = _ by decide +kernel), by decide +kernel⟩
  refine ReflTransGen.mono ?_ _ _
    (run_of_followed (fun _ _ => true) bothEmpty (smallVolume, .start) (by decide +kernel))
  exact fun x y ⟨op, r, hcall, _⟩ => ⟨op, r, hcall⟩

end ExoCore.Fat
