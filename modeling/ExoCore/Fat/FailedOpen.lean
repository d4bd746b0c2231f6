/-
  ExoCore.Fat.FailedOpen — what a FAILED `fs_open` leaves behind.

  `fs_open` makes or cuts the directory entry FIRST and looks for a free descriptor LAST.  When all
  sixteen descriptors are in use it returns -1 with the entry already made, or with the chain of the
  file already freed.  On every other way to -1 nothing has been written.

    • `Worked.same_iff`       — when the work on the entry leaves every byte as it was;
    • `failed_open_harmless`  — a failed call changes nothing EXACTLY when a descriptor is free or
                                there was nothing to make or cut.
-/
import ExoCore.Fat.Search

namespace ExoCore.Fat

open ExoCore.Lib

/-! ## §1. Work that changes nothing. -/

/-- **Nothing to do**, by the answer of the search: there is no entry and none is made, or the slot
already has every byte of the new entry; there is an entry, and it is not cut or has no cluster and
no size. -/
def Spared (s : FsState) (name : List UInt8) (flags : ℕ) : Option ℕ × ℕ → Prop
  | (none, freeOff) =>
    hasFlag flags fsOCreat = false ∨ freeOff = 0 ∨ newEntry s.data freeOff name = s.data
  | (some o, _) =>
    hasFlag flags fsOTrunc = false ∨ (entryFirst s.data o = 0 ∧ entrySize s.data o = 0)

section Work

variable {s t : FsState} {name path : List UInt8} {flags : ℕ} {r : Option ℕ × ℕ} {entry : Option ℕ}

/-- Clearing the fields of an entry that are clear. -/
theorem putEntry_clear {d : Bytes} {o : ℕ} (hfirst : entryFirst d o = 0) (hsize : entrySize d o = 0) :
    putEntry d o 0 0 = d := by
  have hhi : rdLE d (o + 20) 2 = 0 := by
    unfold entryFirst at hfirst
    omega
  have hlo : rdLE d (o + 26) 2 = 0 := by
    unfold entryFirst at hfirst
    omega
  have hput : putFirst d o 0 = d := by
    show wrLE (wrLE d (o + 20) 2 0) (o + 26) 2 0 = d
    rw [wrLE_same hhi, wrLE_same hlo]
  unfold putEntry
  rw [hput]
  exact wrLE_same hsize

/-- **The bytes are as before** exactly when there was nothing to do. -/
theorem Worked.same_iff (h : Worked s name flags r (entry, t)) :
    t.data = s.data ↔ Spared s name flags r := by
  cases h with
  | missing h => exact ⟨fun _ => h.imp_right .inl, fun _ => rfl⟩
  | created hcreat h0 hhas =>
    constructor
    · exact fun hsame => .inr (.inr hsame)
    · rintro (h | h | h)
      · exact absurd hcreat (by rw [h]; decide)
      · exact absurd h h0
      · exact h
  | found htrunc hhas => exact ⟨fun _ => .inl htrunc, fun _ => rfl⟩
  | @cut o freeOff fuel u htrunc hhas hfree =>
    constructor
    · intro hsame
      -- the fields read zero afterwards, so they did before
      have hsame : putEntry u.data o 0 0 = s.data := hsame
      rw [Spared, ← hsame]
      exact .inr ⟨entryFirst_putEntry (by omega), entrySize_putEntry (by omega)⟩
    · rintro (h | ⟨hfirst, hsize⟩)
      · exact absurd htrunc (by rw [h]; decide)
      · rw [hfirst] at hfree
        obtain rfl : s = u := Except.ok.inj hfree
        exact putEntry_clear hfirst hsize

theorem Worked.openFiles (h : Worked s name flags r (entry, t)) : t.openFiles = s.openFiles := by
  cases h with
  | missing => rfl
  | created => rfl
  | found => rfl
  | cut _ _ hfree =>
    obtain ⟨d, rfl⟩ := freeFirst_data hfree
    rfl

/-! ## §2. The failed call. -/

/-- With every descriptor in use, `fs_open` fails once the work is done. -/
theorem fsOpen_exhausted (hmode : s.mode = .fat32) (hname : makeShortName path = some name)
    (hall : ∀ k, (s.openFiles k).used = true) {fuel : ℕ}
    (hentry : openEntry fuel s name flags = .ok (entry, t)) :
    fsOpen fuel s path flags = .ok (none, t) := by
  obtain ⟨r, -, hworked⟩ := openEntry_worked (makeShortName_length hname) hentry
  rw [fsOpen_of_name hmode hname, hentry]
  cases entry with
  | none => rfl
  | some o =>
    rcases claimSlot_spec hworked.has flags with ⟨hclaim, -⟩ | ⟨k, hk, -⟩
    · exact hclaim
    · rw [hworked.openFiles, hall k] at hk
      cases hk

/-- An entry that is not worked on is as before. -/
theorem Worked.same_of_none (h : Worked s name flags r (none, t)) : t = s := by
  cases h
  rfl

end Work

/-- **A failed open is harmless**: a descriptor is free, or there is nothing to do on the entry of
the name. -/
def Harmless (s : FsState) (path : List UInt8) (flags : ℕ) : Prop :=
  (∃ k, (s.openFiles k).used = false) ∨
    ∀ name r, makeShortName path = some name → Returns (fun fuel => findDirEntry fuel s name) r →
      Spared s name flags r

/-- **A FAILED `fs_open`** on an accepted image, with any contents and any open files, leaves every
byte and every descriptor as it was exactly when it is harmless. -/
theorem failed_open_harmless {data : Bytes} {present : Bool} {size : ℕ} {m : FsState}
    (hmount : fsMount data present size = .ok m) (hmode : m.mode = .fat32) (d : Bytes)
    (o : Slot → FsOpen) (path : List UInt8) (flags : ℕ) :
    (∀ fuel s', fsOpen fuel { m with data := d, openFiles := o } path flags = .ok (none, s') →
      s'.data = d ∧ s'.openFiles = o) ↔
    Harmless { m with data := d, openFiles := o } path flags := by
  obtain ⟨-, -, -, b, -, hparse⟩ := fsMount_fat32 hmount hmode
  obtain ⟨-, -, -, -, -, hcount, -⟩ := BootSector.parse_facts hparse
  have hmode' : ({ m with data := d, openFiles := o } : FsState).mode = .fat32 := hmode
  have hcount' : 0 < ({ m with data := d, openFiles := o } : FsState).fat.fatCount := hcount
  have hd : ({ m with data := d, openFiles := o } : FsState).data = d := rfl
  have ho : ({ m with data := d, openFiles := o } : FsState).openFiles = o := rfl
  generalize ({ m with data := d, openFiles := o } : FsState) = s at *
  subst hd ho
  constructor
  · intro hsame
    by_cases hfree : ∃ k, (s.openFiles k).used = false
    · exact .inl hfree
    have hall : ∀ k, (s.openFiles k).used = true := fun k =>
      (Bool.not_eq_false _).mp fun hk => hfree ⟨k, hk⟩
    refine .inr fun name r hname hfind => ?_
    -- the call does return, so the work it did must have changed nothing
    obtain ⟨⟨entry, t⟩, hentry⟩ :=
      openEntry_returns flags hcount' (makeShortName_length hname) hfind
    obtain ⟨n, hn⟩ := id hentry
    obtain ⟨r', hr', hworked⟩ := openEntry_worked (makeShortName_length hname) (hn n (le_refl n))
    obtain rfl : r' = r :=
      (returns_of_approx (fun n => findLoop_approx s name n _ 0) hr').unique hfind
    exact hworked.same_iff.mp (hsame n t (fsOpen_exhausted hmode' hname hall (hn n (le_refl n)))).1
  · intro hharmless fuel s' hopen
    rcases fsOpen_cases hopen with hnone | ⟨name, r, entry, t, hname, hfind, hworked, hclaim⟩
    · obtain rfl : s' = s := congrArg Prod.snd hnone
      exact ⟨rfl, rfl⟩
    cases hclaim with
    | missing => rw [hworked.same_of_none]; exact ⟨rfl, rfl⟩
    | exhausted hall =>
      rw [hworked.openFiles] at hall
      refine ⟨?_, hworked.openFiles⟩
      rcases hharmless with ⟨k, hk⟩ | hspared
      · rw [hall k] at hk
        cases hk
      · exact hworked.same_iff.mpr
          (hspared name r hname (returns_of_approx (fun n => findLoop_approx s name n _ 0) hfind))

/-- `/B`. -/
def pathB : List UInt8 := [0x2F, 0x42]

theorem failed_open_harmless_small :
    ∃ s', fsOpen 1 smallVolume pathB 0 = .ok (none, s') ∧
      s'.data = smallImage ∧ s'.openFiles = fun _ => FsOpen.zero := by
  have hopen : fsOpen 1 smallVolume pathB 0 = .ok (none, _) := fsOpen_of_answer none (by decide +kernel)
  exact ⟨_, hopen, (failed_open_harmless fsMount_smallImage rfl smallImage (fun _ => FsOpen.zero)
    pathB 0).mpr (.inl ⟨0, rfl⟩) 1 _ hopen⟩

/-! ## §3. All descriptors in use. -/

/-- `/A` is opened sixteen times. -/
def exhausted : FsState := (List.replicate 16 (.open pathA fsOCreat)).foldl (after 16) smallVolume

/-- **The seventeenth `fs_open` fails**, and the root directory has a file more: the second slot was
free and now begins with a `B`. -/
theorem exhausted_open_creates :
    ∃ m s s', fsMount smallImage true (16 * 512) = .ok m ∧ m.mode = .fat32 ∧
      s = (List.replicate 16 (.open pathA fsOCreat)).foldl (after 16) m ∧
      fsOpen 16 s pathB fsOCreat = .ok (none, s') ∧
      s.data (1536 + 32) = 0x00 ∧ s'.data (1536 + 32) = 0x42 := by
  refine ⟨smallVolume, exhausted, after 16 exhausted (.open pathB fsOCreat), fsMount_smallImage, rfl,
    rfl, ?_, by decide +kernel, by decide +kernel⟩
  exact fsOpen_of_answer none (by decide +kernel)

end ExoCore.Fat
