/-
  ExoCore.Fat.Search — does the DIRECTORY SEARCH end?

  `find_dir_entry` follows the links of the root directory and stops at an end mark, at a cluster
  that does not exist, at a slot that was never used and at the entry it looks for.  It does not
  count its steps.  So it returns exactly when one of the clusters on the way makes it stop, and
  then one of the first `total_clusters + 1` does (`findDirEntry_returns`); `fs_open`, whose other
  loop always ends, returns exactly then.

    • `findDirEntry_returns` — when the search returns;
    • `openEntry_worked`     — what `fs_open` can have done to the image, any image;
    • `search_ends`          — when the search and `fs_open` return;
    • `search_never_ends`    — a full root directory of one cluster that is linked to itself.
-/
import Mathlib.Order.Interval.Finset.Nat
import ExoCore.Lib.Forest
import ExoCore.Fat.Release

namespace ExoCore.Fat

open ExoCore.Lib

/-! ## §1. The search. -/

/-- The `k`-th cluster on the links from the root cluster. -/
def rootWalk (s : FsState) (k : ℕ) : ℕ := (link s)^[k] s.fat.rootCluster

/-- **The search for `name` stops in cluster `c`**: it does not exist or is not in the image, one of
its slots was never used or has the name, or its link is an end mark. -/
def StopsAt (s : FsState) (name : List UInt8) (c : ℕ) : Prop :=
  validCluster s c = false ∨ rangeOk s (clusterOffset s c) (clusterSize s) = false ∨
    (∃ o ∈ slotsFrom (clusterOffset s c) (clusterSize s / 32),
      s.data o = 0x00 ∨ Matches s.data name o) ∨ Eoc (link s c)

section Search

variable {s : FsState} {d : Bytes} {name : List UInt8}

/-- A scan gets past slots that do not stop it, and past no others. -/
theorem scanList_past (l : List ℕ) : ∀ (freeOff : ℕ),
    (∃ f, scanList d name l freeOff = .past f) ↔ ∀ o ∈ l, Skips d name o := by
  induction l with
  | nil => exact fun freeOff => ⟨fun _ o ho => absurd ho List.not_mem_nil, fun _ => ⟨freeOff, rfl⟩⟩
  | cons o l ih =>
    intro freeOff
    rw [List.forall_mem_cons]
    by_cases h0 : d o = 0x00
    · rw [scanList, if_pos h0]
      exact ⟨fun h => h.elim fun f hf => (by cases hf), fun h => absurd h0 h.1.1⟩
    by_cases hm : Matches d name o
    · rw [scanList_match hm]
      exact ⟨fun h => h.elim fun f hf => (by cases hf), fun h => absurd hm h.1.2⟩
    · rw [scanList_skip ⟨h0, hm⟩, ih]
      exact ⟨fun h => ⟨⟨h0, hm⟩, h⟩, fun h => h.2⟩

variable {c : ℕ}

/-- The search goes on behind a cluster that does not stop it. -/
theorem findLoop_goes (h : ¬ StopsAt s name c) (freeOff : ℕ) :
    ∃ f, ∀ fuel, findLoop s name (fuel + 1) c freeOff = findLoop s name fuel (link s c) f := by
  obtain ⟨hc, h⟩ := not_or.mp h
  obtain ⟨hok, h⟩ := not_or.mp h
  obtain ⟨hslots, heoc⟩ := not_or.mp h
  rw [Bool.not_eq_false] at hc hok
  have hskips : ∀ o ∈ slotsFrom (clusterOffset s c) (clusterSize s / 32), Skips s.data name o :=
    fun o ho => ⟨fun h0 => hslots ⟨o, ho, .inl h0⟩, fun hm => hslots ⟨o, ho, .inr hm⟩⟩
  obtain ⟨f, hpast⟩ := (scanList_past _ freeOff).mpr hskips
  refine ⟨f, fun fuel => ?_⟩
  rw [findLoop_scan hc hok, hpast]
  exact if_neg fun he => heoc ((isEoc_iff _).mp he)

/-- The search returns in a cluster that stops it. -/
theorem findLoop_stops (h : StopsAt s name c) (freeOff : ℕ) :
    ∃ r, ∀ fuel, findLoop s name (fuel + 1) c freeOff = .ok r := by
  by_cases hc : validCluster s c = true
  swap
  · refine ⟨(none, freeOff), fun fuel => ?_⟩
    rw [findLoop, if_neg hc]
  by_cases hok : rangeOk s (clusterOffset s c) (clusterSize s) = true
  swap
  · refine ⟨(none, freeOff), fun fuel => ?_⟩
    rw [findLoop, if_pos hc, Bool.eq_false_iff.mpr hok]
    rfl
  cases hscan : scanList s.data name (slotsFrom (clusterOffset s c) (clusterSize s / 32)) freeOff with
  | stop f =>
    refine ⟨(none, f), fun fuel => ?_⟩
    rw [findLoop_scan hc hok, hscan]
  | found o f =>
    refine ⟨(some o, f), fun fuel => ?_⟩
    rw [findLoop_scan hc hok, hscan]
  | past f =>
    have hskips := (scanList_past _ freeOff).mp ⟨f, hscan⟩
    have heoc : isEoc (link s c) = true := by
      rcases h with h | h | ⟨o, ho, h⟩ | h
      · exact absurd hc (by rw [h]; decide)
      · exact absurd hok (by rw [h]; decide)
      · rcases h with h0 | hm
        · exact absurd h0 (hskips o ho).1
        · exact absurd hm (hskips o ho).2
      · exact (isEoc_iff _).mpr h
    refine ⟨(none, f), fun fuel => ?_⟩
    rw [findLoop_scan hc hok, hscan]
    exact if_pos heoc

/-- A search that returned was stopped. -/
theorem stopped_of_findLoop : ∀ (fuel c freeOff : ℕ) {r : Option ℕ × ℕ},
    findLoop s name fuel c freeOff = .ok r → ∃ k, StopsAt s name ((link s)^[k] c) := by
  intro fuel
  induction fuel with
  | zero =>
    intro c freeOff r h
    cases h
  | succ fuel ih =>
    intro c freeOff r h
    by_cases hstop : StopsAt s name c
    · exact ⟨0, hstop⟩
    · obtain ⟨f, hgo⟩ := findLoop_goes hstop freeOff
      rw [hgo] at h
      obtain ⟨k, hk⟩ := ih (link s c) f h
      exact ⟨k + 1, hk⟩

/-- A search that will be stopped returns. -/
theorem findLoop_of_stopped : ∀ (k c freeOff : ℕ), StopsAt s name ((link s)^[k] c) →
    ∃ r, Returns (fun fuel => findLoop s name fuel c freeOff) r := by
  intro k
  induction k with
  | zero =>
    intro c freeOff hstop
    obtain ⟨r, hr⟩ := findLoop_stops hstop freeOff
    exact ⟨r, .stop hr⟩
  | succ k ih =>
    intro c freeOff hstop
    by_cases hhere : StopsAt s name c
    · obtain ⟨r, hr⟩ := findLoop_stops hhere freeOff
      exact ⟨r, .stop hr⟩
    · obtain ⟨f, hgo⟩ := findLoop_goes hhere freeOff
      obtain ⟨r, hr⟩ := ih (link s c) f hstop
      exact ⟨r, hr.turn hgo⟩

/-- A cluster that does not stop the search exists. -/
theorem mem_of_not_stopsAt (h : ¬ StopsAt s name c) : c ∈ Finset.Ico 2 (clusterEnd s) := by
  have hc : validCluster s c = true := Bool.not_eq_false _ ▸ (not_or.mp h).1
  rw [validCluster, Bool.and_eq_true, decide_eq_true_eq, decide_eq_true_eq] at hc
  exact Finset.mem_Ico.mpr hc

/-- **`find_dir_entry` returns** exactly when one of the first clusters on the way stops it. -/
theorem findDirEntry_returns : (∃ r, Returns (fun fuel => findDirEntry fuel s name) r) ↔
    ∃ k ≤ s.fat.totalClusters, StopsAt s name (rootWalk s k) := by
  constructor
  · rintro ⟨r, n, hn⟩
    have hstops := stopped_of_findLoop n s.fat.rootCluster 0 (hn n (le_refl n))
    obtain ⟨k, hk, hstop⟩ := reached_early (fun k => mem_of_not_stopsAt) hstops
    have hend : clusterEnd s ≤ s.fat.totalClusters + 2 := Nat.mod_le _ _
    rw [Nat.card_Ico] at hk
    exact ⟨k, by omega, hstop⟩
  · rintro ⟨k, -, hstop⟩
    exact findLoop_of_stopped k s.fat.rootCluster 0 hstop

end Search

/-! ## §2. `fs_open` on any image. -/

/-- **What `fs_open` does to the image**, by the answer of the search: the entry it works on and the
state it leaves. -/
inductive Worked (s : FsState) (name : List UInt8) (flags : ℕ) :
    Option ℕ × ℕ → Option ℕ × FsState → Prop
  | missing {freeOff : ℕ} (h : hasFlag flags fsOCreat = false ∨ freeOff = 0) :
      Worked s name flags (none, freeOff) (none, s)
  | created {freeOff : ℕ} (hcreat : hasFlag flags fsOCreat = true) (h0 : freeOff ≠ 0)
      (hhas : Has s freeOff 32) :
      Worked s name flags (none, freeOff)
        (some freeOff, { s with data := newEntry s.data freeOff name })
  | found {o freeOff : ℕ} (htrunc : hasFlag flags fsOTrunc = false) (hhas : Has s o 32) :
      Worked s name flags (some o, freeOff) (some o, s)
  | cut {o freeOff fuel : ℕ} {t : FsState} (htrunc : hasFlag flags fsOTrunc = true)
      (hhas : Has s o 32) (hfree : freeFirst fuel s (entryFirst s.data o) = .ok t) :
      Worked s name flags (some o, freeOff) (some o, t.enter o 0 0)

/-- **The end of `fs_open`**, by the entry it works on: the answer and the state. -/
inductive Claimed (t : FsState) (flags : ℕ) : Option ℕ → Option Slot × FsState → Prop
  | missing : Claimed t flags none (none, t)
  | exhausted {o : ℕ} (hall : ∀ k, (t.openFiles k).used = true) : Claimed t flags (some o) (none, t)
  | claimed {o : ℕ} {k : Slot} (hfree : (t.openFiles k).used = false) :
      Claimed t flags (some o) (some k, t.setOpen k (opened t o flags))

section Open

variable {s : FsState} {name path : List UInt8} {flags : ℕ} {r : Option ℕ × ℕ}

variable {fuel : ℕ} {t : FsState}

theorem freeFirst_data {first : ℕ} (h : freeFirst fuel s first = .ok t) :
    OnlyData s t := by
  by_cases h0 : first = 0
  · rw [freeFirst, if_neg (not_not.mpr h0)] at h
    rw [← Except.ok.inj h]
    exact .refl s
  · rw [freeFirst, if_pos h0] at h
    exact (freeChain_bounds fuel s first).value h

/-- The entry lies in the image. -/
theorem Worked.has {o : ℕ} (h : Worked s name flags r (some o, t)) : Has t o 32 := by
  cases h with
  | created _ _ hhas => exact hhas
  | found _ hhas => exact hhas
  | cut _ hhas hfree => exact (freeFirst_data hfree).has.mpr hhas

/-- Cutting a file, after its chain is freed. -/
theorem truncEntry_of_free {o : ℕ} (hhas : Has s o 32)
    (hfree : freeFirst fuel s (entryFirst s.data o) = .ok t) :
    truncEntry fuel s o = .ok (t.enter o 0 0) := by
  unfold truncEntry
  rw [entryFirstCluster_eq hhas]
  show (freeFirst fuel s (entryFirst s.data o) >>= _) = _
  rw [hfree]
  exact putEntry_eq ((freeFirst_data hfree).has.mpr hhas) 0 0

/-- Every run of this part of `fs_open` that returns is one of the four cases. -/
theorem openEntry_worked (hname : name.length = 11) {x : Option ℕ × FsState}
    (h : openEntry fuel s name flags = .ok x) :
    ∃ r, findDirEntry fuel s name = .ok r ∧ Worked s name flags r x := by
  obtain ⟨⟨found, freeOff⟩, hfind, h⟩ := bind_ok.mp h
  have hbounds := (findLoop_bounds name fuel s.fat.rootCluster 0 (.inl rfl)).value hfind
  refine ⟨_, hfind, ?_⟩
  cases found with
  | none =>
    by_cases hcond : !hasFlag flags fsOCreat ∨ freeOff = 0
    · rw [← Except.ok.inj ((if_pos hcond).symm.trans h)]
      exact .missing (hcond.imp_left fun h => by simpa using h)
    · have h := (if_neg hcond).symm.trans h
      obtain ⟨hcreat, h0⟩ := not_or.mp hcond
      have hhas : Has s freeOff 32 := hbounds.2.resolve_left h0
      rw [createEntry_eq hhas hname] at h
      rw [← Except.ok.inj h]
      exact .created (by simpa using hcreat) h0 hhas
  | some o =>
    have hhas : Has s o 32 := hbounds.1 o rfl
    by_cases htrunc : hasFlag flags fsOTrunc = true
    · obtain ⟨t', ht', h⟩ := bind_ok.mp ((if_pos htrunc).symm.trans h)
      obtain ⟨first, hfirst, hrest⟩ := bind_ok.mp ht'
      rw [entryFirstCluster_eq hhas] at hfirst
      obtain ⟨t, hfree, -⟩ := bind_ok.mp hrest
      rw [← Except.ok.inj hfirst] at hfree
      rw [truncEntry_of_free hhas hfree] at ht'
      rw [← Except.ok.inj h, ← Except.ok.inj ht']
      exact .cut htrunc hhas hfree
    · rw [← Except.ok.inj ((if_neg htrunc).symm.trans h)]
      exact .found (Bool.eq_false_iff.mpr htrunc) hhas

/-- **Once the search has answered, the rest returns**: `free_chain` always ends. -/
theorem openEntry_returns (flags : ℕ) (hcount : 0 < s.fat.fatCount) (hname : name.length = 11)
    (hfind : Returns (fun fuel => findDirEntry fuel s name) r) :
    ∃ x, Returns (fun fuel => openEntry fuel s name flags) x := by
  obtain ⟨n, hn⟩ := id hfind
  have hbounds := (findLoop_bounds name n s.fat.rootCluster 0 (.inl rfl)).value (hn n (le_refl n))
  obtain ⟨found, freeOff⟩ := r
  cases found with
  | none =>
    by_cases hcond : !hasFlag flags fsOCreat ∨ freeOff = 0
    · refine ⟨(none, s), hfind.andThen ⟨0, fun fuel _ => ?_⟩⟩
      exact if_pos hcond
    · have hcreate := createEntry_eq (hbounds.2.resolve_left (not_or.mp hcond).2) hname
      refine ⟨(some freeOff, { s with data := newEntry s.data freeOff name }),
        hfind.andThen ⟨0, fun fuel _ => ?_⟩⟩
      show (if !hasFlag flags fsOCreat ∨ freeOff = 0 then _ else (createEntry s name freeOff >>= _)) = _
      rw [if_neg hcond, hcreate]
      rfl
  | some o =>
    by_cases htrunc : hasFlag flags fsOTrunc = true
    · obtain ⟨t, m, hm⟩ : ∃ t, Returns (fun fuel => freeFirst fuel s (entryFirst s.data o)) t := by
        by_cases h0 : entryFirst s.data o = 0
        · exact ⟨s, 0, fun fuel _ => if_neg (not_not.mpr h0)⟩
        · obtain ⟨t, m, hm⟩ := freeChain_returns hcount (entryFirst s.data o)
          exact ⟨t, m, fun fuel hfuel => (if_pos h0).trans (hm fuel hfuel)⟩
      refine ⟨(some o, t.enter o 0 0), hfind.andThen ⟨m, fun fuel hfuel => ?_⟩⟩
      show (if hasFlag flags fsOTrunc then (truncEntry fuel s o >>= _) else _) = _
      rw [if_pos htrunc, truncEntry_of_free (hbounds.1 o rfl) (hm fuel hfuel)]
      rfl
    · exact ⟨(some o, s), hfind.andThen ⟨0, fun fuel _ => if_neg htrunc⟩⟩

/-- **`fs_open`** of an accepted path: the entry, then the descriptor. -/
theorem fsOpen_of_name (hmode : s.mode = .fat32) (hname : makeShortName path = some name)
    (fuel : ℕ) : fsOpen fuel s path flags = openEntry fuel s name flags >>= fun x =>
      match x.1 with
      | none => .ok (none, x.2)
      | some o => claimSlot x.2 o flags := by
  unfold fsOpen
  rw [if_neg (not_not.mpr hmode)]
  generalize makeShortName path = o at hname ⊢
  subst hname
  rfl

theorem fsOpen_of_refused (hname : makeShortName path = none) (fuel : ℕ) :
    fsOpen fuel s path flags = .ok (none, s) := by
  unfold fsOpen
  rw [hname]
  exact ite_self _

/-- **What `fs_open` did**: nothing, or the work on the entry and the claim of a descriptor. -/
theorem fsOpen_cases {y : Option Slot × FsState} (h : fsOpen fuel s path flags = .ok y) :
    y = (none, s) ∨ ∃ name r entry t, makeShortName path = some name ∧
      findDirEntry fuel s name = .ok r ∧ Worked s name flags r (entry, t) ∧
      Claimed t flags entry y := by
  by_cases hmode : s.mode = .fat32
  swap
  · rw [fsOpen, if_pos hmode] at h
    exact .inl (Except.ok.inj h).symm
  cases hname : makeShortName path with
  | none =>
    rw [fsOpen_of_refused hname] at h
    exact .inl (Except.ok.inj h).symm
  | some name =>
    rw [fsOpen_of_name hmode hname] at h
    obtain ⟨⟨entry, t⟩, hentry, h⟩ := bind_ok.mp h
    obtain ⟨r, hfind, hworked⟩ := openEntry_worked (makeShortName_length hname) hentry
    refine .inr ⟨name, r, entry, t, rfl, hfind, hworked, ?_⟩
    cases entry with
    | none =>
      rw [← Except.ok.inj h]
      exact .missing
    | some o =>
      rcases claimSlot_spec hworked.has flags with ⟨hclaim, hall⟩ | ⟨k, hfree, hclaim⟩
      · rw [← Except.ok.inj (hclaim.symm.trans h)]
        exact .exhausted hall
      · rw [← Except.ok.inj (hclaim.symm.trans h)]
        exact .claimed hfree

/-- **`fs_open` returns** when the search does. -/
theorem fsOpen_returns (hcount : 0 < s.fat.fatCount) (hmode : s.mode = .fat32)
    (hname : makeShortName path = some name)
    (hfind : Returns (fun fuel => findDirEntry fuel s name) r) :
    ∃ y, Returns (fun fuel => fsOpen fuel s path flags) y := by
  have hlength := makeShortName_length hname
  obtain ⟨⟨entry, t⟩, hentry⟩ := openEntry_returns flags hcount hlength hfind
  simp only [fsOpen_of_name hmode hname]
  cases entry with
  | none => exact ⟨(none, t), hentry.andThen ⟨0, fun _ _ => rfl⟩⟩
  | some o =>
    obtain ⟨n, hn⟩ := id hentry
    obtain ⟨r, -, hworked⟩ := openEntry_worked hlength (hn n (le_refl n))
    rcases claimSlot_spec hworked.has flags with ⟨hclaim, -⟩ | ⟨k, -, hclaim⟩
    · exact ⟨_, hentry.andThen ⟨0, fun _ _ => hclaim⟩⟩
    · exact ⟨_, hentry.andThen ⟨0, fun _ _ => hclaim⟩⟩

end Open

/-- **THE SEARCH ENDS**, on an accepted image with any contents and any open files: for every name,
exactly when one of the first `total_clusters + 1` clusters on the links from the root cluster stops
it; and `fs_open` of a path returns exactly when that holds for its name, if it is accepted. -/
theorem search_ends {data : Bytes} {present : Bool} {size : ℕ} {m : FsState}
    (hmount : fsMount data present size = .ok m) (hmode : m.mode = .fat32) (d : Bytes)
    (o : Slot → FsOpen) :
    (∀ name, (∃ r, Returns (fun fuel => findDirEntry fuel { m with data := d, openFiles := o } name) r) ↔
      ∃ k ≤ m.fat.totalClusters, StopsAt { m with data := d, openFiles := o } name
        (rootWalk { m with data := d, openFiles := o } k)) ∧
    ∀ path flags,
      (∃ r, Returns (fun fuel => fsOpen fuel { m with data := d, openFiles := o } path flags) r) ↔
        ∀ name, makeShortName path = some name →
          ∃ k ≤ m.fat.totalClusters, StopsAt { m with data := d, openFiles := o } name
            (rootWalk { m with data := d, openFiles := o } k) := by
  obtain ⟨-, -, -, b, -, hparse⟩ := fsMount_fat32 hmount hmode
  obtain ⟨-, -, -, -, -, hcount, -⟩ := BootSector.parse_facts hparse
  have hmode' : ({ m with data := d, openFiles := o } : FsState).mode = .fat32 := hmode
  have hcount' : 0 < ({ m with data := d, openFiles := o } : FsState).fat.fatCount := hcount
  rw [show m.fat = ({ m with data := d, openFiles := o } : FsState).fat from rfl]
  generalize ({ m with data := d, openFiles := o } : FsState) = s at hmode' hcount' ⊢
  refine ⟨fun name => findDirEntry_returns, fun path flags => ?_⟩
  constructor
  · rintro ⟨y, n, hn⟩ name hname
    have hopen : fsOpen n s path flags = .ok y := hn n (le_refl n)
    rw [fsOpen_of_name hmode' hname] at hopen
    obtain ⟨x, hentry, -⟩ := bind_ok.mp hopen
    obtain ⟨r, hr, -⟩ := openEntry_worked (makeShortName_length hname) hentry
    exact findDirEntry_returns.mp ⟨r, returns_of_approx (fun n => findLoop_approx s name n _ 0) hr⟩
  · intro hstops
    cases hname : makeShortName path with
    | none => exact ⟨(none, s), 0, fun fuel _ => fsOpen_of_refused hname fuel⟩
    | some name =>
      obtain ⟨r, hr⟩ := findDirEntry_returns.mpr (hstops name hname)
      exact fsOpen_returns hcount' hmode' hname hr

/-- The root directory is full, and goes on in the next cluster. -/
def linkedImage : Bytes := fillBytes (putBytes smallImage (512 + 8) (leBytes 4 3)) (3 * 512) 512 0x42

def linkedVolume : FsState := { smallVolume with data := linkedImage }

/-- The search follows a link and stops in the second cluster of the root directory. -/
theorem search_ends_linked : rootWalk linkedVolume 1 = 3 ∧
    (∀ fuel, findLoop linkedVolume nameA (fuel + 1) 2 0 = findLoop linkedVolume nameA fuel 3 0) ∧
    ∃ r, Returns (fun fuel => fsOpen fuel linkedVolume pathA fsOCreat) r := by
  have hwalk : rootWalk linkedVolume 1 = 3 := by decide +kernel
  refine ⟨hwalk, fun fuel => ?_, ?_⟩
  · have hscan : scanList linkedVolume.data nameA
        (slotsFrom (clusterOffset linkedVolume 2) (clusterSize linkedVolume / 32)) 0 = .past 0 := by
      decide +kernel
    have hlink : link linkedVolume 2 = 3 := by decide +kernel
    rw [findLoop_scan (by decide) (by decide), hscan, hlink]
    rfl
  refine ((search_ends fsMount_smallImage rfl linkedImage fun _ => FsOpen.zero).2 pathA fsOCreat).mpr ?_
  intro name _
  refine ⟨1, by decide, ?_⟩
  change StopsAt linkedVolume name (rootWalk linkedVolume 1)
  rw [hwalk]
  refine .inr (.inr (.inl ⟨clusterOffset smallVolume 3, ?_, .inl ?_⟩))
  · exact List.mem_cons_self
  · decide +kernel

/-! ## §3. A search without an end. -/

/-- The root directory is full, and its cluster is linked to itself. -/
def loopImage : Bytes := fillBytes (putBytes smallImage (512 + 8) (leBytes 4 2)) (3 * 512) 512 0x42

def loopVolume : FsState := { smallVolume with data := loopImage }

theorem fsMount_loopImage : fsMount loopImage true (16 * 512) = .ok loopVolume := by
  have hparse : fat32Parse { loopVolume with mode := .raw, fat := FatInfo.zero } =
      .ok (some loopVolume.fat) := by decide +kernel
  show (fat32Parse { loopVolume with mode := .raw, fat := FatInfo.zero } >>= _) = _
  rw [hparse]
  rfl

theorem findLoop_loopVolume : ∀ fuel, findLoop loopVolume nameA fuel 2 0 = .error .hang := by
  have hlink : link loopVolume 2 = 2 := by decide +kernel
  have hscan : scanList loopVolume.data nameA
      (slotsFrom (clusterOffset loopVolume 2) (clusterSize loopVolume / 32)) 0 = .past 0 := by
    decide +kernel
  intro fuel
  induction fuel with
  | zero => rfl
  | succ fuel ih =>
    rw [findLoop_scan (by decide) (by decide), hscan, hlink]
    exact ih

/-- **The search for `A` never ends**, and neither does `fs_open("/A")`. -/
theorem search_never_ends :
    ∃ m, fsMount loopImage true (16 * 512) = .ok m ∧ m.mode = .fat32 ∧ nameA.length = 11 ∧
      (∀ fuel, findDirEntry fuel m nameA = .error .hang) ∧
      ∀ fuel, fsOpen fuel m pathA 0 = .error .hang := by
  refine ⟨loopVolume, fsMount_loopImage, rfl, rfl, findLoop_loopVolume, fun fuel => ?_⟩
  have hfind : findDirEntry fuel loopVolume nameA = .error .hang := findLoop_loopVolume fuel
  rw [fsOpen_of_name rfl (show makeShortName pathA = some nameA by decide)]
  unfold openEntry
  rw [hfind]
  rfl

end ExoCore.Fat
