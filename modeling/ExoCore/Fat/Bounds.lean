/-
  ExoCore.Fat.Bounds — the driver stays INSIDE THE IMAGE, whatever the image holds.

  Nothing is assumed about the boot sector, the table, the directory or the first
  clusters of files.  Each access is covered either by a `range_ok` next to it or
  by the invariant `Safe`: the directory slot of an open file lies in the image.

  The specifications are `Ensures Hangs …`: a call may only fail by running out
  of fuel, so with any number of turns of any loop no access was out of range.
-/
import ExoCore.Fat.ShortName
import ExoCore.Lib.Ensures
import ExoCore.Lib.Run

namespace ExoCore.Fat

open ExoCore.Lib Function

/-- The only failure allowed. -/
def Hangs (e : Fault) : Prop := e = .hang

/-- No failure allowed. -/
def Never (_ : Fault) : Prop := False

/-- Only bytes of the image changed. -/
def OnlyData (s s' : FsState) : Prop := ∃ d, s' = { s with data := d }

/-! ## §1. Accesses. -/

section Accesses

variable {s s' s'' : FsState} {off n : ℕ} {err : Fault → Prop}

theorem OnlyData.refl (s : FsState) : OnlyData s s := ⟨s.data, rfl⟩

section

variable (h : OnlyData s s')
include h

theorem OnlyData.trans (h' : OnlyData s' s'') : OnlyData s s'' := by
  obtain ⟨d, rfl⟩ := h
  obtain ⟨d', rfl⟩ := h'
  exact ⟨d', rfl⟩

theorem OnlyData.has : Has s' off n ↔ Has s off n := by
  obtain ⟨d, rfl⟩ := h
  exact Iff.rfl

theorem OnlyData.openFiles : s'.openFiles = s.openFiles := by
  obtain ⟨d, rfl⟩ := h
  rfl

theorem OnlyData.mode : s'.mode = s.mode := by
  obtain ⟨d, rfl⟩ := h
  rfl

end

/-- A part of a range of the image. -/
theorem Has.sub {o m : ℕ} (h : Has s off n) (hm : off ≤ o ∧ o + m ≤ off + n) : Has s o m :=
  ⟨h.1, hm.2.trans h.2⟩

/-- A range moved down. -/
theorem Has.down {o : ℕ} (h : Has s off n) (ho : o ≤ off) : Has s o n :=
  ⟨h.1, (Nat.add_le_add_right ho n).trans h.2⟩

/-- **What `range_ok` is for.** -/
theorem has_of_rangeOk (h : rangeOk s off n = true) : Has s off n := by
  simp only [rangeOk, Bool.and_eq_true, decide_eq_true_eq] at h
  exact ⟨h.1.1, by omega⟩

theorem rdByte_bounds (h : Has s off 1) : Ensures err (rdByte s off) fun _ => True := by
  rw [rdByte, if_pos h]
  trivial

theorem rd16_bounds (h : Has s off 2) : Ensures err (rd16 s off) fun _ => True := by
  rw [rd16, if_pos h]
  trivial

theorem rd32_bounds (h : Has s off 4) : Ensures err (rd32 s off) fun _ => True := by
  rw [rd32, if_pos h]
  trivial

theorem copyOut_bounds (h : Has s off n) :
    Ensures err (copyOut s off n) fun l => l.length = n := by
  rw [copyOut, if_pos h]
  exact length_getBytes s.data off n

theorem wr16_bounds {v : ℕ} (h : Has s off 2) : Ensures err (wr16 s off v) (OnlyData s) := by
  rw [wr16, if_pos h]
  exact ⟨_, rfl⟩

theorem wr32_bounds {v : ℕ} (h : Has s off 4) : Ensures err (wr32 s off v) (OnlyData s) := by
  rw [wr32, if_pos h]
  exact ⟨_, rfl⟩

theorem memset_bounds {b : UInt8} (h : Has s off n) :
    Ensures err (memset s off b n) (OnlyData s) := by
  rw [memset, if_pos h]
  exact ⟨_, rfl⟩

theorem copyIn_bounds {l : List UInt8} (h : Has s off l.length) :
    Ensures err (copyIn s off l) (OnlyData s) := by
  rw [copyIn, if_pos h]
  exact ⟨_, rfl⟩

end Accesses

/-! ## §2. The table. -/

section Table

variable {s : FsState}

theorem fatGet_bounds (s : FsState) (c : ℕ) : Ensures Hangs (fatGet s c) fun _ => True := by
  unfold fatGet
  refine Ensures.ite (fun _ => trivial) fun hok => ?_
  have hhas := has_of_rangeOk (by simpa using hok)
  exact (rd32_bounds hhas).bind fun _ _ => trivial

/-- Each copy is tested before it is written. -/
theorem fatSetLoop_bounds (c v : ℕ) : ∀ (n i : ℕ) (s : FsState),
    Ensures Hangs (fatSetLoop s c v i n) fun r => OnlyData s r.2 := by
  intro n
  induction n with
  | zero =>
    intro i s
    exact OnlyData.refl s
  | succ n ih =>
    intro i s
    unfold fatSetLoop
    refine Ensures.ite (fun _ => OnlyData.refl s) fun hok => ?_
    have hhas := has_of_rangeOk (by simpa using hok)
    refine (wr32_bounds hhas).bind fun t ht => ?_
    exact (ih (i + 1) t).mono fun r hr => ht.trans hr

section

variable (s : FsState)

theorem fatSet_bounds (c v : ℕ) : Ensures Hangs (fatSet s c v) fun r => OnlyData s r.2 :=
  fatSetLoop_bounds c v _ 0 s

theorem takeCluster_bounds (c : ℕ) : Ensures Hangs (takeCluster s c) fun r => OnlyData s r.2 := by
  unfold takeCluster
  refine (fatSet_bounds s c _).bind fun r hr => ?_
  refine Ensures.ite (fun _ => hr) fun _ => ?_
  refine Ensures.ite (fun _ => hr) fun hok => ?_
  have hhas := has_of_rangeOk (by simpa using hok)
  exact (memset_bounds hhas).bind fun t ht => hr.trans ht

theorem allocLoop_bounds : ∀ (n c : ℕ),
    Ensures Hangs (allocLoop s c n) fun r => OnlyData s r.2 := by
  intro n
  induction n with
  | zero =>
    intro c
    exact OnlyData.refl s
  | succ n ih =>
    intro c
    unfold allocLoop
    refine (fatGet_bounds s c).bind fun v _ => ?_
    exact Ensures.ite (fun _ => takeCluster_bounds s c) fun _ => ih (c + 1)

theorem allocCluster_bounds : Ensures Hangs (allocCluster s) fun r => OnlyData s r.2 :=
  allocLoop_bounds s _ 2

theorem growChain_bounds (cur : ℕ) : Ensures Hangs (growChain s cur) fun r => OnlyData s r.2 := by
  unfold growChain
  refine (allocCluster_bounds s).bind fun r hr => ?_
  refine Ensures.ite (fun _ => hr) fun _ => ?_
  exact (fatSet_bounds r.2 cur _).bind fun t ht => hr.trans ht

theorem nextCluster_bounds (cur : ℕ) (grow : Bool) :
    Ensures Hangs (nextCluster s cur grow) fun r => OnlyData s r.2 := by
  unfold nextCluster
  refine (fatGet_bounds s cur).bind fun v _ => ?_
  refine Ensures.ite (fun _ => ?_) fun _ => OnlyData.refl s
  exact Ensures.ite (fun _ => growChain_bounds s cur) fun _ => OnlyData.refl s

end

theorem chainLoop_bounds (grow : Bool) : ∀ (n cur : ℕ) (s : FsState),
    Ensures Hangs (chainLoop s cur grow n) fun r => OnlyData s r.2 := by
  intro n
  induction n with
  | zero =>
    intro cur s
    exact OnlyData.refl s
  | succ n ih =>
    intro cur s
    unfold chainLoop
    refine (nextCluster_bounds s cur grow).bind fun r hr => ?_
    refine Ensures.ite (fun _ => ?_) fun _ => hr
    exact (ih r.1 r.2).mono fun q hq => hr.trans hq

theorem chainCluster_bounds (s : FsState) (first index : ℕ) (grow : Bool) :
    Ensures Hangs (chainCluster s first index grow) fun r => OnlyData s r.2 :=
  Ensures.ite (fun _ => OnlyData.refl s) fun _ => chainLoop_bounds grow index first s

theorem freeChain_bounds : ∀ (fuel : ℕ) (s : FsState) (cur : ℕ),
    Ensures Hangs (freeChain fuel s cur) (OnlyData s) := by
  intro fuel
  induction fuel with
  | zero =>
    intro s cur
    rfl
  | succ fuel ih =>
    intro s cur
    unfold freeChain
    refine Ensures.ite (fun _ => ?_) fun _ => OnlyData.refl s
    refine (fatGet_bounds s cur).bind fun next _ => ?_
    refine (fatSet_bounds s cur 0).bind fun r hr => ?_
    refine Ensures.ite (fun _ => hr) fun _ => ?_
    exact (ih r.2 next).mono fun t ht => hr.trans ht

end Table

/-! ## §3. The directory. -/

section Directory

variable {s : FsState} {off : ℕ}

/-- A free slot that was noted lies in the image. -/
def FreeOk (s : FsState) (freeOff : ℕ) : Prop := freeOff = 0 ∨ Has s freeOff 32

/-- The offsets a scan ends with lie in the image. -/
def ScanOk (s : FsState) : Scan → Prop
  | .stop freeOff => FreeOk s freeOff
  | .found entryOff freeOff => Has s entryOff 32 ∧ FreeOk s freeOff
  | .past freeOff => FreeOk s freeOff

/-- The cast to 32 bits only moves an offset down. -/
theorem Has.cast {n : ℕ} (h : Has s off n) : Has s (off % 2 ^ 32) n := h.down (Nat.mod_le _ _)

theorem FreeOk.note {freeOff : ℕ} (h : FreeOk s freeOff) (hoff : Has s off 32) :
    FreeOk s (noteFree freeOff off) := by
  unfold noteFree
  split
  · exact .inr hoff.cast
  · exact h

/-- The slots of one cluster. -/
theorem scanSlots_bounds (name : List UInt8) : ∀ (n off freeOff : ℕ), Has s off (32 * n) →
    FreeOk s freeOff → Ensures Hangs (scanSlots s name n off freeOff) (ScanOk s) := by
  intro n
  induction n with
  | zero =>
    intro off freeOff _ hfree
    exact hfree
  | succ n ih =>
    intro off freeOff hhas hfree
    have hslot : Has s off 32 := hhas.sub (by omega)
    have hrest : Has s (off + 32) (32 * n) := hhas.sub (by omega)
    unfold scanSlots
    refine (rdByte_bounds (hslot.sub (by omega))).bind fun e0 _ => ?_
    refine Ensures.ite (fun _ => hfree.note hslot) fun _ => ?_
    refine Ensures.ite (fun _ => ih _ _ hrest (hfree.note hslot)) fun _ => ?_
    refine (rdByte_bounds (hslot.sub (by omega))).bind fun attr _ => ?_
    refine Ensures.ite (fun _ => ih _ _ hrest hfree) fun _ => ?_
    refine Ensures.ite (fun _ => ih _ _ hrest hfree) fun _ => ?_
    refine (copyOut_bounds (hslot.sub (by omega))).bind fun e _ => ?_
    exact Ensures.ite (fun _ => ⟨hslot.cast, hfree⟩) fun _ => ih _ _ hrest hfree

/-- What `find_dir_entry` returns lies in the image. -/
def FindOk (s : FsState) (r : Option ℕ × ℕ) : Prop :=
  (∀ entryOff, r.1 = some entryOff → Has s entryOff 32) ∧ FreeOk s r.2

theorem findOk_none {freeOff : ℕ} (h : FreeOk s freeOff) : FindOk s (none, freeOff) :=
  ⟨fun _ hfound => (by cases hfound), h⟩

theorem findLoop_bounds (name : List UInt8) : ∀ (fuel c freeOff : ℕ), FreeOk s freeOff →
    Ensures Hangs (findLoop s name fuel c freeOff) (FindOk s) := by
  intro fuel
  induction fuel with
  | zero =>
    intro c freeOff _
    rfl
  | succ fuel ih =>
    intro c freeOff hfree
    unfold findLoop
    refine Ensures.ite (fun _ => ?_) fun _ => findOk_none hfree
    refine Ensures.ite (fun _ => findOk_none hfree) fun hok => ?_
    have hhas := has_of_rangeOk (by simpa using hok)
    have hslots : Has s (clusterOffset s c) (32 * (clusterSize s / 32)) :=
      hhas.sub ⟨le_refl _, Nat.add_le_add_left (Nat.mul_div_le _ _) _⟩
    refine (scanSlots_bounds name _ _ _ hslots hfree).bind fun scan hscan => ?_
    cases scan with
    | stop f => exact findOk_none hscan
    | found e f =>
      refine ⟨fun entryOff hfound => ?_, hscan.2⟩
      cases hfound
      exact hscan.1
    | past f =>
      refine (fatGet_bounds s c).bind fun next _ => ?_
      exact Ensures.ite (fun _ => findOk_none hscan) fun _ => ih next f hscan

theorem entryFirstCluster_bounds (h : Has s off 32) :
    Ensures Hangs (entryFirstCluster s off) fun _ => True := by
  unfold entryFirstCluster
  refine (rd16_bounds (h.sub (by omega))).bind fun _ _ => ?_
  exact (rd16_bounds (h.sub (by omega))).bind fun _ _ => trivial

theorem entrySetFirstCluster_bounds {c : ℕ} (h : Has s off 32) :
    Ensures Hangs (entrySetFirstCluster s off c) (OnlyData s) := by
  unfold entrySetFirstCluster
  refine (wr16_bounds (h.sub (by omega))).bind fun t ht => ?_
  exact (wr16_bounds (ht.has.mpr (h.sub (by omega)))).mono fun u hu => ht.trans hu

end Directory

/-! ## §4. The calls. -/

/-- The directory slot of every open file lies in the image. -/
def Safe (s : FsState) : Prop :=
  ∀ k, (s.openFiles k).used = true → Has s (s.openFiles k).dirEntryOffset 32

/-- What no file call changes: the storage and what the boot sector says about it. -/
def FsState.volume (s : FsState) : Bool × ℕ × FsMode × FatInfo := (s.present, s.size, s.mode, s.fat)

/-- `Safe`, on the volume that was mounted. -/
structure SafeOn (v : Bool × ℕ × FsMode × FatInfo) (s : FsState) : Prop where
  safe : Safe s
  volume : s.volume = v

section Calls

variable {s s' : FsState} {off : ℕ} {v : Bool × ℕ × FsMode × FatInfo}

theorem Safe.onlyData (h : Safe s) (hd : OnlyData s s') : Safe s' := by
  intro k hk
  rw [hd.openFiles] at hk ⊢
  exact hd.has.mpr (h k hk)

theorem Safe.setOpen (h : Safe s) {k : Slot} {o : FsOpen}
    (ho : o.used = true → Has s o.dirEntryOffset 32) : Safe (s.setOpen k o) := by
  exact (forall_update_iff s.openFiles fun _ q => q.used = true → Has s q.dirEntryOffset 32).mpr
    ⟨ho, fun j _ => h j⟩

theorem SafeOn.onlyData (h : SafeOn v s) (hd : OnlyData s s') : SafeOn v s' := by
  refine ⟨h.safe.onlyData hd, ?_⟩
  obtain ⟨d, rfl⟩ := hd
  exact h.volume

theorem SafeOn.setOpen (h : SafeOn v s) {k : Slot} {o : FsOpen}
    (ho : o.used = true → Has s o.dirEntryOffset 32) : SafeOn v (s.setOpen k o) :=
  ⟨h.safe.setOpen ho, h.volume⟩

theorem openSlot_used {fd : ℤ} {k : Slot} (h : openSlot s fd = some k) :
    (s.openFiles k).used = true := by
  unfold openSlot at h
  split at h
  · dsimp only at h
    split at h
    · cases h
      assumption
    · cases h
  · cases h

theorem createEntry_bounds {name : List UInt8} (h : Has s off 32) (hname : name.length = 11) :
    Ensures Hangs (createEntry s name off) (OnlyData s) := by
  unfold createEntry
  refine (memset_bounds h).bind fun s₁ h₁ => ?_
  have hhas₁ : Has s₁ off 32 := h₁.has.mpr h
  refine (copyIn_bounds (hhas₁.sub (by omega))).bind fun s₂ h₂ => ?_
  have hhas₂ : Has s₂ off 32 := h₂.has.mpr hhas₁
  refine (copyIn_bounds (hhas₂.sub ⟨by omega, by simp⟩)).bind fun s₃ h₃ => ?_
  have hhas₃ : Has s₃ off 32 := h₃.has.mpr hhas₂
  refine (wr32_bounds (hhas₃.sub (by omega))).bind fun s₄ h₄ => ?_
  have hall := ((h₁.trans h₂).trans h₃).trans h₄
  exact (entrySetFirstCluster_bounds (h₄.has.mpr hhas₃)).mono fun s₅ h₅ => hall.trans h₅

theorem truncEntry_bounds (fuel : ℕ) (h : Has s off 32) :
    Ensures Hangs (truncEntry fuel s off) (OnlyData s) := by
  unfold truncEntry
  refine (entryFirstCluster_bounds h).bind fun first _ => ?_
  have hfree : Ensures Hangs (freeFirst fuel s first) (OnlyData s) :=
    Ensures.ite (fun _ => freeChain_bounds fuel s first) fun _ => OnlyData.refl s
  refine hfree.bind fun s₁ h₁ => ?_
  have hhas₁ : Has s₁ off 32 := h₁.has.mpr h
  refine (entrySetFirstCluster_bounds hhas₁).bind fun s₂ h₂ => ?_
  have hhas₂ : Has s₂ off 32 := h₂.has.mpr hhas₁
  exact (wr32_bounds (hhas₂.sub (by omega))).mono fun s₃ h₃ => (h₁.trans h₂).trans h₃

/-- The entry `fs_open` works on lies in the image. -/
theorem openEntry_bounds (fuel : ℕ) {name : List UInt8} (flags : ℕ) (hname : name.length = 11) :
    Ensures Hangs (openEntry fuel s name flags) fun r =>
      OnlyData s r.2 ∧ ∀ off, r.1 = some off → Has s off 32 := by
  unfold openEntry
  refine (findLoop_bounds name fuel _ 0 (.inl rfl)).bind fun r hr => ?_
  obtain ⟨found, freeOff⟩ := r
  cases found with
  | none =>
    refine Ensures.ite (fun _ => ⟨OnlyData.refl s, fun off h => by cases h⟩) fun hcond => ?_
    have hhas : Has s freeOff 32 := hr.2.resolve_left fun h0 => hcond (.inr h0)
    refine (createEntry_bounds hhas hname).bind fun t ht => ⟨ht, fun off hoff => ?_⟩
    cases hoff
    exact hhas
  | some entryOff =>
    have hhas : Has s entryOff 32 := hr.1 entryOff rfl
    have hsome : ∀ off, some entryOff = some off → Has s off 32 := by
      intro off hoff
      cases hoff
      exact hhas
    refine Ensures.ite (fun _ => ?_) fun _ => ⟨OnlyData.refl s, hsome⟩
    exact (truncEntry_bounds fuel hhas).bind fun t ht => ⟨ht, hsome⟩

theorem claimSlot_bounds (h : SafeOn v s) (hoff : Has s off 32) (flags : ℕ) :
    Ensures Hangs (claimSlot s off flags) fun r => SafeOn v r.2 := by
  unfold claimSlot
  split
  · exact h
  · refine (entryFirstCluster_bounds hoff).bind fun first _ => ?_
    refine (rd32_bounds (hoff.sub (by omega))).bind fun size _ => ?_
    exact h.setOpen fun _ => hoff

/-- **`fs_open`.** -/
theorem fsOpen_bounds (h : SafeOn v s) (fuel : ℕ) (path : List UInt8) (flags : ℕ) :
    Ensures Hangs (fsOpen fuel s path flags) fun r => SafeOn v r.2 := by
  unfold fsOpen
  refine Ensures.ite (fun _ => h) fun _ => ?_
  cases hname : makeShortName path with
  | none => exact h
  | some name =>
    refine (openEntry_bounds fuel flags (makeShortName_length hname)).bind fun r hr => ?_
    obtain ⟨entry, t⟩ := r
    obtain ⟨hd, hentry⟩ := hr
    cases entry with
    | none => exact h.onlyData hd
    | some off => exact claimSlot_bounds (h.onlyData hd) (hd.has.mpr (hentry off rfl)) flags

theorem chunkSize_le (s : FsState) (pos left : ℕ) : chunkSize s pos left ≤ left := min_le_right _ _

/-- A call that at most moved the cursor of an open descriptor. -/
def Moved (s s' : FsState) : Prop :=
  s' = s ∨ ∃ slot p, (s.openFiles slot).used = true ∧ ((s.openFiles slot).pos < 2 ^ 32 → p < 2 ^ 32) ∧
    s' = s.setOpen slot { s.openFiles slot with pos := p }

theorem SafeOn.moved (h : SafeOn v s) (hm : Moved s s') : SafeOn v s' := by
  obtain rfl | ⟨slot, p, hused, -, rfl⟩ := hm
  · exact h
  · exact h.setOpen fun _ => h.safe slot hused

/-- The copies of `fs_read_fd` stay in the image and in the caller's buffer. -/
theorem readLoop_bounds (slot : Slot) {len cap : ℕ} (hlen : len ≤ cap) :
    ∀ (fuel : ℕ) (f : FsOpen) (out : List UInt8),
      Ensures Hangs (readLoop s slot len cap fuel f out) fun r =>
        ∃ p, (f.pos < 2 ^ 32 → p < 2 ^ 32) ∧ r.2 = s.setOpen slot { f with pos := p } := by
  intro fuel
  induction fuel with
  | zero =>
    intro f out
    rfl
  | succ fuel ih =>
    intro f out
    have hstop : ∃ p, (f.pos < 2 ^ 32 → p < 2 ^ 32) ∧
        s.setOpen slot f = s.setOpen slot { f with pos := p } := ⟨f.pos, id, rfl⟩
    unfold readLoop
    refine Ensures.ite (fun hmore => ?_) fun _ => hstop
    refine (chainCluster_bounds s _ _ false).bind fun r _ => ?_
    refine Ensures.ite (fun _ => hstop) fun _ => ?_
    refine Ensures.ite (fun _ => hstop) fun hok => ?_
    have hhas := has_of_rangeOk (by simpa using hok)
    refine (copyOut_bounds hhas).bind fun bytes _ => ?_
    -- the copy ends at `len` or before
    have hchunk := chunkSize_le s f.pos (len - out.length)
    refine Ensures.ite (fun hover => ?_) fun _ => ?_
    · omega
    · refine (ih _ _).mono fun r hr => ?_
      obtain ⟨p, hp, hr⟩ := hr
      exact ⟨p, fun _ => hp (Nat.mod_lt _ (Nat.two_pow_pos 32)), hr⟩

/-- **`fs_read_fd`.** -/
theorem fsReadFd_bounds (s : FsState) (fuel : ℕ) (fd : ℤ) (buf : Bool) (len : ℕ) :
    Ensures Hangs (fsReadFd fuel s fd buf len) fun r => Moved s r.2 := by
  unfold fsReadFd
  refine Ensures.ite (fun _ => .inl rfl) fun _ => ?_
  cases hk : openSlot s fd with
  | none => exact .inl rfl
  | some slot =>
    refine Ensures.ite (fun _ => .inl rfl) fun _ => ?_
    refine Ensures.ite (fun _ => .inl rfl) fun _ => ?_
    refine (readLoop_bounds slot (min_le_left _ _) fuel _ []).bind fun r hr => ?_
    obtain ⟨p, hp, hset⟩ := hr
    exact .inr ⟨slot, p, openSlot_used hk, hp, hset⟩

/-- **`fs_lseek_fd`.** -/
theorem fsLseekFd_moved (s : FsState) (fd offset whence : ℤ) :
    Moved s (fsLseekFd s fd offset whence).2 := by
  unfold fsLseekFd
  split
  · exact .inl rfl
  split
  · exact .inl rfl
  rename_i slot hk
  split
  · exact .inl rfl
  dsimp only
  split
  · exact .inl rfl
  · exact .inr ⟨slot, _, openSlot_used hk, fun _ => Nat.mod_lt _ (Nat.two_pow_pos 32), rfl⟩

/-- The descriptor is on the same entry and begins at the same cluster. -/
structure SameFile (f g : FsOpen) : Prop where
  used : g.used = f.used
  entry : g.dirEntryOffset = f.dirEntryOffset
  first : g.firstCluster = f.firstCluster

/-- The copies of `fs_write_fd` stay in the image and in the caller's buffer. -/
theorem writeLoop_bounds (buf : List UInt8) : ∀ (fuel : ℕ) (s : FsState) (f : FsOpen) (done : ℕ),
    Ensures Hangs (writeLoop buf fuel s f done) fun r =>
      OnlyData s r.2.2 ∧ SameFile f r.2.1 := by
  intro fuel
  induction fuel with
  | zero =>
    intro s f done
    rfl
  | succ fuel ih =>
    intro s f done
    unfold writeLoop
    have hstop : SameFile f f := ⟨rfl, rfl, rfl⟩
    refine Ensures.ite (fun hmore => ?_) fun _ => ⟨OnlyData.refl s, hstop⟩
    refine (chainCluster_bounds s _ _ true).bind fun r hr => ?_
    obtain ⟨c, t⟩ := r
    refine Ensures.ite (fun _ => ⟨hr, hstop⟩) fun _ => ?_
    refine Ensures.ite (fun _ => ⟨hr, hstop⟩) fun hok => ?_
    have hhas := has_of_rangeOk (by simpa using hok)
    have hchunk := chunkSize_le t f.pos (buf.length - done)
    -- the chunk ends at `len` or before
    have hslice : Ensures Hangs (slice buf done (chunkSize t f.pos (buf.length - done)))
        fun l => l.length = chunkSize t f.pos (buf.length - done) := by
      rw [slice, if_pos (by omega)]
      show ((buf.drop done).take _).length = _
      rw [List.length_take, List.length_drop]
      omega
    refine hslice.bind fun bytes hbytes => ?_
    refine (copyIn_bounds (by rw [hbytes]; exact hhas)).bind fun u hu => ?_
    refine (ih u _ _).mono fun q hq => ⟨(hr.trans hu).trans hq.1, ?_⟩
    exact ⟨hq.2.used, hq.2.entry, hq.2.first⟩

section

variable (h : SafeOn v s)
include h

theorem writeFile_bounds (fuel : ℕ) {slot : Slot} (hused : (s.openFiles slot).used = true)
    (buf : List UInt8) : Ensures Hangs (writeFile fuel s slot buf) fun r => SafeOn v r.2 := by
  have hslot := h.safe slot hused
  unfold writeFile
  have hfirst : Ensures Hangs (firstCluster s (s.openFiles slot)) fun r => OnlyData s r.2 :=
    Ensures.ite (fun _ => allocCluster_bounds s) fun _ => OnlyData.refl s
  refine hfirst.bind fun r hr => ?_
  obtain ⟨first, t⟩ := r
  refine Ensures.ite (fun _ => h.onlyData hr) fun _ => ?_
  refine (writeLoop_bounds buf fuel t _ 0).bind fun q hq => ?_
  obtain ⟨done, f, u⟩ := q
  obtain ⟨hu, hsame⟩ := hq
  dsimp only at hu hsame ⊢
  have hall : OnlyData s u := hr.trans hu
  -- the descriptor still points to the same slot
  have hhas : Has u f.dirEntryOffset 32 := by
    rw [hsame.entry]
    exact hall.has.mpr hslot
  refine (entrySetFirstCluster_bounds hhas).bind fun x hx => ?_
  have hhas' : Has x f.dirEntryOffset 32 := hx.has.mpr hhas
  refine (wr32_bounds (hhas'.sub (by omega))).bind fun w hw => ?_
  have hfin : OnlyData s w := (hall.trans hx).trans hw
  refine (h.onlyData hfin).setOpen fun _ => ?_
  exact hw.has.mpr hhas'

/-- **`fs_write_fd`.** -/
theorem fsWriteFd_bounds (fuel : ℕ) (fd : ℤ) (buf : Option (List UInt8)) :
    Ensures Hangs (fsWriteFd fuel s fd buf) fun r => SafeOn v r.2 := by
  unfold fsWriteFd
  refine Ensures.ite (fun _ => h) fun _ => ?_
  cases hk : openSlot s fd with
  | none => exact h
  | some slot =>
    cases buf with
    | none => exact h
    | some bytes =>
      exact Ensures.ite (fun _ => h) fun _ =>
        writeFile_bounds h fuel (openSlot_used hk) bytes

/-- **`fs_close`.** -/
theorem fsClose_safe (fd : ℤ) : SafeOn v (fsClose s fd).2 := by
  unfold fsClose
  split
  · exact h
  · exact h.setOpen fun hused => by cases hused

/-- **Any call with any arguments.** -/
theorem exec_bounds (fuel : ℕ) (op : Op) :
    Ensures Hangs (exec fuel s op) fun r => SafeOn v r.2 := by
  cases op with
  | «open» path flags =>
    refine Ensures.map ?_
    exact fsOpen_bounds h fuel path flags
  | read fd buf len =>
    refine Ensures.map ?_
    exact (fsReadFd_bounds s fuel fd buf len).mono fun r hr => h.moved hr
  | write fd buf =>
    refine Ensures.map ?_
    exact fsWriteFd_bounds h fuel fd buf
  | lseek fd offset whence => exact h.moved (fsLseekFd_moved s fd offset whence)
  | close fd => exact fsClose_safe h fd

end

end Calls

/-! ## §5. Mounting, and every run. -/

theorem fat32Parse_bounds (s : FsState) : Ensures Never (fat32Parse s) fun _ => True := by
  unfold fat32Parse
  refine Ensures.ite (fun _ => trivial) fun hok => ?_
  have hhas : Has s 0 512 := has_of_rangeOk (by simpa using hok)
  refine (rdByte_bounds (hhas.sub (by omega))).bind fun _ _ => ?_
  refine (rdByte_bounds (hhas.sub (by omega))).bind fun _ _ => ?_
  refine Ensures.ite (fun _ => trivial) fun _ => ?_
  have hboot : Ensures Never (readBootSector s) fun _ => True := by
    unfold readBootSector
    refine (rd16_bounds (hhas.sub (by omega))).bind fun _ _ => ?_
    refine (rdByte_bounds (hhas.sub (by omega))).bind fun _ _ => ?_
    refine (rd16_bounds (hhas.sub (by omega))).bind fun _ _ => ?_
    refine (rdByte_bounds (hhas.sub (by omega))).bind fun _ _ => ?_
    refine (rd16_bounds (hhas.sub (by omega))).bind fun _ _ => ?_
    refine (rd16_bounds (hhas.sub (by omega))).bind fun _ _ => ?_
    refine (rd16_bounds (hhas.sub (by omega))).bind fun _ _ => ?_
    refine (rd32_bounds (hhas.sub (by omega))).bind fun _ _ => ?_
    refine (rd32_bounds (hhas.sub (by omega))).bind fun _ _ => ?_
    refine (rd32_bounds (hhas.sub (by omega))).bind fun _ _ => ?_
    exact (copyOut_bounds (hhas.sub (by omega))).bind fun _ _ => trivial
  exact hboot.bind fun _ _ => trivial

theorem fsMount_bounds (data : Bytes) (present : Bool) (size : ℕ) :
    Ensures Never (fsMount data present size) Safe := by
  unfold fsMount
  refine Ensures.ite (fun _ => ?_) fun _ => fun k hk => by cases hk
  refine (fat32Parse_bounds _).bind fun info _ => ?_
  cases info with
  | none => exact fun k hk => by cases hk
  | some fat => exact fun k hk => by cases hk

/-- One call of a run: any operation with any arguments that returns. -/
def Step (s s' : FsState) : Prop := ∃ fuel op r, exec fuel s op = .ok (r, s')

/-- **The driver is in bounds on every image.**  Mounting returns; and after it no
call of any run reads or writes outside the image or copies outside the first
`len` bytes of the caller's buffer: the only way a call of the model can fail is a
loop that is still running when its fuel is spent. -/
theorem driver_in_bounds (data : Bytes) (present : Bool) (size : ℕ) :
    ∃ s₀, fsMount data present size = .ok s₀ ∧
      ∀ s, Relation.ReflTransGen Step s₀ s →
        ∀ fuel op e, exec fuel s op = .error e → e = .hang := by
  have hmount := fsMount_bounds data present size
  obtain ⟨s₀, hs₀⟩ := hmount.total fun _ h => h
  refine ⟨s₀, hs₀, ?_⟩
  intro s hrun fuel op e he
  have hsafe : SafeOn s₀.volume s := by
    refine inv_of_run (SafeOn s₀.volume) hrun ⟨hmount.value hs₀, rfl⟩ ?_
    intro a b ha hstep
    obtain ⟨fuel, op, r, hexec⟩ := hstep
    exact (exec_bounds ha fuel op).value hexec
  exact (exec_bounds hsafe fuel op).failure he

end ExoCore.Fat
