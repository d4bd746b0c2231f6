/-
  ExoCore.Fat.Files — a FAT32 file is a BYTE ARRAY WITH A CURSOR.

  The abstract file knows no clusters and no directory: it is the list of its
  bytes and a position.  `AStep` says what a write, a seek and a read may answer
  and do.  `Stored` says that a slot of the root directory and a chain hold such a
  file: every byte of the chain is the byte of the array, and ZERO BEHIND ITS END,
  which is why a gap left by a seek reads as zeros.

  Main results:
    • `FileAt.step` — one call on the descriptor is one step of the abstract file;
    • `fat_file_refines` — a file made by `fs_open` behaves like the abstract file
      in every run, and a later `fs_open` of the name finds the same bytes.
-/
import ExoCore.Fat.Effects

namespace ExoCore.Fat

open ExoCore.Lib List

/-! ## §1. The abstract file. -/

/-- A file as its user sees it. -/
structure AFile where
  bytes : List UInt8
  cursor : ℕ

/-- Store `l` at `c`; a gap is filled with zeros. -/
def overlay (a : List UInt8) (c : ℕ) (l : List UInt8) : List UInt8 :=
  (a ++ List.replicate (c - a.length) 0).take c ++ l ++ a.drop (c + l.length)

/-- Store `l` at the cursor.  A write of no bytes does not extend the file, wherever
the cursor is. -/
def AFile.write (a : AFile) (l : List UInt8) : AFile :=
  if l = [] then a else ⟨overlay a.bytes a.cursor l, a.cursor + l.length⟩

/-- The bases of a seek: the start, the cursor, the end. -/
def AFile.base (a : AFile) (whence : ℤ) : Option ℤ :=
  if whence = 0 then some 0
  else if whence = 1 then some a.cursor
  else if whence = 2 then some a.bytes.length
  else none

/-- A call on the descriptor. -/
inductive FileOp where
  | write (buf : List UInt8)
  | lseek (offset whence : ℤ)
  | read (len : ℕ)

/-- The call, as the driver sees it. -/
def FileOp.call (slot : Slot) : FileOp → Op
  | .write buf => .write slot (some buf)
  | .lseek offset whence => .lseek slot offset whence
  | .read len => .read slot true len

/-- A call, its answer, and whether the volume is full after it. -/
structure Event where
  op : FileOp
  ret : Ret
  full : Prop

/-- **One call on the abstract file.** -/
inductive AStep (a : AFile) : Event → AFile → Prop
  /-- The first `n` bytes are stored; all of them, unless the volume is full. -/
  | write {buf : List UInt8} {n : ℕ} {full : Prop} (hn : n ≤ buf.length)
      (hfull : n < buf.length → full) : AStep a ⟨.write buf, .count n, full⟩ (a.write (buf.take n))
  /-- Not one cluster for the file. -/
  | writeFail {buf : List UInt8} {full : Prop} (hfull : full) : AStep a ⟨.write buf, .fail, full⟩ a
  | lseek {offset whence base : ℤ} {full : Prop} (hb : a.base whence = some base)
      (hpos : 0 ≤ base + offset) :
      AStep a ⟨.lseek offset whence, .pos (base + offset).toNat, full⟩
        { a with cursor := (base + offset).toNat }
  | lseekFail {offset whence : ℤ} {full : Prop}
      (h : ∀ base, a.base whence = some base → base + offset < 0) :
      AStep a ⟨.lseek offset whence, .fail, full⟩ a
  | read {len : ℕ} {full : Prop} :
      AStep a ⟨.read len, .bytes ((a.bytes.drop a.cursor).take len), full⟩
        { a with cursor := a.cursor + min len (a.bytes.length - a.cursor) }

section Overlay

variable {a l : List UInt8} {c : ℕ}

theorem length_overlay (a l : List UInt8) (c : ℕ) :
    (overlay a c l).length = max a.length (c + l.length) := by
  simp only [overlay, length_append, length_take, length_replicate,
    length_drop]
  omega

/-- **The bytes after a write**: the new ones, around them the old ones, zeros between. -/
theorem getD_overlay (a l : List UInt8) (c p : ℕ) : (overlay a c l).getD p 0 =
    if c ≤ p ∧ p < c + l.length then l.getD (p - c) 0 else a.getD p 0 := by
  have hlen : ((a ++ List.replicate (c - a.length) 0).take c).length = c := by
    rw [length_take, length_append, length_replicate]
    omega
  unfold overlay
  rw [append_assoc]
  by_cases hlt : p < c
  · -- in front: the old bytes, padded
    rw [if_neg (by omega), getD_append _ _ _ _ (by omega), getD_eq_getElem?_getD,
      getElem?_take_of_lt hlt, ← getD_eq_getElem?_getD]
    by_cases hin : p < a.length
    · rw [getD_append _ _ _ _ hin]
    · have hzero : (List.replicate (c - a.length) (0 : UInt8)).getD (p - a.length) 0 = 0 := by
        rw [getD_eq_getElem?_getD, getElem?_replicate]
        split <;> rfl
      rw [getD_append_right _ _ _ _ (by omega), hzero, getD_eq_default _ _ (by omega)]
  · rw [getD_append_right _ _ _ _ (by omega), hlen]
    by_cases hin : p < c + l.length
    · rw [if_pos (by omega), getD_append _ _ _ _ (by omega)]
    · rw [if_neg (by omega), getD_append_right _ _ _ _ (by omega),
        getD_eq_getElem?_getD, getElem?_drop, ← getD_eq_getElem?_getD]
      congr 1
      omega

end Overlay

/-! ## §2. The file on the volume. -/

/-- **A file on the volume**: the slot `o` has its name, its size and the first of its
clusters `L`, and the clusters hold its bytes, zeros behind them. -/
structure Stored (s : FsState) (root : List ℕ) (name : List UInt8) (o : ℕ) (bytes : List UInt8)
    (L : List ℕ) : Prop where
  dir : RootDir s root
  finds : Finds s.data name (dirSlots s root) o
  held : Held s L
  apart : ∀ c ∈ root, c ∉ L
  first : entryFirst s.data o = L.headD 0
  size : entrySize s.data o = bytes.length
  fits : bytes.length ≤ L.length * clusterSize s
  byte : ∀ p, p < L.length * clusterSize s → fileByte s L p = bytes.getD p 0

/-- The descriptor mirrors the entry. -/
structure Mirrors (f : FsOpen) (o : ℕ) (a : AFile) (L : List ℕ) : Prop where
  used : f.used = true
  entry : f.dirEntryOffset = o
  first : f.firstCluster = L.headD 0
  size : f.size = a.bytes.length
  cursor : f.pos = a.cursor
  below : f.pos < 2 ^ 32

/-- **The refinement relation**: the descriptor `slot` is the abstract file `a`. -/
def FileAt (root : List ℕ) (slot : Slot) (name : List UInt8) (s : FsState) (a : AFile) : Prop :=
  s.mode = .fat32 ∧ ∃ o L, Stored s root name o a.bytes L ∧ Mirrors (s.openFiles slot) o a L

section Stored

variable {s s' : FsState} {root L new : List ℕ} {name bytes buf : List UInt8} {o n pos : ℕ}

/-- Descriptors are not on the volume. -/
theorem Stored.setOpen (h : Stored s root name o bytes L) (k : Slot) (f : FsOpen) :
    Stored (s.setOpen k f) root name o bytes L :=
  { h with dir := h.dir.setOpen k f, held := h.held.setOpen k f }

theorem Full.setOpen (k : Slot) (f : FsOpen) (h : Full s) : Full (s.setOpen k f) := h

/-- A write into a slot takes no cluster and frees none. -/
theorem Full.entry {d : Bytes} (hr : RootDir s root) (ho : o ∈ dirSlots s root)
    (hd : ∀ a, a < o ∨ o + 32 ≤ a → d a = s.data a) (h : Full s) : Full { s with data := d } := by
  intro c hc
  rw [(hr.entry_changes ho hd).next c hc]
  exact h c hc

/-- The bytes of the array after a write that returned `n`. -/
theorem AFile.write_bytes (a : AFile) (hn : n ≤ buf.length) (p : ℕ) :
    (a.write (buf.take n)).bytes.getD p 0 =
      if a.cursor ≤ p ∧ p < a.cursor + n then buf.getD (p - a.cursor) 0 else a.bytes.getD p 0 := by
  have hlen : (buf.take n).length = n := by
    rw [length_take]
    omega
  unfold AFile.write
  by_cases h0 : buf.take n = []
  · rw [h0] at hlen
    rw [if_pos h0, if_neg (by simp at hlen; omega)]
  · rw [if_neg h0, getD_overlay, hlen]
    split
    · rw [getD_eq_getElem?_getD, getElem?_take_of_lt (by omega),
        ← getD_eq_getElem?_getD]
    · rfl

theorem AFile.write_length (a : AFile) (hn : n ≤ buf.length) :
    (a.write (buf.take n)).bytes.length =
      if n = 0 then a.bytes.length else max a.bytes.length (a.cursor + n) := by
  have hlen : (buf.take n).length = n := by
    rw [length_take]
    omega
  unfold AFile.write
  by_cases h0 : n = 0
  · rw [if_pos h0, if_pos (by rw [h0]; rfl)]
  · rw [if_neg h0, if_neg (by intro h; rw [h] at hlen; simp at hlen; omega), length_overlay, hlen]

theorem AFile.write_cursor (a : AFile) (hn : n ≤ buf.length) :
    (a.write (buf.take n)).cursor = a.cursor + n := by
  have hlen : (buf.take n).length = n := by
    rw [length_take]
    omega
  unfold AFile.write
  split
  · next h0 =>
      rw [h0] at hlen
      simp at hlen
      omega
  · exact congrArg (a.cursor + ·) hlen

/-- **A write keeps the file on the volume.** -/
theorem Stored.wrote {a : AFile} (h : Stored s root name o a.bytes L) (hn : n ≤ buf.length)
    (hw : Wrote s s' L new a.cursor n fun p => buf.getD (p - a.cursor) 0)
    (hword : (a.write (buf.take n)).bytes.length < 2 ^ 32) :
    Stored (s'.enter o ((L ++ new).headD 0) (a.write (buf.take n)).bytes.length) root name o
      (a.write (buf.take n)).bytes (L ++ new) := by
  have ho := h.finds.mem
  have hr' := h.dir.wrote hw h.apart
  have ho' : o ∈ dirSlots s' root := by
    rw [hw.data.dirSlots]
    exact ho
  have hap : ∀ c ∈ root, c ∉ L ++ new := hw.apart h.dir.held h.apart
  -- the entry is written in its slot, outside the file
  have hd : ∀ x, x < o ∨ o + 32 ≤ x → putEntry s'.data o ((L ++ new).headD 0)
      (a.write (buf.take n)).bytes.length x = s'.data x := fun x hx => putEntry_apart (by omega)
  have hch := hr'.entry_changes ho' hd
  have hcs : clusterSize s' = clusterSize s := hw.data.clusterSize
  refine ⟨hr'.entry ho' hd, ?_, ?_, hap,
    entryFirst_putEntry (hw.held.head_lt hr'.layout), entrySize_putEntry hword, ?_, ?_⟩
  · -- the names stay
    have hfinds : Finds s'.data name (dirSlots s root) o := h.finds.congr fun q hq k hk =>
      h.dir.wrote_slot hw h.apart hq k (by omega)
    rw [← hw.data.dirSlots] at hfinds
    exact hfinds.congr fun q hq => hr'.enter_name ho' _ _ hq
  · exact ⟨hw.held.chain.congr fun c hc => hch.next c (hw.held.valid c hc), hw.held.valid,
      hw.held.nodup⟩
  · rw [AFile.write_length a hn]
    show _ ≤ _ * clusterSize s'
    rw [hcs]
    have h1 := h.fits
    have h2 := hw.fits
    have h3 : L.length * clusterSize s ≤ (L ++ new).length * clusterSize s := by
      rw [length_append, Nat.add_mul]
      omega
    split <;> omega
  · intro p hp
    change p < (L ++ new).length * clusterSize s' at hp
    have hsame := hr'.entry_fileByte ho' hd hw.held hap hp
    rw [hcs] at hp
    refine hsame.trans ?_
    rw [hw.byte p hp, AFile.write_bytes a hn]
    by_cases hin : p < L.length * clusterSize s
    · rw [if_pos hin, h.byte p hin]
    · have hend : a.bytes.length ≤ p := by
        have := h.fits
        omega
      rw [if_neg hin, getD_eq_default _ _ hend]

end Stored

/-! ## §3. The calls. -/

/-- The calls considered: positions and ends are below 4 GiB, and only a writable
descriptor is written to. -/
def InRange (f : FsOpen) : FileOp → Prop
  | .write buf => Writable f.flags ∧ f.pos + buf.length < 2 ^ 32
  | .lseek offset whence =>
    -2 ^ 63 ≤ offset ∧ ∀ base, seekBase f whence = some base → base + offset < 2 ^ 32
  | .read _ => True

/-- **A call on the descriptor**, as an event. -/
inductive Call (slot : Slot) (s : FsState) : Event → FsState → Prop
  | intro {op : FileOp} {r : Ret} {s' : FsState} (hin : InRange (s.openFiles slot) op)
      (hret : Returns (fun fuel => exec fuel s (op.call slot)) (r, s')) :
      Call slot s ⟨op, r, Full s'⟩ s'

section Calls

variable {s : FsState} {root : List ℕ} {slot : Slot} {name : List UInt8} {a : AFile}

/-- What a call on the descriptor is to the abstract file. -/
def Simulated (root : List ℕ) (slot : Slot) (name : List UInt8) (s : FsState) (a : AFile)
    (op : FileOp) : Prop :=
  ∃ r s' a', Returns (fun fuel => exec fuel s (op.call slot)) (r, s') ∧
    AStep a ⟨op, r, Full s'⟩ a' ∧ FileAt root slot name s' a'

section

variable (h : FileAt root slot name s a)
include h

/-- **Writing.** -/
theorem FileAt.write {buf : List UInt8} (hin : InRange (s.openFiles slot) (.write buf)) :
    Simulated root slot name s a (.write buf) := by
  obtain ⟨hmode, o, L, hst, hm⟩ := h
  obtain ⟨hwr, hend⟩ := hin
  have hslot := openSlot_of_used hm.used
  have ho : (s.openFiles slot).dirEntryOffset ∈ dirSlots s root := hm.entry ▸ hst.finds.mem
  obtain ⟨-, hfull, hret⟩ | ⟨n, new, s₁, hw, hne, hn, hfull, hret⟩ :=
    writeFile_spec buf hst.dir hst.held ho hm.first hm.below (.inl hend)
  · exact ⟨.fail, s, a, returns_write (b := 0) hmode hslot hwr fun fuel _ => hret fuel,
      .writeFail hfull, hmode, o, L, hst, hm⟩
  · have hlen := AFile.write_length a hn
    have hsize : (afterWrite (s.openFiles slot) n).size = (a.write (buf.take n)).bytes.length := by
      rw [hlen, ← hm.size, ← hm.cursor]
      rfl
    have hword : (a.write (buf.take n)).bytes.length < 2 ^ 32 := by
      have h1 := hst.size
      have h2 := entrySize_lt s.data o
      rw [hlen, ← hm.cursor]
      split <;> omega
    rw [hsize, hm.entry] at hret
    rw [hm.cursor] at hw
    have hst' := hst.wrote hn hw hword
    refine ⟨.count n, _, a.write (buf.take n), returns_write hmode hslot hwr hret,
      .write hn fun hlt => ?_, ?_, o, L ++ new,
      hst'.setOpen slot (written (s.openFiles slot) (L ++ new) n), ?_⟩
    · have ho' : o ∈ dirSlots s₁ root := hw.data.dirSlots ▸ hst.finds.mem
      exact Full.setOpen slot _ ((hfull hlt).entry (hst.dir.wrote hw hst.apart) ho'
        fun x hx => putEntry_apart (by omega))
    · show s₁.mode = _
      rw [hw.data.mode]
      exact hmode
    · rw [setOpen_self]
      refine ⟨hm.used, hm.entry, rfl, hsize, ?_, ?_⟩
      · show (s.openFiles slot).pos + n = _
        rw [AFile.write_cursor a hn, hm.cursor]
      · show (s.openFiles slot).pos + n < 2 ^ 32
        omega

/-- **Reading.** -/
theorem FileAt.read (len : ℕ) : Simulated root slot name s a (.read len) := by
  obtain ⟨hmode, o, L, hst, hm⟩ := h
  generalize hk : min len ((s.openFiles slot).size - (s.openFiles slot).pos) = k
  have hk' : min len (a.bytes.length - a.cursor) = k := by
    rw [← hm.size, ← hm.cursor]
    exact hk
  have hlt : a.bytes.length < 2 ^ 32 := hst.size ▸ entrySize_lt s.data o
  have hfits := hst.fits
  -- the bytes of the chain are the bytes of the array
  have hbytes : (List.range k).map (fun i => fileByte s L ((s.openFiles slot).pos + i)) =
      (a.bytes.drop a.cursor).take len := by
    refine ext_getElem ?_ fun i h1 h2 => ?_
    · rw [length_map, length_range, length_take, length_drop]
      exact hk'.symm
    · rw [length_map, length_range] at h1
      rw [getElem_map, getElem_range, getElem_take, getElem_drop, hm.cursor,
        hst.byte _ (by omega), getD_eq_getElem _ _ (by omega)]
  refine ⟨.bytes ((a.bytes.drop a.cursor).take len),
    s.setOpen slot { s.openFiles slot with pos := (s.openFiles slot).pos + k },
    { a with cursor := a.cursor + k }, ⟨k + 1, fun fuel hfuel => ?_⟩, ?_, hmode, o, L,
    hst.setOpen slot _, ?_⟩
  · rw [← hbytes]
    exact exec_read_spec hst.dir.layout hmode (openSlot_of_used hm.used) hst.held hm.first
      (hm.size ▸ hfits) (hm.size ▸ hlt) hk hfuel
  · rw [← hk']
    exact .read
  · rw [setOpen_self]
    have hpos := hm.below
    have hcur := hm.cursor
    refine { hm with cursor := ?_, below := ?_ }
    · show (s.openFiles slot).pos + k = a.cursor + k
      rw [hcur]
    · show (s.openFiles slot).pos + k < 2 ^ 32
      omega

/-- **Seeking.** -/
theorem FileAt.lseek {offset whence : ℤ} (hin : InRange (s.openFiles slot) (.lseek offset whence)) :
    Simulated root slot name s a (.lseek offset whence) := by
  obtain ⟨hmode, o, L, hst, hm⟩ := h
  obtain ⟨hlow, hhigh⟩ := hin
  have hbase : seekBase (s.openFiles slot) whence = a.base whence := by
    unfold seekBase AFile.base
    rw [hm.size, hm.cursor]
  cases hb : a.base whence with
  | none =>
    refine ⟨.fail, s, a, ⟨0, fun fuel _ => ?_⟩, .lseekFail fun base hbase' => ?_, hmode, o, L, hst,
      hm⟩
    · show Except.ok ((fsLseekFd s slot offset whence).map (Ret.ofOption .pos) id) = _
      rw [fsLseekFd, if_neg (not_not.mpr hmode), openSlot_of_used hm.used]
      simp only [hbase, hb]
      rfl
    · rw [hb] at hbase'
      cases hbase'
  | some base =>
    have hbound := hhigh base (hbase.trans hb)
    have hpos : 0 ≤ base := by
      unfold AFile.base at hb
      split_ifs at hb <;> cases hb <;> omega
    have hret : Returns (fun fuel => exec fuel s (.lseek slot offset whence)) _ :=
      ⟨0, fun fuel _ => exec_lseek_eq hmode (openSlot_of_used hm.used) (hbase.trans hb) (by omega)
        hbound⟩
    by_cases hneg : base + offset < 0
    · rw [if_pos hneg] at hret
      refine ⟨.fail, s, a, hret, .lseekFail fun base' hb' => ?_, hmode, o, L, hst, hm⟩
      rw [hb] at hb'
      cases hb'
      exact hneg
    · rw [if_neg hneg] at hret
      refine ⟨_, _, { a with cursor := (base + offset).toNat }, hret, .lseek hb (by omega), hmode, o,
        L, hst.setOpen slot _, ?_⟩
      rw [setOpen_self]
      exact { hm with cursor := rfl, below := by show (base + offset).toNat < 2 ^ 32; omega }

/-- **One call on the descriptor is one step of the abstract file.** -/
theorem FileAt.step {op : FileOp} (hin : InRange (s.openFiles slot) op) :
    Simulated root slot name s a op := by
  cases op with
  | write buf => exact h.write hin
  | lseek offset whence => exact h.lseek hin
  | read len => exact h.read len

/-- **A run on the descriptor is a run of the abstract file.** -/
theorem FileAt.run {s' : FsState} {events : List Event} (hrun : Trace (Call slot) s events s') :
    ∃ a', Trace AStep a events a' ∧ FileAt root slot name s' a' := by
  refine hrun.simulate (FileAt root slot name) h ?_
  intro t u e b hR hcall
  obtain ⟨hin, hret⟩ := hcall
  obtain ⟨r', s'', b', hret', hstep, hR'⟩ := hR.step hin
  cases hret.unique hret'
  exact ⟨b', hstep, hR'⟩

end

end Calls

/-! ## §4. Opening. -/

section Open

variable {s s₁ : FsState} {root L : List ℕ} {slot : Slot} {name path bytes : List UInt8}
  {o flags : ℕ}

/-- **A new file** is empty. -/
theorem stored_new (hr : RootDir s root) (hname : makeShortName path = some name)
    (hbyte : firstByte path ≠ some 0xE5) {pre post : List ℕ}
    (hslots : dirSlots s root = pre ++ o :: post) (hpre : ∀ q ∈ pre, Skips s.data name q) :
    Stored { s with data := newEntry s.data o name } root name o [] [] := by
  have hlen := makeShortName_length hname
  obtain ⟨h0, h5⟩ := makeShortName_first hname
  have ho : o ∈ dirSlots s root := by
    rw [hslots]
    exact mem_append_right pre mem_cons_self
  have hd : ∀ a, a < o ∨ o + 32 ≤ a → newEntry s.data o name a = s.data a :=
    fun a ha => newEntry_apart hlen ha
  refine ⟨hr.entry ho hd, hr.finds_newEntry hslots hpre hlen h0 fun h => hbyte (h5 h),
    ⟨trivial, nofun, nodup_nil⟩, nofun, entryFirst_newEntry, entrySize_newEntry, Nat.zero_le _, ?_⟩
  intro p hp
  rw [length_nil, Nat.zero_mul] at hp
  omega

/-- The descriptor `fs_open` fills in mirrors the entry. -/
theorem Stored.mirrors (h : Stored s root name o bytes L) (flags : ℕ) :
    Mirrors (opened s o flags) o
      ⟨bytes, if hasFlag flags fsOAppend then bytes.length else 0⟩ L := by
  refine ⟨rfl, rfl, h.first, h.size, ?_, opened_pos_lt s o flags⟩
  show (if hasFlag flags fsOAppend then entrySize s.data o else 0) = _
  rw [h.size]

/-- `fs_open` of a name that is not there, when it succeeds. -/
theorem fileAt_new (hr : RootDir s root) (hmode : s.mode = .fat32)
    (hname : makeShortName path = some name) (hbyte : firstByte path ≠ some 0xE5)
    (hnew : ∀ o, ¬ Finds s.data name (dirSlots s root) o)
    (hopen : Returns (fun fuel => exec fuel s (.open path flags)) (.fd slot, s₁)) :
    FileAt root slot name s₁ ⟨[], 0⟩ := by
  obtain ⟨o, hfinds⟩ | hnone | ⟨o, -, -, ⟨pre, post, hslots, hpre⟩, hsome⟩ :=
    openEntry_spec hr (makeShortName_length hname) flags
  · exact absurd hfinds (hnew o)
  · -- without an entry the answer is `-1`
    have hfail : Returns (fun fuel => exec fuel s (.open path flags)) (.fail, s) :=
      ⟨root.length, fun fuel hfuel => exec_open hmode hname (hnone fuel hfuel)⟩
    cases hopen.unique hfail
  · have hst := stored_new hr hname hbyte hslots hpre
    have hhas := slot_has hst.dir.layout hst.dir.held hst.finds.mem
    obtain ⟨hfail, -⟩ | ⟨k, hfd⟩ := returns_open hmode hname hsome hhas
    · cases hopen.unique hfail
    · cases hopen.unique hfd
      refine ⟨hmode, o, [], hst.setOpen _ _, ?_⟩
      rw [setOpen_self]
      have := hst.mirrors flags
      rwa [length_nil, ite_self] at this

/-- `fs_open` of a file on the volume, with a descriptor to spare. -/
theorem Stored.reopen (h : Stored s root name o bytes L) (hmode : s.mode = .fat32)
    (hname : makeShortName path = some name) (htrunc : hasFlag flags fsOTrunc = false)
    (hfree : (s.openFiles slot).used = false) :
    ∃ k s', Returns (fun fuel => exec fuel s (.open path flags)) (.fd k, s') ∧
      FileAt root k name s' ⟨bytes, if hasFlag flags fsOAppend then bytes.length else 0⟩ := by
  have hhas := slot_has h.dir.layout h.dir.held h.finds.mem
  have hopen : ∀ fuel, root.length ≤ fuel → openEntry fuel s name flags = .ok (some o, s) := by
    intro fuel hfuel
    rw [openEntry_found h.dir hfuel flags h.finds, htrunc]
    rfl
  obtain ⟨-, hall⟩ | ⟨k, hfd⟩ := returns_open hmode hname hopen hhas
  · rw [hall slot] at hfree
    cases hfree
  · refine ⟨k, _, hfd, hmode, o, L, h.setOpen _ _, ?_⟩
    · rw [setOpen_self]
      exact h.mirrors flags

/-- `fs_close` of the descriptor. -/
theorem exec_close (hused : (s.openFiles slot).used = true) (fuel : ℕ) :
    exec fuel s (.close slot) = .ok (.done, s.setOpen slot FsOpen.zero) := by
  show Except.ok ((fsClose s slot).map _ id) = _
  rw [fsClose, openSlot_of_used hused]
  rfl

end Open

/-! ## §5. Files. -/

/-- **A FAT32 file is a byte array with a cursor.**  Let `fs_open` make the file `path` on
a volume with a consistent layout, whose root directory lies below 4 GiB.  Every run of
writes, seeks and reads on the descriptor is a run of the abstract file, and every such
call returns.  After `fs_close`, `fs_open` of the name without `FS_O_TRUNC` succeeds, and
what is then read, written and sought is again a run of the abstract file with the same
bytes. -/
theorem fat_file_refines {s₀ s₁ s₂ : FsState} {root : List ℕ} {name path : List UInt8}
    {flags : ℕ} {slot : Slot} {events : List Event} (hdir : RootDir s₀ root)
    (hmode : s₀.mode = .fat32) (hname : makeShortName path = some name)
    (hbyte : firstByte path ≠ some 0xE5)
    (hnew : ∀ o, ¬ Finds s₀.data name (dirSlots s₀ root) o)
    (hopen : Returns (fun fuel => exec fuel s₀ (.open path flags)) (.fd slot, s₁))
    (hrun : Trace (Call slot) s₁ events s₂) :
    ∃ a, Trace AStep ⟨[], 0⟩ events a ∧
      (∀ op, InRange (s₂.openFiles slot) op →
        ∃ r s', Returns (fun fuel => exec fuel s₂ (op.call slot)) (r, s')) ∧
      ∃ s₃, (∀ fuel, exec fuel s₂ (.close slot) = .ok (.done, s₃)) ∧
        ∀ path' flags', makeShortName path' = some name → hasFlag flags' fsOTrunc = false →
          ∃ k s₄, Returns (fun fuel => exec fuel s₃ (.open path' flags')) (.fd k, s₄) ∧
            ∀ events' s₅, Trace (Call k) s₄ events' s₅ → ∃ a', Trace AStep
              ⟨a.bytes, if hasFlag flags' fsOAppend then a.bytes.length else 0⟩ events' a' := by
  obtain ⟨a, htrace, hfile⟩ := (fileAt_new hdir hmode hname hbyte hnew hopen).run hrun
  refine ⟨a, htrace, fun op hin => ?_, ?_⟩
  · obtain ⟨r, s', _, hret, _⟩ := hfile.step hin
    exact ⟨r, s', hret⟩
  · obtain ⟨hmode₂, o, L, hst, hm⟩ := hfile
    refine ⟨s₂.setOpen slot FsOpen.zero, exec_close hm.used, fun path' flags' hname' htrunc => ?_⟩
    have hfree : ((s₂.setOpen slot FsOpen.zero).openFiles slot).used = false := by
      rw [setOpen_self]
      rfl
    obtain ⟨k, s₄, hret, hfile'⟩ := (hst.setOpen slot FsOpen.zero).reopen hmode₂ hname' htrunc hfree
    refine ⟨k, s₄, hret, fun events' s₅ hrun' => ?_⟩
    obtain ⟨a', htrace', _⟩ := hfile'.run hrun'
    exact ⟨a', htrace'⟩

theorem smallVolume_empty (name : List UInt8) (o : ℕ) :
    ¬ Finds smallVolume.data name (dirSlots smallVolume [2]) o := by
  intro h
  exact h.isFile.1 (smallVolume_slots o h.mem)

/-- `fs_open` makes `/A` on the small volume; a byte is written, and the cursor set back. -/
abbrev newA : FsState := after 1 smallVolume (.open pathA rdwrCreat)
abbrev byteA : FsState := after 16 newA (.write 0 (some [0x78]))
abbrev backA : FsState := after 1 byteA (.lseek 0 0 0)

/-- The byte written to `/A` is read back. -/
theorem fat_file_refines_small :
    ∃ s a, Trace AStep ⟨[], 0⟩ [⟨.write [0x78], .count 1, Full byteA⟩,
      ⟨.lseek 0 0, .pos 0, Full backA⟩, ⟨.read 5, .bytes [0x78], Full s⟩] a := by
  have hopen : Returns (fun fuel => exec fuel smallVolume (.open pathA rdwrCreat)) (.fd 0, newA) :=
    returns_of_answer (by decide +kernel)
  have hwrite : Call 0 newA ⟨.write [0x78], .count 1, Full byteA⟩ byteA :=
    .intro ⟨.inl (by decide +kernel), by decide +kernel⟩ (returns_of_answer (by decide +kernel))
  have hseek : Call 0 byteA ⟨.lseek 0 0, .pos 0, Full backA⟩ backA :=
    .intro ⟨by decide, fun base hb => by cases hb; decide⟩ (returns_of_answer (by decide +kernel))
  have hread : Call 0 backA ⟨.read 5, .bytes [0x78], _⟩ (after 16 backA (.read 0 true 5)) :=
    .intro trivial (returns_of_answer (by decide +kernel))
  obtain ⟨a, htrace, _⟩ := fat_file_refines smallVolume_rootDir rfl (by decide)
    (by decide) (smallVolume_empty nameA) hopen (.snoc (.snoc (.snoc .nil hwrite) hseek) hread)
  exact ⟨_, a, htrace⟩

/-- A write of no bytes at position 10 of an empty file: the size stays 0. -/
theorem empty_write_keeps_size :
    ∃ s₀ s₁ s₂ s₃, fsMount smallImage true (16 * 512) = .ok s₀ ∧
      exec 16 s₀ (.open pathA rdwrCreat) = .ok (.fd 0, s₁) ∧
      exec 16 s₁ (.lseek 0 10 0) = .ok (.pos 10, s₂) ∧ fsFileSize s₂ 0 = some 0 ∧
      exec 16 s₂ (.write 0 (some [])) = .ok (.count 0, s₃) ∧
      fsFileSize s₃ 0 ≠ some (max 0 (10 + 0)) :=
  ⟨smallVolume, _, _, _, fsMount_smallImage, exec_of_answer (by decide +kernel),
    exec_of_answer (by decide +kernel), by decide +kernel, exec_of_answer (by decide +kernel),
    by decide +kernel⟩

end ExoCore.Fat
