/-
  ExoCore.Fat.Offsets — OFFSETS NEAR THE END OF A MACHINE WORD.

  `fs_lseek_fd` computes in 64 bits and stores a position of 32; `fs_read` and
  `fs_write` test the end of a range by a sum that wraps at `2 ^ 64`.  Below those
  bounds both do what their callers rely on, and above them neither does.

    • `seek_reported` — a transfer starts at the position the seek returned, exactly when
      it is below 4 GiB or the position stored has no byte to transfer;
    • `raw_access_clamped` — raw accesses are cut at the end of the store, exactly when
      the sum does not wrap.
-/
import ExoCore.Fat.Effects
import ExoCore.Fat.Release

namespace ExoCore.Fat

open ExoCore.Lib

/-! ## §1. Seeking. -/

section Seek

variable {s : FsState} {f : FsOpen} {slot : Slot} {fd offset whence : ℤ} {n : ℕ}

/-- An open descriptor, as mounting a FAT32 image and opening a file leave it. -/
structure OpenAt (s : FsState) (fd : ℤ) (slot : Slot) : Prop where
  mode : s.mode = .fat32
  found : openSlot s fd = some slot
  cluster : 0 < clusterSize s
  entry : Has s (s.openFiles slot).dirEntryOffset 32
  pos : (s.openFiles slot).pos < 2 ^ 32
  size : (s.openFiles slot).size < 2 ^ 32

/-- The descriptor, moved to the position `p`. -/
def FsState.moveTo (s : FsState) (slot : Slot) (p : ℕ) : FsState :=
  s.setOpen slot { s.openFiles slot with pos := p }

/-- **The next transfer starts at the byte `n`.**  Where a position can be `n`, both transfers
answer as on the descriptor at `n`; behind the end there is nothing to read; and no file
has a byte `2 ^ 32`, so a write there stores nothing. -/
structure StartsAt (s s' : FsState) (fd : ℤ) (slot : Slot) (n : ℕ) : Prop where
  read : n < 2 ^ 32 → ∀ fuel buf len,
    fsReadFd fuel s' fd buf len = fsReadFd fuel (s.moveTo slot n) fd buf len
  write : n < 2 ^ 32 → ∀ fuel buf, fsWriteFd fuel s' fd buf = fsWriteFd fuel (s.moveTo slot n) fd buf
  past : (s.openFiles slot).size ≤ n → ∀ fuel len,
    fsReadFd (fuel + 1) s' fd true len = .ok (some [], s')
  beyond : 2 ^ 32 ≤ n → ∀ fuel bytes k t,
    fsWriteFd fuel s' fd (some bytes) = .ok (some k, t) → k = 0

/-- The walk to the position of `f` ends at a byte of the image. -/
def FindsByte (s : FsState) (f : FsOpen) (grow : Bool) : Prop :=
  ∃ c t, chainCluster s f.firstCluster (f.pos / clusterSize s % 2 ^ 32) grow = .ok (c, t) ∧ c ≠ 0 ∧
    rangeOk s (add64 (clusterOffset s c) (f.pos % clusterSize s)) 1 = true

/-- The file has a byte at the position of its descriptor: it does not end there, and its
chain does not either. -/
def HasByte (s : FsState) (slot : Slot) : Prop :=
  (s.openFiles slot).pos < (s.openFiles slot).size ∧ FindsByte s (s.openFiles slot) false

/-- A byte can be stored at the position of the descriptor: it is open for writing, and the
chain reaches the position or can be extended to it. -/
def TakesByte (s : FsState) (slot : Slot) : Prop :=
  Writable (s.openFiles slot).flags ∧
    ∃ c t, firstCluster s (s.openFiles slot) = .ok (c, t) ∧ c ≠ 0 ∧
      FindsByte t { s.openFiles slot with firstCluster := c } true

/-- **A seek to `target` is to a byte a 32-bit position can name**, or it shows in no transfer:
at the position cut to 32 bits the file has no byte and takes none. -/
def SeekOk (s : FsState) (slot : Slot) (target : ℤ) : Prop :=
  target < 2 ^ 32 ∨
    ¬ HasByte (s.moveTo slot (target.toNat % 2 ^ 32)) slot ∧
      ¬ TakesByte (s.moveTo slot (target.toNat % 2 ^ 32)) slot

theorem rangeOk_one {off len : ℕ} (hlen : 0 < len) (h : rangeOk s off len = true) :
    rangeOk s off 1 = true := by
  simp only [rangeOk, Bool.and_eq_true, decide_eq_true_eq] at h ⊢
  exact ⟨h.1, hlen.trans_le h.2⟩

/-- Without growing, `chain_cluster` returns and changes nothing. -/
theorem chainCluster_walk (s : FsState) (first index : ℕ) :
    ∃ c, chainCluster s first index false = .ok (c, s) := by
  have hloop : ∀ i cur, ∃ c, chainLoop s cur false i = .ok (c, s) := by
    intro i
    induction i with
    | zero => exact fun cur => ⟨cur, rfl⟩
    | succ i ih =>
      intro cur
      obtain ⟨d, hnext⟩ : ∃ d, nextCluster s cur false = .ok (d, s) := by
        rw [nextCluster, fatGet_link]
        show ∃ d, (if isEoc (link s cur) then _ else _) = _
        split
        · exact ⟨0, rfl⟩
        · exact ⟨_, rfl⟩
      rw [chainLoop, hnext]
      show ∃ c, (if validCluster s d then _ else _) = _
      split
      · exact ih _
      · exact ⟨0, rfl⟩
  unfold chainCluster
  split
  · exact ⟨0, rfl⟩
  · exact hloop index first

/-- One byte of a cluster is a chunk. -/
theorem chunkSize_one (hc : 0 < clusterSize s) (pos : ℕ) : chunkSize s pos 1 = 1 := by
  have h1 := chunkSize_pos s pos hc (Nat.zero_lt_one)
  have h2 : chunkSize s pos 1 ≤ 1 := min_le_right _ _
  omega

/-- `fs_read_fd` copies nothing where the walk finds no byte. -/
theorem readLoop_stops (hc : 0 < clusterSize s) (h : ¬ FindsByte s f false) {len : ℕ} (hlen : 0 < len)
    (cap fuel : ℕ) : readLoop s slot len cap (fuel + 1) f [] = .ok ([], s.setOpen slot f) := by
  obtain ⟨c, hwalk⟩ := chainCluster_walk s f.firstCluster (f.pos / clusterSize s % 2 ^ 32)
  rw [readLoop, if_pos (show ([] : List UInt8).length < len from hlen), hwalk]
  show (if c = 0 then _ else _) = _
  split
  · rfl
  · next hc0 =>
      refine if_pos ?_
      rw [Bool.not_eq_true']
      refine Bool.eq_false_iff.mpr fun hok => h ⟨c, s, hwalk, hc0, rangeOk_one ?_ hok⟩
      exact chunkSize_pos s f.pos hc (Nat.sub_pos_of_lt hlen)

/-- Where it finds one, a read of one byte returns one. -/
theorem readLoop_finds (slot : Slot) (hc : 0 < clusterSize s) (h : FindsByte s f false) :
    ∃ b t, readLoop s slot 1 1 2 f [] = .ok ([b], t) := by
  obtain ⟨c, t, hwalk, hc0, hok⟩ := h
  rw [readLoop, if_pos (show ([] : List UInt8).length < 1 from Nat.zero_lt_one), hwalk]
  show ∃ b t, (if c = 0 then _ else _) = _
  rw [if_neg hc0]
  dsimp only
  rw [show chunkSize s f.pos (1 - ([] : List UInt8).length) = 1 from chunkSize_one hc _, hok, copyOut,
    if_pos (has_of_rangeOk hok)]
  exact ⟨_, _, rfl⟩

/-- `fs_write_fd` stores nothing where the walk finds no byte. -/
theorem writeLoop_stops (hc : 0 < clusterSize s) (h : ¬ FindsByte s f true) {bytes : List UInt8}
    {fuel k : ℕ} {g : FsOpen} {t : FsState} (hrun : writeLoop bytes fuel s f 0 = .ok (k, g, t)) :
    k = 0 := by
  cases fuel with
  | zero => cases hrun
  | succ fuel =>
    rw [writeLoop] at hrun
    split at hrun
    · next hlt =>
        obtain ⟨⟨c, s₁⟩, hwalk, hrun⟩ := bind_ok.mp hrun
        have hd := (chainCluster_bounds s _ _ true).value hwalk
        dsimp only at hrun hd
        split at hrun
        · cases hrun
          rfl
        · next hc0 =>
            rw [if_pos ?_] at hrun
            · cases hrun
              rfl
            rw [Bool.not_eq_true']
            refine Bool.eq_false_iff.mpr fun hok => h ⟨c, s₁, hwalk, hc0, ?_⟩
            rw [hd.rangeOk, hd.clusterOffset, hd.clusterSize] at hok
            refine rangeOk_one (chunkSize_pos s₁ f.pos ?_ (Nat.sub_pos_of_lt hlt)) hok
            rwa [hd.clusterSize]
    · cases hrun
      rfl

/-- Where it finds one, a write of one byte stores it. -/
theorem writeLoop_finds (hc : 0 < clusterSize s) (h : FindsByte s f true) (b : UInt8) :
    ∃ g t, writeLoop [b] 2 s f 0 = .ok (1, g, t) := by
  obtain ⟨c, t, hwalk, hc0, hok⟩ := h
  have hd := (chainCluster_bounds s _ _ true).value hwalk
  dsimp only at hd
  rw [writeLoop, if_pos (show 0 < [b].length from Nat.zero_lt_one), hwalk]
  show ∃ g u, (if c = 0 then _ else _) = _
  rw [if_neg hc0]
  dsimp only
  rw [show chunkSize t f.pos ([b].length - 0) = 1 from chunkSize_one (by rwa [hd.clusterSize]) _,
    hd.rangeOk, hd.clusterOffset, hd.clusterSize, hok]
  show ∃ g u, (copyIn t _ [b] >>= _) = _
  rw [copyIn, if_pos (show Has t _ [b].length from hd.has.mpr (has_of_rangeOk hok))]
  exact ⟨_, _, rfl⟩

theorem setOpen_openFiles (s : FsState) (slot : Slot) : s.setOpen slot (s.openFiles slot) = s := by
  unfold FsState.setOpen
  rw [Function.update_eq_self]

theorem firstCluster_onlyData {c : ℕ} {t : FsState} (h : firstCluster s f = .ok (c, t)) :
    OnlyData s t := by
  have hfirst : Ensures Hangs (firstCluster s f) fun r => OnlyData s r.2 :=
    Ensures.ite (fun _ => allocCluster_bounds s) fun _ => OnlyData.refl s
  exact hfirst.value h

namespace OpenAt

/-- Moving a descriptor keeps it open. -/
theorem moveTo (h : OpenAt s fd slot) {p : ℕ} (hp : p < 2 ^ 32) : OpenAt (s.moveTo slot p) fd slot := by
  have hself : (s.moveTo slot p).openFiles slot = { s.openFiles slot with pos := p } :=
    setOpen_self s slot _
  refine ⟨h.mode, ?_, h.cluster, ?_, ?_, ?_⟩
  · have hfound := h.found
    unfold openSlot at hfound ⊢
    split at hfound
    · next hfd =>
        rw [dif_pos hfd]
        dsimp only at hfound ⊢
        split at hfound
        · next hused =>
            cases hfound
            rw [hself, if_pos hused]
        · cases hfound
    · cases hfound
  · rw [hself]
    exact h.entry
  · rw [hself]
    exact hp
  · rw [hself]
    exact h.size

/-- **A read returns nothing**, whatever its length, exactly where the file has no byte. -/
theorem read_iff (h : OpenAt s fd slot) :
    (∀ fuel len, fsReadFd (fuel + 1) s fd true len = .ok (some [], s)) ↔ ¬ HasByte s slot := by
  have hread : ∀ fuel len, fsReadFd fuel s fd true len = if (s.openFiles slot).size ≤ (s.openFiles slot).pos ∨ len = 0 then .ok (some [], s)
      else readLoop s slot (min len ((s.openFiles slot).size - (s.openFiles slot).pos)) len fuel
        (s.openFiles slot) [] >>= fun r => .ok (some r.1, r.2) := by
    intro fuel len
    rw [fsReadFd, if_neg (not_not.mpr h.mode), h.found]
    rfl
  constructor
  · intro hnone hbyte
    obtain ⟨hlt, hfind⟩ := hbyte
    obtain ⟨b, t, hone⟩ := readLoop_finds slot h.cluster hfind
    have h1 := hnone 1 1
    rw [hread, if_neg (by omega), Nat.min_eq_left (by omega), hone] at h1
    cases h1
  · intro hbyte fuel len
    rw [hread]
    split
    · rfl
    · next hcut =>
        rw [readLoop_stops h.cluster (fun hf => hbyte ⟨by omega, hf⟩) (by omega)]
        show Except.ok (some [], s.setOpen slot _) = _
        rw [setOpen_openFiles]

/-- **A write stores nothing**, whatever its bytes, exactly where the file takes no byte. -/
theorem write_iff (h : OpenAt s fd slot) :
    (∀ fuel bytes k t, fsWriteFd fuel s fd (some bytes) = .ok (some k, t) → k = 0) ↔
      ¬ TakesByte s slot := by
  constructor
  · intro hnone htakes
    obtain ⟨hwr, c, t, hfirst, hc0, hfind⟩ := htakes
    have hd := firstCluster_onlyData hfirst
    have hcluster : 0 < clusterSize t := by rw [hd.clusterSize]; exact h.cluster
    obtain ⟨g, u, hone⟩ := writeLoop_finds hcluster hfind 0
    obtain ⟨hdu, hg⟩ := (writeLoop_bounds _ _ _ _ _).value hone
    have hhas : Has u g.dirEntryOffset 32 := by
      rw [show g.dirEntryOffset = _ from hg.entry]
      exact (hd.trans hdu).has.mpr h.entry
    have hstored := (fsWriteFd_eq h.mode h.found [0] 2).trans
      ((if_pos hwr).trans (writeFile_of_loop hfirst hc0 hone hhas))
    cases hnone _ _ _ _ hstored
  · intro htakes fuel bytes k t hrun
    rw [fsWriteFd_eq h.mode h.found] at hrun
    split at hrun
    · next hwr =>
        obtain ⟨⟨c, s₁⟩, hfirst, hrun⟩ := bind_ok.mp hrun
        dsimp only at hrun
        split at hrun
        · cases hrun
        · next hc0 =>
            obtain ⟨⟨done, g, s₂⟩, hloop, hrun⟩ := bind_ok.mp hrun
            obtain ⟨s₃, -, hrun⟩ := bind_ok.mp hrun
            obtain ⟨s₄, -, hrun⟩ := bind_ok.mp hrun
            cases hrun
            refine writeLoop_stops ?_ (fun hf => htakes ⟨hwr, c, s₁, hfirst, hc0, hf⟩) hloop
            rw [(firstCluster_onlyData hfirst).clusterSize]
            exact h.cluster
    · cases hrun

/-- **What a seek does**: it fails and nothing happened, or it returns `base + offset` and
stores that number, cut to 32 bits. -/
theorem lseek_cases (h : OpenAt s fd slot) (hoff : -2 ^ 63 ≤ offset ∧ offset < 2 ^ 63) (whence : ℤ) :
    fsLseekFd s fd offset whence = (none, s) ∨
      ∃ (base : ℤ) (n : ℕ), seekBase (s.openFiles slot) whence = some base ∧ (n : ℤ) = base + offset ∧
        fsLseekFd s fd offset whence = (some n, s.moveTo slot (n % 2 ^ 32)) := by
  rw [fsLseekFd, if_neg (not_not.mpr h.mode), h.found]
  dsimp only
  cases hbase : seekBase (s.openFiles slot) whence with
  | none => exact .inl rfl
  | some base =>
    have hword : 0 ≤ base ∧ base < 2 ^ 32 := by
      have hpos := h.pos
      have hsize := h.size
      unfold seekBase at hbase
      split at hbase
      · cases hbase; omega
      · split at hbase
        · cases hbase; omega
        · split at hbase
          · cases hbase; omega
          · cases hbase
    by_cases hneg : toLong (base + offset) < 0
    · exact .inl (if_pos hneg)
    · refine .inr ⟨base, (toLong (base + offset)).toNat, rfl, ?_, if_neg hneg⟩
      unfold toLong at hneg ⊢
      rw [Int.toNat_of_nonneg (by omega)]
      rw [Int.bmod_def] at hneg ⊢
      omega

end OpenAt

/-- **The position reported is the position used**, exactly for the seeks that a 32-bit
position can express or that show in no transfer.  A seek that returns `-1` changes nothing. -/
theorem seek_reported (h : OpenAt s fd slot) (hoff : -2 ^ 63 ≤ offset ∧ offset < 2 ^ 63) (whence : ℤ) :
    ((fsLseekFd s fd offset whence).1 = none → (fsLseekFd s fd offset whence).2 = s) ∧
      ∀ n, (fsLseekFd s fd offset whence).1 = some n →
        ∃ base, seekBase (s.openFiles slot) whence = some base ∧ (n : ℤ) = base + offset ∧
          (StartsAt s (fsLseekFd s fd offset whence).2 fd slot n ↔ SeekOk s slot (base + offset)) := by
  obtain heq | ⟨base, n, hbase, hn, heq⟩ := h.lseek_cases hoff whence
  · rw [heq]
    refine ⟨fun _ => rfl, fun n hn => ?_⟩
    cases hn
  rw [heq]
  refine ⟨fun hnone => ?_, fun m hm => ?_⟩
  · cases hnone
  cases hm
  have hat : OpenAt (s.moveTo slot (n % 2 ^ 32)) fd slot := h.moveTo (Nat.mod_lt _ (Nat.two_pow_pos 32))
  have hnat : (base + offset).toNat = n := by omega
  have hsize := h.size
  refine ⟨base, hbase, hn, ?_⟩
  unfold SeekOk
  rw [hnat]
  by_cases hlt : n < 2 ^ 32
  · refine iff_of_true ⟨fun _ _ _ _ => ?_, fun _ _ _ => ?_, fun hpast => ?_, fun hge => ?_⟩
      (.inl (by omega))
    · rw [Nat.mod_eq_of_lt hlt]
    · rw [Nat.mod_eq_of_lt hlt]
    · rw [hat.read_iff]
      rintro ⟨hbyte, -⟩
      rw [FsState.moveTo, setOpen_self, Nat.mod_eq_of_lt hlt] at hbyte
      exact absurd hbyte (Nat.not_lt.mpr hpast)
    · exact absurd hlt (Nat.not_lt.mpr hge)
  · constructor
    · intro hs
      exact .inr ⟨hat.read_iff.mp (hs.past (by omega)), hat.write_iff.mp (hs.beyond (by omega))⟩
    · intro hok
      obtain hsmall | ⟨hread, hwrite⟩ := hok
      · omega
      exact ⟨fun hs => absurd hs hlt, fun hs => absurd hs hlt, fun _ => hat.read_iff.mpr hread,
        fun _ => hat.write_iff.mpr hwrite⟩

end Seek

/-- `/A` with the byte `A` in it, opened. -/
def openedA : FsState :=
  after 16 (after 16 smallVolume (.open pathA rdwrCreat)) (.write 0 (some [0x41]))

/-- `/A`, empty and opened for reading. -/
def readableA : FsState := after 16 smallVolume (.open pathA fsOCreat)

/-- A seek to the third byte of a file of one byte, and one to 4 GiB in an empty file that is
open for reading: there is no byte to read and none can be written. -/
theorem seek_reported_small :
    (fsLseekFd openedA 0 2 0).1 = some 2 ∧ StartsAt openedA (fsLseekFd openedA 0 2 0).2 0 0 2 ∧
      (fsLseekFd readableA 0 (2 ^ 32) 0).1 = some (2 ^ 32) ∧
      StartsAt readableA (fsLseekFd readableA 0 (2 ^ 32) 0).2 0 0 (2 ^ 32) := by
  have hA : OpenAt openedA 0 0 := ⟨by decide +kernel, by decide +kernel, by decide +kernel,
    by decide +kernel, by decide +kernel, by decide +kernel⟩
  have hR : OpenAt readableA 0 0 := ⟨by decide +kernel, by decide +kernel, by decide +kernel,
    by decide +kernel, by decide +kernel, by decide +kernel⟩
  have h1 : (fsLseekFd openedA 0 2 0).1 = some 2 := by decide +kernel
  have h2 : (fsLseekFd readableA 0 (2 ^ 32) 0).1 = some (2 ^ 32) := by decide +kernel
  obtain ⟨base, hbase, hsum, hiff⟩ := (seek_reported hA (by decide) 0).2 2 h1
  obtain ⟨base', hbase', hsum', hiff'⟩ := (seek_reported hR (by decide) 0).2 (2 ^ 32) h2
  refine ⟨h1, hiff.mpr (.inl (by omega)), h2, hiff'.mpr (.inr ⟨fun hbyte => ?_, fun htakes => ?_⟩)⟩
  · have hempty : (readableA.openFiles 0).size = 0 := by decide +kernel
    have hlt := hbyte.1
    rw [FsState.moveTo, setOpen_self] at hlt
    exact absurd hlt (hempty ▸ Nat.not_lt_zero _)
  · have hro : ¬ Writable (readableA.openFiles 0).flags := by decide +kernel
    have hwr := htakes.1
    rw [FsState.moveTo, setOpen_self] at hwr
    exact hro hwr

/-- A seek to 4 GiB in a file of one byte: the read behind it finds the first byte. -/
theorem seek_wraps : ∃ s, exec 16 smallVolume (.open pathA rdwrCreat) =
      .ok (.fd 0, after 16 smallVolume (.open pathA rdwrCreat)) ∧
    exec 16 (after 16 smallVolume (.open pathA rdwrCreat)) (.write 0 (some [0x41])) =
      .ok (.count 1, openedA) ∧ fsFileSize openedA 0 = some 1 ∧
    exec 16 openedA (.lseek 0 (2 ^ 32) 0) = .ok (.pos (2 ^ 32), s) ∧
    answer 16 s (.read 0 true 1) = some (.bytes [0x41]) :=
  ⟨_, exec_of_answer (by decide +kernel), exec_of_answer (by decide +kernel), by decide +kernel,
    exec_of_answer (by decide +kernel), by decide +kernel⟩

/-! ## §2. Raw accesses. -/

section Raw

variable {s : FsState} {offset : ℕ} {data : List UInt8}

/-- The bytes of a request that lie in the store. -/
def clampedLen (s : FsState) (offset len : ℕ) : ℕ :=
  if s.size < offset then 0 else min len (s.size - offset)

/-- **A raw access is cut at the end of the store.**  `fs_read` and `fs_write` return the
number of bytes in the store; the write changes those only, and `fs_read` finds them. -/
def Clamped (s : FsState) (offset : ℕ) (data : List UInt8) : Prop :=
  let n := clampedLen s offset data.length
  fsRead s offset true data.length = .ok (getBytes s.data offset n) ∧
    ∃ d, fsWrite s offset (some data) = .ok (n, { s with data := d }) ∧
      (∀ a, ¬ (offset ≤ a ∧ a < offset + n) → d a = s.data a) ∧
      fsRead { s with data := d } offset true data.length = .ok (data.take n)

theorem fsRead_behind (h : s.size < offset) (len : ℕ) : fsRead s offset true len = .ok [] := by
  refine if_pos (.inr ?_)
  simp [rangeOk, h]

theorem fsRead_inside (hp : s.present = true) (h : offset ≤ s.size) (len : ℕ) :
    fsRead s offset true len = copyOut s offset (rawLen s offset len) := by
  refine if_neg ?_
  simp [rangeOk, hp, h]

/-- An offset behind the store. -/
theorem clamped_behind (h : s.size < offset) : Clamped s offset data := by
  have hlen : clampedLen s offset data.length = 0 := if_pos h
  unfold Clamped
  rw [hlen]
  refine ⟨fsRead_behind h _, s.data, if_pos ?_, fun _ _ => rfl, fsRead_behind h _⟩
  simp [rangeOk, h]

/-- A request inside the range of the sum. -/
theorem clamped_inside (hp : s.present = true) (h : offset ≤ s.size)
    (hsum : offset + data.length < 2 ^ 64) : Clamped s offset data := by
  unfold Clamped
  generalize hn : clampedLen s offset data.length = n
  rw [clampedLen, if_neg (Nat.not_lt.mpr h)] at hn
  have hraw : rawLen s offset data.length = n := by
    rw [rawLen, add64, Nat.mod_eq_of_lt hsum]
    split <;> omega
  have htake : (data.take n).length = n := by
    rw [List.length_take]
    omega
  have hhas : Has s offset n := ⟨hp, by omega⟩
  -- the length and the check do not look at the bytes
  have hread : ∀ d, fsRead { s with data := d } offset true data.length =
      .ok (getBytes d offset n) := by
    intro d
    rw [fsRead_inside (s := { s with data := d }) hp h]
    show copyOut { s with data := d } offset (rawLen s offset data.length) = _
    rw [hraw]
    exact if_pos hhas
  refine ⟨hread s.data, putBytes s.data offset (data.take n), ?_, fun a ha => ?_, ?_⟩
  · rw [fsWrite, if_neg (by simp [rangeOk, hp, h]), hraw]
    show (copyIn s offset (data.take n) >>= _) = _
    rw [copyIn, htake, if_pos hhas]
    rfl
  · exact putBytes_apart (by omega)
  · have hback := getBytes_putBytes s.data offset (data.take n)
    rw [htake] at hback
    rw [hread, hback]

/-- **Raw accesses are clamped to the store**, exactly when the sum the code tests does not
wrap; an offset behind the store is always refused. -/
theorem raw_access_clamped (hp : s.present = true) (hsize : s.size < 2 ^ 64)
    (hlen : data.length < 2 ^ 64) :
    Clamped s offset data ↔ s.size < offset ∨ offset + data.length < 2 ^ 64 := by
  constructor
  · intro hc
    by_contra hwrap
    -- the sum wraps to a number in front of `offset`, and the whole length is copied
    have hlong : rawLen s offset data.length = data.length := by
      rw [rawLen, add64]
      exact if_neg (by omega)
    have hout : ¬ Has s offset data.length := fun hhas => by
      have := hhas.2
      omega
    have hfault : fsRead s offset true data.length = .error .image := by
      rw [fsRead_inside hp (by omega), hlong]
      exact if_neg hout
    rw [hc.1] at hfault
    cases hfault
  · rintro (hbehind | hsum)
    · exact clamped_behind hbehind
    · by_cases hbehind : s.size < offset
      · exact clamped_behind hbehind
      · exact clamped_inside hp (by omega) hsum

end Raw

/-- Three bytes over the end of the small image. -/
theorem raw_access_clamped_small : Clamped smallVolume (16 * 512 - 1) [1, 2, 3] :=
  (raw_access_clamped rfl (by decide) (by decide)).mpr (.inr (by decide))

/-- From the second byte on, as many bytes as a `size_t` can say: the copy leaves the
image. -/
theorem raw_access_wraps : fsRead smallVolume 1 true (2 ^ 64 - 1) = .error .image := by
  decide +kernel

end ExoCore.Fat
