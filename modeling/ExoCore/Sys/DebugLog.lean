/-
  ExoCore.Sys.DebugLog — the debug log of `kernel/debuglog.c`, and the store it is
  flushed to.

  `debuglog_init` mounts the log buffer itself; a later `fs_mount` puts an image in its
  place, and `debuglog_flush` does not know: it writes the log at offset 0 of whatever is
  mounted.  The console feeds the log, also with the line that `fs_mount` prints, so the
  log is never empty, and what it begins with is no boot sector.

  Main results:
    • `sync_flush` — `SYS_SYNC` of `ExoCore.Sys.Dispatch` is the flush;
    • `log_flush` — histories in which no flush finds a log buffer: the image is left alone
      and the files read back what was written;
    • `first_flush_destroys` — the first flush of a log buffer after the mount alters the
      image.
-/
import ExoCore.Sys.Dispatch
import ExoCore.Fat.Geometry

namespace ExoCore.Sys

open ExoCore.Lib ExoCore.Fat List

/-! ## §1. The log. -/

/-- The statics of `debuglog.c` and `fs.c`. -/
structure LogState where
  /-- The bytes at `log_buf`. -/
  buf : Bytes
  /-- `log_size`; `0` when `log_buf` is `NULL`. -/
  size : ℕ
  pos : ℕ
  fs : FsState
  /-- `fs_data` is `log_buf`. -/
  shared : Bool

/-- Write to `log_buf`: a store that is the same memory changes with it. -/
def LogState.setBuf (s : LogState) (buf : Bytes) : LogState :=
  { s with buf := buf, fs := if s.shared then { s.fs with data := buf } else s.fs }

/-- A call of `fs.c`: the log changes when its buffer is the store. -/
def LogState.setFs (s : LogState) (fs : FsState) : LogState :=
  { s with fs := fs, buf := if s.shared then fs.data else s.buf }

/-- `log_buf[0 .. log_pos)`. -/
def LogState.text (s : LogState) : List UInt8 := getBytes s.buf 0 s.pos

/-- `debuglog_char`; without a buffer `log_size` is 0. -/
def debuglogChar (s : LogState) (c : UInt8) : LogState :=
  if s.size ≤ s.pos then s
  else { s.setBuf (Function.update s.buf s.pos c) with pos := s.pos + 1 }

/-- `console_puts`, as far as the log goes. -/
def consolePuts (s : LogState) (l : List UInt8) : LogState := l.foldl debuglogChar s

/-- The loop of `console_udec`; a 32-bit number has at most ten digits. -/
def udecLoop : ℕ → ℕ → List UInt8 → List UInt8
  | 0, _, l => l
  | n + 1, v, l => if v = 0 then l else udecLoop n (v / 10) (UInt8.ofNat (0x30 + v % 10) :: l)

/-- What `console_udec` prints. -/
def udecText (v : ℕ) : List UInt8 :=
  if v % 2 ^ 32 = 0 then [0x30] else udecLoop 10 (v % 2 ^ 32) []

/-- What `fs_mount` prints: `fs_mount FAT32 bytes=…` or `fs_mount raw bytes=…`. -/
def mountText (mode : FsMode) (size : ℕ) : List UInt8 :=
  [0x66, 0x73, 0x5F, 0x6D, 0x6F, 0x75, 0x6E, 0x74, 0x20] ++
    (if mode = .fat32 then fat32Label else [0x72, 0x61, 0x77]) ++
    [0x20, 0x62, 0x79, 0x74, 0x65, 0x73, 0x3D] ++ udecText size ++ [0x0A]

/-- `fs_mount`, with what it prints; `shared` says whether `storage` is `log_buf`. -/
def mount (s : LogState) (data : Bytes) (present : Bool) (size : ℕ) (shared : Bool) :
    Except Fat.Fault LogState := do
  let fs ← fsMount data present size
  .ok (consolePuts { s with fs := fs, shared := shared } (mountText fs.mode size))

/-- `debuglog_init`: `buf` is the memory `mem_alloc` returns if it returns any (`got`), with
whatever it holds. -/
def debuglogInit (fs : FsState) (buf : Bytes) (got : Bool) : Except Fat.Fault LogState :=
  let size := if got then 64 * 1024 else 0
  mount { buf := buf, size := size, pos := 0, fs := fs, shared := false } buf got size got

/-- `debuglog_flush`. -/
def debuglogFlush (s : LogState) : Except Fat.Fault LogState :=
  if s.size = 0 then .ok s else (fsWrite s.fs 0 (some s.text)).map fun r => s.setFs r.2

/-! ## §2. Printing. -/

/-- What printing `t` does to the log. -/
structure Printed (s s' : LogState) (t : List UInt8) : Prop where
  buf : s'.buf = putBytes s.buf s.pos t
  pos : s'.pos = s.pos + t.length
  size : s'.size = s.size
  shared : s'.shared = s.shared
  fs : s.shared = false → s'.fs = s.fs

section Printing

variable {s s' : LogState}

/-- **Printing** appends as much as there is room for. -/
theorem consolePuts_printed (l : List UInt8) : ∀ s : LogState,
    Printed s (consolePuts s l) (l.take (s.size - s.pos)) := by
  induction l with
  | nil =>
    intro s
    rw [take_nil]
    exact ⟨(putBytes_nil s.buf s.pos).symm, rfl, rfl, rfl, fun _ => rfl⟩
  | cons c l ih =>
    intro s
    show Printed s (consolePuts (debuglogChar s c) l) _
    unfold debuglogChar
    split
    · -- the buffer is full
      rename_i hfull
      have h := ih s
      rw [Nat.sub_eq_zero_of_le hfull, take_zero] at h ⊢
      exact h
    · rename_i hroom
      have h := ih { s.setBuf (Function.update s.buf s.pos c) with pos := s.pos + 1 }
      have htake : (c :: l).take (s.size - s.pos) = c :: l.take (s.size - (s.pos + 1)) := by
        rw [show s.size - s.pos = s.size - (s.pos + 1) + 1 by omega, take_succ_cons]
      rw [htake]
      refine ⟨?_, ?_, h.size, h.shared, fun hshared => ?_⟩
      · rw [← putBytes_cons]
        exact h.buf
      · rw [h.pos, length_cons]
        show s.pos + 1 + (l.take (s.size - (s.pos + 1))).length = _
        omega
      · rw [h.fs hshared]
        show (if s.shared then _ else s.fs) = s.fs
        rw [if_neg (by rw [hshared]; decide)]

/-- What is in the log stays. -/
theorem Printed.old {t : List UInt8} (h : Printed s s' t) {a : ℕ} (ha : a < s.pos) :
    s'.buf a = s.buf a := by
  rw [h.buf]
  exact putBytes_apart (.inl ha)

theorem Printed.new {t : List UInt8} (h : Printed s s' t) {a : ℕ} (ha : a < t.length) :
    s'.buf (s.pos + a) = t.getD a 0 := by
  rw [h.buf, putBytes, if_pos ⟨by omega, by omega⟩, Nat.add_sub_cancel_left]

/-- **A mount**: the store, and then the line that is printed. -/
theorem mount_ok {data : Bytes} {present shared : Bool} {size : ℕ}
    (h : mount s data present size shared = .ok s') :
    ∃ fs, fsMount data present size = .ok fs ∧
      s' = consolePuts { s with fs := fs, shared := shared } (mountText fs.mode size) ∧
      (shared = false → s'.fs = fs) := by
  obtain ⟨fs, hfs, hret⟩ := bind_ok.mp h
  cases hret
  exact ⟨fs, hfs, rfl, (consolePuts_printed _ { s with fs := fs, shared := shared }).fs⟩

/-- There is room in the log, and it has its size. -/
structure InLog (s : LogState) : Prop where
  room : s.pos ≤ s.size
  size : s.size ≤ 64 * 1024

theorem InLog.print (h : InLog s) (l : List UInt8) : InLog (consolePuts s l) := by
  have hp := consolePuts_printed l s
  have hroom := h.room
  refine ⟨?_, hp.size.trans_le h.size⟩
  rw [hp.pos, hp.size, length_take]
  omega

end Printing

/-! ## §3. Flushing. -/

/-- The bytes of the image are the same. -/
def Unchanged (s s' : LogState) : Prop := ∀ a, a < s.fs.size → s'.fs.data a = s.fs.data a

/-- The store is an image, apart from the log buffer, on which the file calls are safe. -/
structure OnImage (v : Bool × ℕ × FsMode × FatInfo) (s : LogState) : Prop extends InLog s where
  shared : s.shared = false
  present : s.fs.present = true
  safe : SafeOn v s.fs

section Flushing

variable {s s' : LogState} {v : Bool × ℕ × FsMode × FatInfo}

/-- **A flush** of a log that there is. -/
theorem debuglogFlush_eq (h : OnImage v s) (h0 : s.size ≠ 0) :
    debuglogFlush s = .ok { s with fs := { s.fs with
      data := putBytes s.fs.data 0 (s.text.take (min s.pos s.fs.size)) } } := by
  have hlen : s.text.length = s.pos := length_getBytes s.buf 0 s.pos
  have hword : add64 0 s.pos = s.pos := by
    rw [add64_of_lt (by have := h.room; have := h.size; omega), Nat.zero_add]
  have hraw : rawLen s.fs 0 s.text.length = min s.pos s.fs.size := by
    unfold rawLen
    rw [hlen, hword]
    split <;> omega
  have hrange : rangeOk s.fs 0 0 = true := rangeOk_of_has ⟨h.present, Nat.zero_le _⟩
  have hhas : Has s.fs 0 (s.text.take (min s.pos s.fs.size)).length := by
    refine ⟨h.present, ?_⟩
    rw [length_take]
    omega
  unfold debuglogFlush fsWrite
  rw [if_neg h0]
  dsimp only
  rw [hrange, hraw, copyIn, if_pos hhas]
  show Except.ok (s.setFs _) = _
  unfold LogState.setFs
  rw [if_neg (by rw [h.shared]; decide)]

/-- **A flush returns**, and only the bytes of the image may have changed. -/
theorem OnImage.flush (h : OnImage v s) : ∃ s', debuglogFlush s = .ok s' ∧ OnImage v s' := by
  by_cases h0 : s.size = 0
  · exact ⟨s, if_pos h0, h⟩
  · exact ⟨_, debuglogFlush_eq h h0, { h with safe := h.safe.onlyData ⟨_, rfl⟩ }⟩

/-- **The image begins with the log** after a flush. -/
theorem flush_byte (h : OnImage v s) (h0 : s.size ≠ 0) (hflush : debuglogFlush s = .ok s') {a : ℕ}
    (ha : a < s.pos) (hsize : a < s.fs.size) : s'.fs.data a = s.buf a := by
  have hlen : s.text.length = s.pos := length_getBytes s.buf 0 s.pos
  rw [debuglogFlush_eq h h0] at hflush
  cases hflush
  show putBytes s.fs.data 0 (s.text.take (min s.pos s.fs.size)) a = _
  rw [putBytes, length_take, hlen, if_pos (by omega), Nat.sub_zero, getD_eq_getElem?_getD,
    getElem?_take_of_lt (by omega), ← getD_eq_getElem?_getD]
  exact getD_getBytes s.buf ha

end Flushing

/-! ## §4. The system calls. -/

/-- The log as the kernel of `ExoCore.Sys.Dispatch` has it: its text and its capacity, with
the store it is flushed to. -/
structure LogView (k : Kernel) (s : LogState) : Prop where
  fs : k.fs = s.fs
  log : k.log = s.text
  size : k.logSize = s.size

section View

variable {k : Kernel} {s s' : LogState}

/-- What the kernel prints is what `debuglog_char` stores. -/
theorem LogView.print (h : LogView k s) (hshared : s.shared = false) (l : List UInt8) :
    LogView (consolePrint k l) (consolePuts s l) := by
  have hp := consolePuts_printed l s
  have hlen : s.text.length = s.pos := length_getBytes s.buf 0 s.pos
  refine ⟨h.fs.trans (hp.fs hshared).symm, ?_, h.size.trans hp.size.symm⟩
  show k.log ++ l.take (k.logSize - k.log.length) = getBytes _ 0 _
  rw [h.log, hlen, h.size, hp.pos, ← getBytes_append]
  congr 1
  · exact getBytes_congr fun a _ ha => (hp.old (by omega)).symm
  · rw [hp.buf, getBytes_putBytes]

/-- **`SYS_SYNC` is the flush.** -/
theorem sync_flush (h : LogView k s) (hshared : s.shared = false) (hflush : debuglogFlush s = .ok s')
    (env : Env) (fuel a1 a2 a3 : ℕ) :
    ∃ k', (dispatch env fuel k a1 a2 a3 .sync).result = .ok (0, k') ∧ LogView k' s' := by
  rw [dispatch, h.size]
  unfold debuglogFlush at hflush
  split at hflush
  · next h0 =>
      cases hflush
      exact ⟨k, by rw [if_pos h0]; rfl, h⟩
  · next h0 =>
      obtain ⟨r, hwrite, rfl⟩ := map_ok.mp hflush
      rw [← h.fs, ← h.log] at hwrite
      refine ⟨{ k with fs := r.2 }, ?_, rfl, ?_, h.size⟩
      · rw [if_neg h0, hwrite]
        rfl
      · show k.log = getBytes (if s.shared then _ else s.buf) 0 s.pos
        rw [if_neg (by rw [hshared]; decide)]
        exact h.log

end View

/-! ## §5. Histories. -/

/-- What happens to the log and to the files. -/
inductive LogEvent where
  | print (l : List UInt8)
  | flush
  | file (op : Fat.Op)

/-- One event; `guard` holds around every flush. -/
inductive LogStep (guard : LogState → LogState → Prop) : LogState → LogEvent → LogState → Prop where
  | print {s : LogState} (l : List UInt8) : LogStep guard s (.print l) (consolePuts s l)
  | flush {s s' : LogState} (hguard : guard s s') (h : debuglogFlush s = .ok s') :
      LogStep guard s .flush s'
  | file {s : LogState} {op : Fat.Op} {fuel : ℕ} {r : Fat.Ret} {fs : FsState}
      (h : Fat.exec fuel s.fs op = .ok (r, fs)) : LogStep guard s (.file op) (s.setFs fs)

/-- Any number of events. -/
abbrev LogRun (guard : LogState → LogState → Prop) : LogState → List LogEvent → LogState → Prop :=
  Trace (LogStep guard)

/-- `log_buf` is `NULL`: `mem_alloc` had nothing for `debuglog_init`. -/
def NoBuffer (s : LogState) : Prop := s.size = 0

/-- **A boot**: `debuglog_init`, anything, and the mount of an image that is FAT32. -/
def Booted (got : Bool) (s : LogState) : Prop :=
  ∃ fs buf s₀ l s₁ image size, debuglogInit fs buf got = .ok s₀ ∧
    LogRun (fun _ _ => True) s₀ l s₁ ∧ mount s₁ image true size false = .ok s ∧
    s.fs.mode = .fat32

/-- A file call that returns. -/
def FileStep (s : FsState) (op : Fat.Op) (s' : FsState) : Prop :=
  ∃ fuel r, Fat.exec fuel s op = .ok (r, s')

/-- The file calls of a history. -/
def fileOps (l : List LogEvent) : List Fat.Op :=
  l.filterMap fun e => match e with
    | .file op => some op
    | _ => none

section Histories

variable {guard : LogState → LogState → Prop} {s s' : LogState} {e : LogEvent} {got : Bool}
  {v : Bool × ℕ × FsMode × FatInfo}

theorem LogStep.inLog (h : LogStep guard s e s') (hs : InLog s) : InLog s' := by
  cases h with
  | print l => exact hs.print l
  | flush _ hflush =>
    unfold debuglogFlush at hflush
    split at hflush
    · cases hflush
      exact hs
    · obtain ⟨r, -, rfl⟩ := map_ok.mp hflush
      exact ⟨hs.room, hs.size⟩
  | file _ => exact ⟨hs.room, hs.size⟩

theorem debuglogInit_inLog {fs : FsState} {buf : Bytes}
    (h : debuglogInit fs buf got = .ok s) : InLog s := by
  obtain ⟨fs', -, rfl, -⟩ := mount_ok h
  refine InLog.print ⟨Nat.zero_le _, ?_⟩ _
  show (if got then 64 * 1024 else 0) ≤ 64 * 1024
  split <;> omega

/-- **After a boot** the store is the image. -/
theorem Booted.onImage (h : Booted got s) : OnImage s.fs.volume s := by
  obtain ⟨fs, buf, s₀, l, s₁, image, size, hinit, hrun, hmount, hmode⟩ := h
  have hin : InLog s₁ := hrun.inv InLog (debuglogInit_inLog hinit) fun ha hstep => hstep.inLog ha
  obtain ⟨fs', hfs, hprint, heq⟩ := mount_ok hmount
  have hroom : InLog s := by
    rw [hprint]
    exact InLog.print (s := { s₁ with fs := fs', shared := false }) ⟨hin.room, hin.size⟩ _
  have hshared : s.shared = false := by
    rw [hprint]
    exact (consolePuts_printed _ _).shared
  rw [heq rfl] at hmode
  refine ⟨hroom, hshared, ?_, ?_⟩
  · rw [heq rfl]
    exact (fsMount_fat32 hfs hmode).1
  · rw [heq rfl]
    exact ⟨(fsMount_bounds image true size).value hfs, rfl⟩

/-- **One event** after the boot. -/
theorem LogStep.onImage (h : LogStep guard s e s') (hs : OnImage v s) : OnImage v s' := by
  cases h with
  | print l =>
    have hp := consolePuts_printed l s
    have heq := hp.fs hs.shared
    exact ⟨hs.print l, hp.shared.trans hs.shared, heq ▸ hs.present, heq ▸ hs.safe⟩
  | flush _ hflush =>
    obtain ⟨t, ht, himage⟩ := hs.flush
    cases hflush.symm.trans ht
    exact himage
  | file hexec =>
    have hsafe := (exec_bounds hs.safe _ _).value hexec
    refine ⟨⟨hs.room, hs.size⟩, hs.shared, ?_, hsafe⟩
    have hvol := hsafe.volume.trans hs.safe.volume.symm
    exact (congrArg Prod.fst hvol).trans hs.present

theorem logRun_onImage {l : List LogEvent} (hs : OnImage v s) (hrun : LogRun guard s l s') :
    OnImage v s' := hrun.inv (OnImage v) hs fun ha hstep => hstep.onImage ha

/-- **Where no flush finds a buffer**, no byte of the image changes in any of them, and they are
not there for the files. -/
theorem logRun_noBuffer {l : List LogEvent} (hs : OnImage v s)
    (hrun : LogRun (fun t _ => NoBuffer t) s l s') :
    LogRun Unchanged s l s' ∧ Trace FileStep s.fs (fileOps l) s'.fs := by
  induction hrun with
  | nil => exact ⟨.nil, .nil⟩
  | snoc hpre hstep ih =>
    have ht := logRun_onImage hs hpre
    obtain ⟨hrun', hfiles⟩ := ih
    unfold fileOps at hfiles ⊢
    rw [filterMap_append]
    cases hstep with
    | print l =>
      rw [(consolePuts_printed l _).fs ht.shared]
      exact ⟨hrun'.snoc (.print l), (append_nil _).symm ▸ hfiles⟩
    | flush hnone hflush =>
      cases hflush.symm.trans (if_pos hnone)
      exact ⟨hrun'.snoc (.flush (fun _ _ => rfl) hflush), (append_nil _).symm ▸ hfiles⟩
    | file hexec => exact ⟨hrun'.snoc (.file hexec), hfiles.snoc ⟨_, _, hexec⟩⟩

end Histories

/-- **LOG FLUSHING.**  After a boot, in every history whose flushes find no log buffer (there is
none, or nothing is flushed) every flush leaves the bytes of the image alone, and the files
go through exactly what the file calls did.  In every history a flush is what `SYS_SYNC` does,
and it returns. -/
theorem log_flush (got : Bool) (s : LogState) (hboot : Booted got s) :
    (∀ l t, LogRun (fun t _ => NoBuffer t) s l t →
      LogRun Unchanged s l t ∧ Trace FileStep s.fs (fileOps l) t.fs) ∧
    ∀ l t k, LogRun (fun _ _ => True) s l t → LogView k t → ∀ env fuel a1 a2 a3,
      ∃ t' k', debuglogFlush t = .ok t' ∧
        (dispatch env fuel k a1 a2 a3 .sync).result = .ok (0, k') ∧ LogView k' t' := by
  have hs := hboot.onImage
  refine ⟨fun l t hrun => logRun_noBuffer hs hrun, fun l t k hrun hview env fuel a1 a2 a3 => ?_⟩
  have ht := logRun_onImage hs hrun
  obtain ⟨t', hflush, -⟩ := ht.flush
  obtain ⟨k', hsync, hview'⟩ := sync_flush hview ht.shared hflush env fuel a1 a2 a3
  exact ⟨t', k', hflush, hsync, hview'⟩

/-- `fs_mount` always comes back. -/
theorem mount_total (s : LogState) (data : Bytes) (present : Bool) (size : ℕ) (shared : Bool) :
    ∃ s', mount s data present size shared = .ok s' := by
  obtain ⟨fs, hfs⟩ := (fsMount_bounds data present size).total fun _ h => h
  exact ⟨_, bind_ok.mpr ⟨fs, hfs, rfl⟩⟩

/-- A boot with the small volume. -/
theorem booted_small (got : Bool) : ∃ fs buf s₀ s, debuglogInit fs buf got = .ok s₀ ∧
    mount s₀ smallImage true (16 * 512) false = .ok s ∧ Booted got s ∧ s.fs = smallVolume ∧
    s.size = if got then 64 * 1024 else 0 := by
  obtain ⟨s₀, hinit⟩ : ∃ s₀, debuglogInit smallVolume (fun _ => 0) got = .ok s₀ :=
    mount_total _ (fun _ => 0) got _ got
  have hsize : s₀.size = if got then 64 * 1024 else 0 := by
    obtain ⟨fs, -, rfl, -⟩ := mount_ok hinit
    exact (consolePuts_printed _ _).size
  have hp := consolePuts_printed (mountText .fat32 (16 * 512))
    { s₀ with fs := smallVolume, shared := false }
  have hmount : mount s₀ smallImage true (16 * 512) false = .ok (consolePuts
      { s₀ with fs := smallVolume, shared := false } (mountText .fat32 (16 * 512))) :=
    bind_ok.mpr ⟨smallVolume, fsMount_smallImage, rfl⟩
  have hfs := hp.fs rfl
  refine ⟨_, _, s₀, _, hinit, hmount, ⟨_, _, s₀, [], s₀, _, _, hinit, .nil, hmount, ?_⟩, hfs,
    hp.size.trans hsize⟩
  rw [hfs]
  rfl

/-- `/A` is made, gets a byte and is rewound. -/
def storeA : List Fat.Op := [.open pathA rdwrCreat, .write 0 (some [0x41]), .lseek 0 0 0]

/-- A log of 64 KiB: something is printed, `/A` is written, and nothing is flushed; the byte
reads back.  And a boot without memory for the log, with a flush in between. -/
theorem log_flush_quiet :
    (∃ s t, Booted true s ∧ s.size = 64 * 1024 ∧
      LogRun Unchanged s (.print [0x78] :: storeA.map .file) t ∧ Trace FileStep smallVolume storeA t.fs ∧
      Fat.answer 16 t.fs (.read 0 true 1) = some (.bytes [0x41])) ∧
    ∃ s, Booted false s ∧ LogRun Unchanged s [.flush] s := by
  constructor
  · obtain ⟨-, -, -, s, -, -, hboot, hfs, hsize⟩ := booted_small true
    have hfs' : (consolePuts s [0x78]).fs = smallVolume :=
      ((consolePuts_printed [0x78] s).fs hboot.onImage.shared).trans hfs
    have hopen : Fat.exec 16 (consolePuts s [0x78]).fs (.open pathA rdwrCreat) =
        .ok (.fd 0, after 16 smallVolume (.open pathA rdwrCreat)) := by
      rw [hfs']
      exact exec_of_answer (by decide +kernel)
    have hwrite : Fat.exec 16 (after 16 smallVolume (.open pathA rdwrCreat)) (.write 0 (some [0x41])) =
        .ok (.count 1, _) := exec_of_answer (by decide +kernel)
    have hseek : Fat.exec 16 (after 16 (after 16 smallVolume (.open pathA rdwrCreat))
        (.write 0 (some [0x41]))) (.lseek 0 0 0) = .ok (.pos 0, _) := exec_of_answer (by decide +kernel)
    obtain ⟨hkept, hfiles⟩ := (log_flush true s hboot).1 (.print [0x78] :: storeA.map .file) _
      (((Trace.nil.snoc (.print [0x78])).snoc (.file hopen)).snoc (.file hwrite) |>.snoc (.file hseek))
    have hread : Fat.answer 16 (storeA.foldl (after 16) smallVolume) (.read 0 true 1) =
        some (.bytes [0x41]) := by decide +kernel
    exact ⟨s, _, hboot, hsize, hkept, hfs ▸ hfiles, hread⟩
  · obtain ⟨-, -, -, s, -, -, hboot, -, hsize⟩ := booted_small false
    exact ⟨s, hboot, ((log_flush false s hboot).1 [.flush] s
      (Trace.nil.snoc (.flush hsize (if_pos hsize)))).1⟩

/-! ## §6. The first flush. -/

/-- There is a log, and it begins with a line of `fs_mount`: its bytes 11 and 12, where a boot
sector has the number of bytes per sector. -/
structure Begins (s : LogState) : Prop where
  size : s.size ≠ 0
  pos : 13 ≤ s.pos
  bytes : (s.buf 11 = 0x54 ∧ s.buf 12 = 0x33) ∨ (s.buf 11 = 0x77 ∧ s.buf 12 = 0x20)

section First

variable {fs : FsState} {buf image : Bytes} {size : ℕ} {s₀ s s' : LogState}

theorem Begins.print (h : Begins s) (l : List UInt8) : Begins (consolePuts s l) := by
  have hp := consolePuts_printed l s
  have hpos := h.pos
  refine ⟨hp.size ▸ h.size, by rw [hp.pos]; omega, ?_⟩
  rw [hp.old (by omega), hp.old (by omega)]
  exact h.bytes

theorem debuglogInit_begins (h : debuglogInit fs buf true = .ok s) : Begins s := by
  obtain ⟨fs', -, rfl, -⟩ := mount_ok h
  have hp := consolePuts_printed (mountText fs'.mode (64 * 1024))
    { buf := buf, size := 64 * 1024, pos := 0, fs := fs', shared := true }
  dsimp only at hp
  have hlen : 13 ≤ (mountText fs'.mode (64 * 1024)).length ∧
      (mountText fs'.mode (64 * 1024)).length ≤ 64 * 1024 := by
    cases fs'.mode <;> decide
  rw [take_of_length_le (by omega)] at hp
  rw [if_pos rfl]
  refine ⟨?_, ?_, ?_⟩
  · rw [hp.size]
    show 64 * 1024 ≠ 0
    decide
  · rw [hp.pos]
    omega
  · have h11 := hp.new (a := 11) (by omega)
    have h12 := hp.new (a := 12) (by omega)
    rw [Nat.zero_add] at h11 h12
    rw [h11, h12]
    cases fs'.mode <;> decide

/-- **Such a log is no boot sector**: a flush alters an image with a boot sector that was
accepted. -/
theorem Begins.flush_alters {v : Bool × ℕ × FsMode × FatInfo} (h : Begins s) (himage : OnImage v s)
    {b : BootSector} {info : FatInfo} (hb : readBootSector fs = .ok b)
    (hparse : b.parse size = some info) (hsize : s.fs.size = fs.size)
    (h11 : s.fs.data 11 = fs.data 11) (h12 : s.fs.data 12 = fs.data 12)
    (hflush : debuglogFlush s = .ok s') : ¬ Unchanged s s' := by
  intro hun
  obtain ⟨hlong, hbps⟩ := readBootSector_bps hb
  have hpos := h.pos
  have hpow := BootSector.parse_bps hparse
  -- the bytes per sector are those of the log
  have hbyte : ∀ a, a < 13 → s.buf a = s.fs.data a := fun a ha =>
    (flush_byte himage h.size hflush (by omega) (by omega)).symm.trans (hun a (by omega))
  have hval : b.bps = (s.buf 11).toNat + 256 * ((s.buf 12).toNat + 256 * 0) := by
    rw [hbps, hbyte 11 (by omega), hbyte 12 (by omega), h11, h12]
    rfl
  rw [hval] at hpow
  rcases h.bytes with ⟨hb11, hb12⟩ | ⟨hb11, hb12⟩
  · rw [hb11, hb12] at hpow
    exact absurd hpow (by decide)
  · rw [hb11, hb12] at hpow
    exact absurd hpow (by decide)

/-- **THE FIRST FLUSH** after the mount of a FAT32 image alters the image, whatever is printed
before and after the mount, and whatever the file calls do to it that leaves the size of a
sector in its boot sector alone. -/
theorem first_flush_destroys (l : List UInt8) (hinit : debuglogInit fs buf true = .ok s₀)
    (hmount : mount (consolePuts s₀ l) image true size false = .ok s) (hmode : s.fs.mode = .fat32)
    {l' : List LogEvent} {t t' : LogState} (hrun : LogRun (fun _ _ => False) s l' t)
    (h11 : t.fs.data 11 = s.fs.data 11) (h12 : t.fs.data 12 = s.fs.data 12)
    (hflush : debuglogFlush t = .ok t') : ¬ Unchanged t t' := by
  have hboot : Booted true s := by
    refine ⟨fs, buf, s₀, [.print l], _, image, size, hinit, ?_, hmount, hmode⟩
    exact Trace.nil.snoc (.print l)
  obtain ⟨fs', hfs, hprint, heq⟩ := mount_ok hmount
  have hlog : Begins s := by
    have hl := (debuglogInit_begins hinit).print l
    rw [hprint]
    exact Begins.print (s := { consolePuts s₀ l with fs := fs', shared := false })
      ⟨hl.size, hl.pos, hl.bytes⟩ _
  have hsize := congrArg (fun v => v.2.1) (logRun_onImage hboot.onImage hrun).safe.volume
  have hend : OnImage s.fs.volume t ∧ Begins t := by
    refine hrun.inv (fun u => OnImage s.fs.volume u ∧ Begins u) ⟨hboot.onImage, hlog⟩ ?_
    intro u e u' hu hstep
    refine ⟨hstep.onImage hu.1, ?_⟩
    cases hstep with
    | print l => exact hu.2.print l
    | flush hno _ => exact hno.elim
    | file _ =>
      -- the store is not the log buffer
      refine ⟨hu.2.size, hu.2.pos, ?_⟩
      show _ ∨ _
      unfold LogState.setFs
      rw [if_neg (by rw [hu.1.shared]; decide)]
      exact hu.2.bytes
  rw [heq rfl] at hmode hsize h11 h12
  obtain ⟨-, -, -, b, hb, hparse⟩ := fsMount_fat32 hfs hmode
  exact hend.2.flush_alters hend.1 hb hparse hsize h11 h12 hflush

end First

/-- **A flush overwrites the boot sector**: a log buffer, the mount of a small volume, and
`SYS_SYNC`. -/
theorem flush_overwrites_image : ∃ s s', Booted true s ∧ debuglogFlush s = .ok s' ∧
    ¬ Unchanged s s' := by
  obtain ⟨fs, buf, s₀, s, hinit, hmount, hboot, hfs, hsize⟩ := booted_small true
  obtain ⟨s', hflush, -⟩ := hboot.onImage.flush
  have hmode : s.fs.mode = .fat32 := by
    rw [hfs]
    rfl
  exact ⟨s, s', hboot, hflush, first_flush_destroys [] hinit hmount hmode .nil rfl rfl hflush⟩

end ExoCore.Sys
