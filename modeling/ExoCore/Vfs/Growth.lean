/-
  ExoCore.Vfs.Growth — how file buffers grow, and what a write leaves.

  `ensure_capacity` doubles a capacity until it reaches the need, modulo `2^64`.  The
  capacities of every run are 0 or a power of two, so the doubling passes through
  `2^63` and then through 0, where it stays: a need above `2^63` is never reached.

  Main results:
    • `writeFile_returns` — a write that returns was refused, or it stored its bytes
      in the one file it is on;
    • `Effect.bounded` — one call touches one slot, and in every run a size is at most
      its capacity, a capacity at most `2^63`, and so is a cursor;
    • `growth_ends` — the doubling loop ends exactly for needs up to `2^63`.
-/
import ExoCore.Lib.Ensures
import ExoCore.Vfs.Buffers
import ExoCore.Vfs.Tree

namespace ExoCore.Vfs

open ExoCore.Lib Function

/-! ## §1. The doubling loop. -/

variable {need : ℕ}

/-- Zero doubled is zero. -/
theorem doubleUntil_zero (hneed : 0 < need) : ∀ n, doubleUntil n 0 need = none
  | 0 => rfl
  | n + 1 => by
    rw [doubleUntil, if_pos hneed]
    exact doubleUntil_zero hneed n

/-- One turn, from a power of two below `2^64`. -/
theorem doubled_word {k : ℕ} (hk : k ≤ 63) :
    2 ^ k * 2 % 2 ^ 64 = if k = 63 then 0 else 2 ^ (k + 1) := by
  by_cases h : k = 63
  · rw [if_pos h, h]
    rfl
  · rw [if_neg h, ← Nat.pow_succ]
    exact Nat.mod_eq_of_lt (Nat.pow_lt_pow_right (by omega) (by omega))

/-- **A need up to `2^63`** is reached before the word wraps. -/
theorem doubleUntil_reaches (hneed : need ≤ 2 ^ 63) : ∀ (d k n : ℕ), k + d = 63 → d < n →
    ∃ c, doubleUntil n (2 ^ k) need = some c ∧ need ≤ c := by
  intro d
  induction d with
  | zero =>
    intro k n hk hn
    obtain ⟨n, rfl⟩ : ∃ m, n = m + 1 := ⟨n - 1, by omega⟩
    obtain rfl : k = 63 := by omega
    exact ⟨2 ^ 63, by rw [doubleUntil, if_neg (not_lt.mpr hneed)], hneed⟩
  | succ d ih =>
    intro k n hk hn
    obtain ⟨n, rfl⟩ : ∃ m, n = m + 1 := ⟨n - 1, by omega⟩
    rw [doubleUntil]
    by_cases hlt : 2 ^ k < need
    · rw [if_pos hlt, doubled_word (by omega), if_neg (by omega)]
      exact ih (k + 1) n (by omega) (by omega)
    · rw [if_neg hlt]
      exact ⟨2 ^ k, rfl, not_lt.mp hlt⟩

/-- **A need above `2^63`** is never reached. -/
theorem doubleUntil_never (hneed : 2 ^ 63 < need) : ∀ (n k : ℕ), k ≤ 63 →
    doubleUntil n (2 ^ k) need = none := by
  intro n
  induction n with
  | zero => exact fun _ _ => rfl
  | succ n ih =>
    intro k hk
    have hlt : 2 ^ k < need :=
      lt_of_le_of_lt (Nat.pow_le_pow_right (by omega) hk) hneed
    rw [doubleUntil, if_pos hlt, doubled_word hk]
    by_cases h : k = 63
    · rw [if_pos h]
      exact doubleUntil_zero (by omega) n
    · rw [if_neg h]
      exact ih (k + 1) (by omega)

/-- What the loop ends with is again a power of two. -/
theorem doubleUntil_word (hpos : 0 < need) : ∀ (n k c : ℕ), k ≤ 63 →
    doubleUntil n (2 ^ k) need = some c → need ≤ c ∧ ∃ j, k ≤ j ∧ j ≤ 63 ∧ c = 2 ^ j := by
  intro n
  induction n with
  | zero => exact fun _ _ _ h => by cases h
  | succ n ih =>
    intro k c hk h
    rw [doubleUntil] at h
    by_cases hlt : 2 ^ k < need
    · rw [if_pos hlt, doubled_word hk] at h
      by_cases hlast : k = 63
      · rw [if_pos hlast, doubleUntil_zero hpos] at h
        cases h
      · rw [if_neg hlast] at h
        obtain ⟨hle, j, hj, hrest⟩ := ih (k + 1) c (by omega) h
        exact ⟨hle, j, by omega, hrest⟩
    · rw [if_neg hlt] at h
      cases h
      exact ⟨not_lt.mp hlt, k, le_rfl, hk, rfl⟩

/-! ## §2. Sizes, capacities and cursors of a run. -/

/-- A capacity is a power of two, from 64 to `2^63`. -/
def WordCapacity (cap : ℕ) : Prop := ∃ k, 6 ≤ k ∧ k ≤ 63 ∧ cap = 2 ^ k

/-- **The bounds of every run.** -/
structure Bounded (s : VfsState) : Prop extends Backed s where
  shape : ∀ i, (s.nodes i).data ≠ 0 → WordCapacity (s.nodes i).capacity
  offset : ∀ k, (s.openFiles k).offset ≤ 2 ^ 63
  unused : ∀ i, (s.nodes i).used = false → (s.nodes i).data = 0 ∧ (s.nodes i).type = .none

section Rules

variable {s s' : VfsState} {i : NodeId}
variable (h : Bounded s)
include h

theorem Bounded.capacity_le (i : NodeId) : (s.nodes i).capacity ≤ 2 ^ 63 := by
  by_cases h0 : (s.nodes i).data = 0
  · rw [h.null i h0]
    exact Nat.zero_le _
  · obtain ⟨k, -, hk, hcap⟩ := h.shape i h0
    rw [hcap]
    exact Nat.pow_le_pow_right (by omega) hk

theorem Bounded.size_le (i : NodeId) : (s.nodes i).size ≤ 2 ^ 63 :=
  (h.fits i).trans (h.capacity_le i)

/-- The doubling starts from a power of two. -/
theorem Bounded.start (i : NodeId) : ∃ k, 6 ≤ k ∧ k ≤ 63 ∧ startCapacity (s.nodes i) = 2 ^ k := by
  unfold startCapacity
  by_cases h0 : (s.nodes i).data = 0
  · exact ⟨6, by omega, by omega, if_neg (not_not.mpr (h.null i h0))⟩
  · obtain ⟨k, hk6, hk, hcap⟩ := h.shape i h0
    refine ⟨k, hk6, hk, ?_⟩
    rw [if_pos (by rw [hcap]; exact (Nat.two_pow_pos k).ne'), hcap]

/-- A cleared slot has no type. -/
theorem Bounded.used_of_type (htype : (s.nodes i).type ≠ .none) : (s.nodes i).used = true := by
  by_contra hu
  exact htype (h.unused i (Bool.eq_false_iff.mpr hu)).2

theorem Bounded.used_of_file (hfile : (s.nodes i).type = .file) : (s.nodes i).used = true :=
  h.used_of_type (by rw [hfile]; exact NodeType.noConfusion)

theorem Bounded.congr (hn : s'.nodes = s.nodes) (hb : s'.bufs = s.bufs)
    (ho : s'.openFiles = s.openFiles) : Bounded s' := by
  refine ⟨h.toBacked.congr hn hb, ?_, ?_, ?_⟩
  · rw [hn]
    exact h.shape
  · rw [ho]
    exact h.offset
  · rw [hn]
    exact h.unused

/-- **A change to slot `i`** of the node table. -/
theorem Bounded.touch (hb : Backed s') (ht : Touches s s' i) (ho : s'.openFiles = s.openFiles)
    (hshape : (s'.nodes i).data ≠ 0 → WordCapacity (s'.nodes i).capacity)
    (hunused : (s'.nodes i).used = false → (s'.nodes i).data = 0 ∧ (s'.nodes i).type = .none) :
    Bounded s' := by
  have hslot : ∀ {P : VfsNode → Prop}, P (s'.nodes i) → (∀ j, P (s.nodes j)) → ∀ j, P (s'.nodes j) := by
    intro P hi hall j
    by_cases hj : j = i
    · rw [hj]
      exact hi
    · rw [ht.nodes j hj]
      exact hall j
  refine ⟨hb, ?_, by rw [ho]; exact h.offset, ?_⟩
  · exact hslot (P := fun n => n.data ≠ 0 → WordCapacity n.capacity) hshape h.shape
  · exact hslot (P := fun n => n.used = false → n.data = 0 ∧ n.type = .none) hunused h.unused

/-- Slot `i` keeps its buffer. -/
theorem Bounded.resize (i : NodeId) {n : VfsNode} (hdata : n.data = (s.nodes i).data)
    (hcap : n.capacity = (s.nodes i).capacity) (hused : n.used = (s.nodes i).used)
    (htype : n.type = (s.nodes i).type) (hfits : n.size ≤ n.capacity) : Bounded (s.setNode i n) := by
  have hself : (s.setNode i n).nodes i = n := update_self ..
  refine h.touch (h.toBacked.resize i hdata hcap hfits) (touches_setNode s hdata) rfl ?_ ?_
  · rw [hself, hdata, hcap]
    exact h.shape i
  · rw [hself, hdata, hused, htype]
    exact h.unused i

/-- Slot `i` has no buffer any more. -/
theorem Bounded.clear {n : VfsNode} (ht : Touches s s' i) (ho : s'.openFiles = s.openFiles)
    (hnew : s'.nodes i = n) (hdata : n.data = 0) (hcap : n.capacity = 0) (hsize : n.size = 0)
    (hunused : n.used = false → n.type = .none) : Bounded s' := by
  refine h.touch (h.toBacked.clear ht hnew hdata hcap hsize) ht ho ?_ ?_
  · rw [hnew]
    exact fun h0 => absurd hdata h0
  · rw [hnew]
    exact fun hu => ⟨hdata, hunused hu⟩

theorem Bounded.setOpen (k : Slot) {o : VfsOpen} (ho : o.offset ≤ 2 ^ 63) :
    Bounded (s.setOpen k o) := by
  refine ⟨h.toBacked.congr rfl rfl, h.shape, ?_, h.unused⟩
  exact (forall_update_iff s.openFiles fun _ q => q.offset ≤ 2 ^ 63).mpr ⟨ho, fun j _ => h.offset j⟩

theorem seekAppend_bounded (k : Slot) : Bounded (seekAppend s k) := by
  unfold seekAppend
  dsimp only
  split
  · exact h.setOpen k (h.size_le _)
  · exact h

theorem Bounded.loopEnds (hneed : need ≤ 2 ^ 63) :
    ∃ c, doubleUntil 65 (startCapacity (s.nodes i)) need = some c ∧ need ≤ c := by
  obtain ⟨k, -, hk, hstart⟩ := h.start i
  rw [hstart]
  exact doubleUntil_reaches hneed (63 - k) k 65 (by omega) (by omega)

theorem Bounded.loopHangs (hneed : 2 ^ 63 < need) (n : ℕ) :
    doubleUntil n (startCapacity (s.nodes i)) need = none := by
  obtain ⟨k, -, hk, hstart⟩ := h.start i
  rw [hstart]
  exact doubleUntil_never hneed n k hk

variable {alloc : Allocator}

theorem Bounded.ensureCapacity_hangs (hneed : 2 ^ 63 < need) :
    ensureCapacity alloc s i need = .error .hang := by
  have hcap := h.capacity_le i
  unfold ensureCapacity
  dsimp only
  rw [if_neg (by omega), ← startCapacity, h.loopHangs hneed]

/-- **What `ensure_capacity` can do** for a slot in use, whatever the need: nothing, hang, refuse,
or move the file with its bytes to a new buffer. -/
theorem Bounded.ensureCapacity_cases (ha : AllocOk alloc s) (hused : (s.nodes i).used = true)
    (need : ℕ) :
    (need ≤ (s.nodes i).capacity ∧ ensureCapacity alloc s i need = .ok (true, s)) ∨
    (2 ^ 63 < need ∧ ensureCapacity alloc s i need = .error .hang) ∨
    ∃ cap, doubleUntil 65 (startCapacity (s.nodes i)) need = some cap ∧
      ¬need ≤ (s.nodes i).capacity ∧
      ((alloc cap = none ∧ ensureCapacity alloc s i need = .ok (false, s)) ∨
        ∃ p b buf, alloc cap = some (p, b) ∧ need ≤ cap ∧ Carries s i b buf ∧
          Touches s (regrown s i p cap buf) i ∧ Bounded (regrown s i p cap buf) ∧
          (regrown s i p cap buf).bufs p = some buf ∧
          ensureCapacity alloc s i need = .ok (true, regrown s i p cap buf)) := by
  by_cases hroom : need ≤ (s.nodes i).capacity
  · exact .inl ⟨hroom, if_pos hroom⟩
  by_cases hneed : 2 ^ 63 < need
  · exact .inr (.inl ⟨hneed, h.ensureCapacity_hangs hneed⟩)
  obtain ⟨cap, hdouble, hle⟩ := h.loopEnds (i := i) (not_lt.mp hneed)
  refine .inr (.inr ⟨cap, hdouble, hroom, ?_⟩)
  obtain ⟨halloc, hret⟩ | ⟨p, b, buf, halloc, hp0, hp, hlen, hcarries, hret⟩ :=
    h.toBacked.grow ha i hroom hle hdouble
  · exact .inl ⟨halloc, hret⟩
  -- the new capacity is a word that the doubling reached
  obtain ⟨k, hk6, hk, hstart⟩ := h.start i
  rw [hstart] at hdouble
  obtain ⟨-, j, hkj, hj, hcap⟩ := doubleUntil_word (by omega) 65 k cap hk hdouble
  have htouch : Touches s (regrown s i p cap buf) i := regrown_touches h.toBacked hp0 hp
  refine .inr ⟨p, b, buf, halloc, hle, hcarries, htouch, ?_, regrown_buf h.toBacked hp, hret⟩
  refine h.touch (h.toBacked.regrown hp0 hp (by omega) hlen) htouch regrown_openFiles ?_ ?_
  · rw [regrown_node]
    exact fun _ => ⟨j, by omega, hj, hcap⟩
  · rw [regrown_node]
    exact fun hfalse => absurd (hused.symm.trans hfalse) (by decide)

end Rules

/-! ## §3. `vfs_write`. -/

/-- What a write through `slot` that stores its bytes does: `n` is the node, `c` the cursor it
starts from. -/
structure Written (s s' : VfsState) (slot : Slot) (n : NodeId) (c : ℕ) (bytes : List UInt8) :
    Prop where
  bounded : Bounded s'
  touches : Touches s s' n
  size : (s'.nodes n).size = max (s.nodes n).size (add64 c bytes.length)
  byteAt : ∀ p, p < (s.nodes n).size ∨ (c ≤ p ∧ p < c + bytes.length) →
    byteAt s' n p = stored bytes c (byteAt s n) p
  openFiles : s'.openFiles =
    update s.openFiles slot { s.openFiles slot with offset := add64 c bytes.length }
  back : readBuf s' (s'.nodes n).data c bytes.length = .ok bytes

section Write

variable {alloc : Allocator} {s s' : VfsState} {slot : Slot} {n : NodeId} {c : ℕ}
  {bytes : List UInt8}

/-- The end of a write: the copy, the cursor, the size. -/
theorem Bounded.store (hb : Bounded s) (hn : (s.openFiles slot).node = n)
    (hle : add64 c bytes.length ≤ (s.nodes n).capacity)
    (hw : writeBuf s (s.nodes n).data c bytes = .ok s') :
    Written s (advance s' slot (add64 c bytes.length)) slot n c bytes := by
  obtain ⟨hback, hnodes, hopen, htouch, hbyte⟩ := hb.writeBuf_returns hw
  have hslot : (s'.openFiles slot).node = n := by rw [hopen, hn]
  have hb' : Bounded s' := by
    refine ⟨hback, ?_, ?_, ?_⟩
    · rw [hnodes]
      exact hb.shape
    · rw [hopen]
      exact hb.offset
    · rw [hnodes]
      exact hb.unused
  have hread := readBuf_written hw
  have hadv := advance_nodes s' slot (add64 c bytes.length)
  rw [hslot] at hadv
  have hself : (advance s' slot (add64 c bytes.length)).nodes n =
      { s.nodes n with size := max (s.nodes n).size (add64 c bytes.length) } := by
    rw [hadv, update_self, hnodes]
  refine ⟨?_, ?_, by rw [hself], ?_, ?_, ?_⟩
  · rw [advance_eq, hslot]
    refine Bounded.resize (hb'.setOpen slot (hle.trans (hb.capacity_le n))) n rfl rfl rfl rfl
      (max_le (hb'.fits n) ?_)
    show _ ≤ (s'.nodes n).capacity
    rw [hnodes]
    exact hle
  · refine htouch.trans (touches_of_data (fun j hj => ?_) (advance_bufs ..) ?_)
    · rw [hadv, update_of_ne hj]
    · rw [hself, hnodes]
  · intro p _
    rw [← hbyte p]
    unfold Vfs.byteAt
    rw [hself, advance_bufs, hnodes]
  · rw [advance_openFiles, hopen]
  · unfold readBuf
    rw [hself, advance_bufs]
    exact hread

/-- A write after the file moved to another buffer. -/
theorem Written.of_moved {t : VfsState} (htouch : Touches s t n)
    (hsize : (t.nodes n).size = (s.nodes n).size) (hopen : t.openFiles = s.openFiles)
    (hbyte : ∀ p, p < (s.nodes n).size → Vfs.byteAt t n p = Vfs.byteAt s n p)
    (h : Written t s' slot n c bytes) : Written s s' slot n c bytes := by
  refine ⟨h.bounded, htouch.trans h.touches, ?_, ?_, ?_, h.back⟩
  · rw [h.size, hsize]
  · intro p hp
    rw [h.byteAt p (by rw [hsize]; exact hp), stored, stored]
    by_cases hin : c ≤ p ∧ p < c + bytes.length
    · rw [if_pos hin, if_pos hin]
    · rw [if_neg hin, if_neg hin]
      exact hbyte p (hp.resolve_right hin)
  · rw [h.openFiles, hopen]

/-- A write after its own cursor moved. -/
theorem Written.of_seek (h : Written (seekAppend s slot) s' slot n c bytes) :
    Written s s' slot n c bytes := by
  have htouch := (touches_of_eq (seekAppend_nodes s slot) (seekAppend_bufs s slot)).trans h.touches
  rw [seekAppend_eq] at h
  refine ⟨h.bounded, htouch, h.size, h.byteAt, ?_, h.back⟩
  rw [h.openFiles]
  simp [VfsState.setOpen]

/-- `vfs_write` past its checks. -/
theorem writeFile_eq (alloc : Allocator) (s : VfsState) (slot : Slot) (bytes : List UInt8) :
    writeFile alloc s slot bytes = (do
      let (ok, t) ← ensureCapacity alloc (seekAppend s slot) (s.openFiles slot).node
        (add64 (cursor s slot) bytes.length)
      if ok then do
        let t ← writeBuf t (t.nodes (s.openFiles slot).node).data (cursor s slot) bytes
        .ok (some bytes.length, advance t slot (add64 (cursor s slot) bytes.length))
      else .ok (none, t)) := by
  unfold writeFile
  dsimp only
  rw [seekAppend_slot]

variable (hb : Bounded s) (ha : AllocOk alloc s)
  (hfile : (s.nodes (s.openFiles slot).node).type = .file)
include hb ha hfile

/-- The capacity for a write: `vfs_write` stops there, or it has the room. -/
theorem writeFile_room (bytes : List UInt8) :
    (2 ^ 63 < add64 (cursor s slot) bytes.length ∧ writeFile alloc s slot bytes = .error .hang) ∨
    writeFile alloc s slot bytes = .ok (none, seekAppend s slot) ∨
    ∃ t, writeFile alloc s slot bytes = (do
        let t ← writeBuf t (t.nodes (s.openFiles slot).node).data (cursor s slot) bytes
        .ok (some bytes.length, advance t slot (add64 (cursor s slot) bytes.length))) ∧
      Bounded t ∧ (t.openFiles slot).node = (s.openFiles slot).node ∧
      add64 (cursor s slot) bytes.length ≤ (t.nodes (s.openFiles slot).node).capacity ∧
      ∀ {s'}, Written t s' slot (s.openFiles slot).node (cursor s slot) bytes →
        Written (seekAppend s slot) s' slot (s.openFiles slot).node (cursor s slot) bytes := by
  have hu := seekAppend_bounded hb slot
  have hau := ha.seekAppend slot
  have hslot := congrArg VfsOpen.node (seekAppend_slot s slot)
  have hused : ((seekAppend s slot).nodes (s.openFiles slot).node).used = true := by
    rw [seekAppend_nodes]
    exact hb.used_of_file hfile
  rw [writeFile_eq]
  generalize seekAppend s slot = u at hu hau hslot hused ⊢
  generalize (s.openFiles slot).node = n at hslot hused ⊢
  obtain ⟨hroom, hret⟩ | ⟨hneed, hret⟩ | ⟨cap, -, -, ⟨-, hret⟩ |
      ⟨p, b, buf, -, hle, hcarries, htouch, hv, hbuf, hret⟩⟩ :=
    hu.ensureCapacity_cases hau hused (add64 (cursor s slot) bytes.length)
  · rw [hret]
    exact .inr (.inr ⟨u, rfl, hu, hslot, hroom, id⟩)
  · rw [hret]
    exact .inl ⟨hneed, rfl⟩
  · rw [hret]
    exact .inr (.inl rfl)
  · -- the file moved to the block at `p` first
    have hnode := regrown_node u n p cap buf
    rw [hret]
    refine .inr (.inr ⟨_, rfl, hv, by rw [regrown_openFiles, hslot], by rw [hnode]; exact hle, ?_⟩)
    refine fun h => h.of_moved htouch (by rw [hnode]) regrown_openFiles fun q hq => ?_
    rw [byteAt_of_buf (b := buf) (by rw [hnode]; exact hbuf)]
    exact hcarries.kept q hq

/-- **`vfs_write`, when it returns**: it was refused and only moved the cursor of an appending
descriptor to the end of the file, or it stored all bytes. -/
theorem writeFile_returns {r : Option ℕ} (h : writeFile alloc s slot bytes = .ok (r, s')) :
    (r = none ∧ s' = seekAppend s slot) ∨ (r = some bytes.length ∧
      Written s s' slot (s.openFiles slot).node (cursor s slot) bytes) := by
  obtain ⟨-, hret⟩ | hret | ⟨t, hret, ht, hslot, hroom, hmoved⟩ := writeFile_room hb ha hfile bytes
  · cases hret.symm.trans h
  · cases hret.symm.trans h
    exact .inl ⟨rfl, rfl⟩
  · obtain ⟨t', hw, heq⟩ := bind_ok.mp (hret.symm.trans h)
    cases heq
    exact .inr ⟨rfl, (hmoved (ht.store hslot hroom hw)).of_seek⟩

/-- **`vfs_write` returns** when its end stays below `2^63`. -/
theorem writeFile_total (hbound : cursor s slot + bytes.length < 2 ^ 63) :
    ∃ x, writeFile alloc s slot bytes = .ok x := by
  obtain ⟨hneed, -⟩ | hret | ⟨t, hret, ht, -, hroom, -⟩ := writeFile_room hb ha hfile bytes
  · rw [add64_of_lt (by omega)] at hneed
    omega
  · exact ⟨_, hret⟩
  · rw [add64_of_lt (by omega)] at hroom
    obtain ⟨t', hw⟩ := ht.writeBuf hroom
    exact ⟨_, hret.trans (bind_ok.mpr ⟨t', hw, rfl⟩)⟩

end Write

/-! ## §4. One call. -/

section Calls

variable {alloc : Allocator} {s s' : VfsState} {i : NodeId} (hb : Bounded s)
include hb

/-- A free slot has no buffer, and neither has the new node in it. -/
theorem Bounded.allocNode {type : NodeType} {p : NodeId} {leaf : Str}
    (h : Vfs.allocNode s type p leaf = some (i, s')) :
    Bounded s' ∧ Touches s s' i ∧ s'.nodes i = newNode s type p leaf ∧
      s'.openFiles = s.openFiles := by
  have hfree := (hb.unused i (freeNode_unused (allocNode_adds h).free)).1
  obtain ⟨htouch, hnew, hopen⟩ := allocNode_touches h hfree
  exact ⟨hb.clear htouch hopen hnew rfl rfl rfl nofun, htouch, hnew, hopen⟩

theorem Bounded.drop (i : NodeId) :
    Bounded ((dropBuf s (s.nodes i).data).setNode i VfsNode.zero) :=
  hb.clear (hb.touches_drop i) (dropBuf_openFiles s _) (update_self ..) rfl rfl rfl fun _ => rfl

theorem Bounded.openNode {path : Str} {flags : ℕ} (h : Vfs.openNode s path flags = some (i, s')) :
    Bounded s' ∧ Touches s s' i := by
  obtain ⟨-, rfl⟩ | ⟨-, -, p, leaf, -, halloc⟩ := openNode_cases h
  · exact ⟨hb, touches_of_eq rfl rfl⟩
  · exact ⟨(hb.allocNode halloc).1, (hb.allocNode halloc).2.1⟩

theorem Bounded.truncated (node : NodeId) (flags : ℕ) :
    Bounded (Vfs.truncated s node flags) ∧ Touches s (Vfs.truncated s node flags) node := by
  unfold Vfs.truncated
  split
  · exact ⟨hb.resize node rfl rfl rfl rfl (Nat.zero_le _), touches_setNode s rfl⟩
  · exact ⟨hb, touches_of_eq rfl rfl⟩

theorem claimSlot_bounded (node : NodeId) (flags : ℕ) : Bounded (claimSlot s node flags).2 := by
  unfold claimSlot
  split
  · exact hb
  · refine hb.setOpen _ ?_
    show (if hasFlag flags vfsOAppend then (s.nodes node).size else 0) ≤ 2 ^ 63
    split
    · exact hb.size_le node
    · exact Nat.zero_le _

omit hb in
/-- **One call** that returns keeps the bounds and touches one slot. -/
theorem Effect.bounded {op : Op} {r : Ret} (h : Effect alloc s op r s') (ha : AllocOk alloc s)
    (hb : Bounded s) : Bounded s' ∧ ∃ i, Touches s s' i := by
  cases h with
  | none => exact ⟨hb, 0, touches_of_eq rfl rfl⟩
  | mkdir _ _ halloc => exact ⟨(hb.allocNode halloc).1, _, (hb.allocNode halloc).2.1⟩
  | @unlink _ node _ _ _ _ _ _ hdrop =>
    rw [hb.toBacked.dropNode node] at hdrop
    cases hdrop
    exact ⟨hb.drop node, node, hb.touches_drop node⟩
  | @rmdir _ node _ _ _ _ _ _ hdrop =>
    have hleft : Bounded { s with cwdNode := if s.cwdNode = node then 0 else s.cwdNode } :=
      hb.congr rfl rfl rfl
    rw [hleft.toBacked.dropNode node] at hdrop
    cases hdrop
    have htouch : Touches s { s with cwdNode := if s.cwdNode = node then 0 else s.cwdNode } node :=
      touches_of_eq rfl rfl
    exact ⟨hleft.drop node, node, htouch.trans (hleft.touches_drop node)⟩
  | rename _ _ _ _ => exact ⟨hb.resize _ rfl rfl rfl rfl (hb.fits _), _, touches_setNode s rfl⟩
  | chdir _ _ => exact ⟨hb.congr rfl rfl rfl, 0, touches_of_eq rfl rfl⟩
  | @«open» path flags node s₁ hnode =>
    obtain ⟨hb₁, ht₁⟩ := hb.openNode hnode
    obtain ⟨hb₂, ht₂⟩ := hb₁.truncated node flags
    obtain ⟨hn, hbufs⟩ := claimSlot_rest (Vfs.truncated s₁ node flags) node flags
    exact ⟨claimSlot_bounded hb₂ node flags, node, (ht₁.trans ht₂).trans (touches_of_eq hn hbufs)⟩
  | close _ => exact ⟨hb.setOpen _ (Nat.zero_le _), 0, touches_of_eq rfl rfl⟩
  | @read _ len k l _ _ hin hlen _ =>
    have hsize := hb.size_le (s.openFiles k).node
    have hcur : add64 (s.openFiles k).offset l.length ≤ 2 ^ 63 := by
      rw [hlen]
      split
      · rw [add64_of_lt (by omega)]
        omega
      · omega
    exact ⟨hb.setOpen k hcur, 0, touches_of_eq rfl rfl⟩
  | @lseek _ offset _ base k _ _ _ =>
    have hlt : toLong (base + offset) < 2 ^ 63 := Int.bmod_lt (by decide)
    exact ⟨hb.setOpen k (show (toLong (base + offset)).toNat ≤ 2 ^ 63 by omega), 0,
      touches_of_eq rfl rfl⟩
  | @getdents _ maxEnts k _ _ _ hl =>
    have hlen := getdentsLoop_length s (s.openFiles k).node (s.openFiles k).offset maxEnts
      (List.finRange 64) 0 0
    rw [List.length_finRange, ← hl] at hlen
    have hcur := hb.offset k
    refine ⟨hb.setOpen k ?_, 0, touches_of_eq rfl rfl⟩
    show add64 _ _ ≤ 2 ^ 63
    unfold add64
    omega
  | @write _ k _ _ _ _ hfile hwrite =>
    obtain ⟨-, rfl⟩ | ⟨-, hw⟩ := writeFile_returns hb ha hfile hwrite
    · exact ⟨seekAppend_bounded hb k, 0, touches_of_eq (seekAppend_nodes s k) (seekAppend_bufs s k)⟩
    · exact ⟨hw.bounded, _, hw.touches⟩

end Calls

/-! ## §5. Growth. -/

/-- Calls without restriction. -/
def AnyOp (_ : VfsState) (_ : Op) : Prop := True

theorem vfsInit_bounded (s₀ : VfsState) : Bounded (vfsInit s₀).2 := by
  have hnode := vfsInit_node s₀
  refine ⟨vfsInit_backed s₀, fun i h0 => absurd (hnode i).1 h0, fun k => ?_, fun i hu => ?_⟩
  · show 0 ≤ 2 ^ 63
    exact Nat.zero_le _
  · exact ⟨(hnode i).1, (vfsInit_wf s₀).cleared i hu⟩

theorem Run.bounded {guard : VfsState → Op → Prop} {s s' : VfsState} (hrun : Run guard s s')
    (h : Bounded s) : Bounded s' := by
  refine inv_of_run Bounded hrun h ?_
  rintro a b hb ⟨op, r, -, alloc, ha, hexec⟩
  exact ((exec_effect hexec).bounded ha hb).1

theorem run_bounded {guard : VfsState → Op → Prop} {s₀ s : VfsState}
    (hrun : Run guard (vfsInit s₀).2 s) : Bounded s :=
  hrun.bounded (vfsInit_bounded s₀)

/-- The loop `while (cap < need) cap *= 2` ends, with a capacity that is large enough. -/
def LoopEnds (cap need : ℕ) : Prop := ∃ n c, doubleUntil n cap need = some c ∧ need ≤ c

/-- `ensure_capacity` has no need of its loop, or the loop ends, or the call answers `-1`. -/
def GrowthEnds (alloc : Allocator) (s : VfsState) (i : NodeId) (need : ℕ) : Prop :=
  need ≤ (s.nodes i).capacity ∨ LoopEnds (startCapacity (s.nodes i)) need ∨
    ∃ s', ensureCapacity alloc s i need = .ok (false, s')

section Growth

variable {alloc : Allocator} {s : VfsState} {i : NodeId} {need : ℕ}

/-- The faults other than an endless loop. -/
def NoHang (e : Fault) : Prop := e ≠ .hang

theorem readBuf_faults {err : Fault → Prop} (herr : err .outOfBounds) (s : VfsState)
    (ptr off n : ℕ) : Ensures err (readBuf s ptr off n) fun _ => True := by
  unfold readBuf
  refine Ensures.ite (fun _ => Ensures.ok trivial) fun _ => ?_
  cases s.bufs ptr with
  | none => exact Ensures.error herr
  | some b => exact Ensures.ite (fun _ => Ensures.ok trivial) fun _ => Ensures.error herr

theorem writeBuf_noHang (s : VfsState) (ptr off : ℕ) (bytes : List UInt8) :
    Ensures NoHang (writeBuf s ptr off bytes) fun _ => True := by
  unfold writeBuf
  refine Ensures.ite (fun _ => Ensures.ok trivial) fun _ => ?_
  cases s.bufs ptr with
  | none => exact Ensures.error Fault.noConfusion
  | some b => exact Ensures.ite (fun _ => Ensures.ok trivial) fun _ => Ensures.error Fault.noConfusion

theorem freeData_noHang (s : VfsState) (node : VfsNode) :
    Ensures NoHang (freeData s node) fun _ => True := by
  unfold freeData freeBuf
  refine Ensures.ite (fun _ => ?_) fun _ => Ensures.ok trivial
  cases s.bufs node.data with
  | none => exact Ensures.error Fault.noConfusion
  | some b => exact Ensures.ite (fun _ => Ensures.error Fault.noConfusion) fun _ => Ensures.ok trivial

/-- Up to `2^63`, whatever `ensure_capacity` does wrong is no endless loop. -/
theorem Bounded.ensureCapacity_noHang (hb : Bounded s) (hneed : need ≤ 2 ^ 63) :
    Ensures NoHang (ensureCapacity alloc s i need) fun _ => True := by
  obtain ⟨c, hc, -⟩ := hb.loopEnds (i := i) hneed
  unfold ensureCapacity
  dsimp only
  refine Ensures.ite (fun _ => Ensures.ok trivial) fun _ => ?_
  rw [← startCapacity, hc]
  dsimp only
  cases alloc c with
  | none => exact Ensures.ok trivial
  | some pb =>
    obtain ⟨p, b⟩ := pb
    refine Ensures.bind (P := fun _ => True) ?_ fun old _ => ?_
    · unfold oldBytes
      exact Ensures.ite (fun _ => readBuf_faults Fault.noConfusion ..) fun _ => Ensures.ok trivial
    · refine Ensures.bind (writeBuf_noHang _ _ _ _) fun s₁ _ => ?_
      exact Ensures.bind (freeData_noHang _ _) fun s₂ _ => Ensures.ok trivial

/-- **A growth ends exactly when the need is at most `2^63`.** -/
theorem Bounded.growthEnds_iff (hb : Bounded s) : GrowthEnds alloc s i need ↔ need ≤ 2 ^ 63 := by
  have hcap := hb.capacity_le i
  constructor
  · rintro (hroom | ⟨n, c, hc, -⟩ | ⟨s', hret⟩)
    · omega
    · by_contra hlt
      rw [hb.loopHangs (not_le.mp hlt)] at hc
      cases hc
    · by_contra hlt
      rw [hb.ensureCapacity_hangs (not_le.mp hlt)] at hret
      cases hret
  · intro hneed
    obtain ⟨c, hc, hle⟩ := hb.loopEnds (i := i) hneed
    exact .inr (.inl ⟨65, c, hc, hle⟩)

/-- **`vfs_write` hangs** exactly when the end of the write, modulo `2^64`, is above `2^63`. -/
theorem Bounded.vfsWrite_hangs_iff (hb : Bounded s) {fd : ℤ} {k : Slot} (hk : openSlot s fd = some k)
    (htype : (s.nodes (s.openFiles k).node).type = .file) (bytes : List UInt8) :
    vfsWrite alloc s fd (some bytes) = .error .hang ↔
      2 ^ 63 < add64 (cursor s k) bytes.length := by
  have hseek := seekAppend_bounded hb k
  have hoff : ((seekAppend s k).openFiles k).offset = cursor s k := by rw [seekAppend_slot]
  unfold vfsWrite
  rw [hk]
  dsimp only
  rw [if_neg (not_not.mpr htype)]
  constructor
  · intro h
    by_contra hle
    have hfine : Ensures NoHang (writeFile alloc s k bytes) fun _ => True := by
      refine Ensures.bind (hseek.ensureCapacity_noHang ?_) fun r _ => ?_
      · rw [hoff]
        exact not_lt.mp hle
      · obtain ⟨ok, s₁⟩ := r
        refine Ensures.ite (fun _ => ?_) fun _ => Ensures.ok trivial
        exact Ensures.bind (writeBuf_noHang _ _ _ _) fun s₂ _ => Ensures.ok trivial
    exact hfine.failure h rfl
  · intro h
    unfold writeFile
    dsimp only
    rw [hoff, hseek.ensureCapacity_hangs h]
    rfl

end Growth

/-- **GROWTH TERMINATES UP TO `2^63`.**  In every state that VFS calls lead to, for every node
and every need, the doubling loop ends with a large enough capacity, or the call answers `-1`,
if and only if the need is at most `2^63`; above it the loop never ends, and neither does a
write whose end is there. -/
theorem growth_ends {s₀ s : VfsState} (hrun : Run AnyOp (vfsInit s₀).2 s) :
    (∀ alloc i need, GrowthEnds alloc s i need ↔ need ≤ 2 ^ 63) ∧
      (∀ i need, 2 ^ 63 < need → ∀ n, doubleUntil n (startCapacity (s.nodes i)) need = none) ∧
      ∀ alloc fd k bytes, openSlot s fd = some k → (s.nodes (s.openFiles k).node).type = .file →
        (vfsWrite alloc s fd (some bytes) = .error .hang ↔
          2 ^ 63 < add64 (cursor s k) bytes.length) := by
  have hb := run_bounded hrun
  refine ⟨fun alloc i need => hb.growthEnds_iff, fun i need h n => hb.loopHangs h n, ?_⟩
  intro alloc fd k bytes hk htype
  exact hb.vfsWrite_hangs_iff hk htype bytes

/-- After `open /a`. -/
abbrev grownA : VfsState := after noMemory (vfsInit blank).2 (.open pathA rdwrCreat)

theorem grownA_reached : Run AnyOp (vfsInit blank).2 grownA :=
  .single ⟨.open pathA rdwrCreat, .fd 0, trivial, noMemory, noMemory_ok _,
    exec_of_answer (by decide +kernel)⟩

theorem growth_ends_small : GrowthEnds noMemory grownA 1 100 :=
  ((growth_ends grownA_reached).1 noMemory 1 100).mpr (by omega)

/-- After `lseek(0, 2^63 - 1, VFS_SEEK_SET)` on it. -/
abbrev farA : VfsState := after noMemory grownA (.lseek 0 (2 ^ 63 - 1) 0)

theorem farA_reached : Run AnyOp (vfsInit blank).2 farA :=
  .tail grownA_reached ⟨.lseek 0 (2 ^ 63 - 1) 0, .pos (2 ^ 63 - 1), trivial, noMemory,
    noMemory_ok _, exec_of_answer (by decide +kernel)⟩

/-- **A seek and a write of two bytes hang the kernel**: the need is `2^63 + 1`. -/
theorem seek_then_write_hangs :
    Run AnyOp (vfsInit blank).2 farA ∧
      (∀ alloc, vfsWrite alloc farA 0 (some [0x61, 0x62]) = .error .hang) ∧
      (∀ n, doubleUntil n 64 (2 ^ 63 + 1) = none) ∧
      ¬ GrowthEnds noMemory farA 1 (2 ^ 63 + 1) := by
  have hb := run_bounded farA_reached
  refine ⟨farA_reached, fun alloc => ?_, fun n => ?_, fun h => ?_⟩
  · refine (hb.vfsWrite_hangs_iff (k := 0) ?_ ?_ _).mpr ?_
    · decide +kernel
    · decide +kernel
    · decide +kernel
  · exact doubleUntil_never (by omega) n 6 (by omega)
  · have := hb.growthEnds_iff.mp h
    omega

end ExoCore.Vfs
