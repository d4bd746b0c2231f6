/-
  ExoCore.Vfs.Extents — the copies of `vfs_read` and `vfs_write` stay IN THE BUFFER.

  `vfs_read` and `vfs_write` compare `offset + len` modulo `2^64`.  When the sum wraps
  it is small: the read is not cut to the file and the write asks for no memory, and
  both copy `len` bytes all the same.

  Every access is checked against the length of its buffer, so a call that goes
  through when the buffer of its file is CUT to `n` bytes touches no index from `n` on.

    • `accesses_inside` — the copies stay in the file and in its buffer exactly when
      `offset + len` does not wrap.
-/
import ExoCore.Vfs.Growth

namespace ExoCore.Vfs

open ExoCore.Lib Function

/-! ## §1. Cut buffers. -/

/-- The buffer at `ptr` cut to `n` bytes. -/
def cutBuf (s : VfsState) (ptr n : ℕ) : VfsState :=
  setBuf s ptr ((s.bufs ptr).map fun b => { b with len := n })

/-- A `mem_alloc` that hands out exactly what is asked for. -/
def exactly (alloc : Allocator) : Allocator := fun n =>
  (alloc n).map fun x => (x.1, { x.2 with len := n })

/-- **`vfs_read` stays in the file**: at most `size - offset` bytes, and the same answer when the
buffer is cut to `size`. -/
def ReadInside (s : VfsState) (fd : ℤ) (k : Slot) (len : ℕ) : Prop :=
  let node := s.nodes (s.openFiles k).node
  ∃ r s₁ s₂, vfsRead s fd true len = .ok (r, s₁) ∧
    vfsRead (cutBuf s node.data node.size) fd true len = .ok (r, s₂) ∧
    ∀ l, r = some l → l.length ≤ node.size - (s.openFiles k).offset

/-- **`vfs_write` stays in the buffer**: with the buffer cut to `capacity`, and a new one no longer
than asked for, the call has no fault but an endless loop. -/
def WriteInside (alloc : Allocator) (s : VfsState) (fd : ℤ) (k : Slot) (bytes : List UInt8) : Prop :=
  let node := s.nodes (s.openFiles k).node
  ∀ e, vfsWrite (exactly alloc) (cutBuf s node.data node.capacity) fd (some bytes) = .error e →
    e = .hang

/-- **The condition on a read**: there is nothing to read, or `offset + len` does not wrap. -/
def ReadFits (s : VfsState) (k : Slot) (len : ℕ) : Prop :=
  (s.nodes (s.openFiles k).node).type = .file →
    (s.openFiles k).offset < (s.nodes (s.openFiles k).node).size →
      (s.openFiles k).offset + len < 2 ^ 64

section Copies

variable {alloc : Allocator} {s : VfsState} {fd : ℤ} {k : Slot}

theorem cutBuf_bufs {ptr n : ℕ} {b : Buf} (h : s.bufs ptr = some b) :
    (cutBuf s ptr n).bufs ptr = some { b with len := n } := by
  show update s.bufs ptr ((s.bufs ptr).map _) ptr = _
  rw [update_self, h]
  rfl

theorem cutBuf_len {ptr n : ℕ} {b : Buf} (h : (cutBuf s ptr n).bufs ptr = some b) : b.len = n := by
  unfold cutBuf at h
  rw [setBuf_bufs, update_self] at h
  obtain ⟨b', -, rfl⟩ := Option.map_eq_some_iff.mp h
  rfl

theorem vfsRead_skips (hk : openSlot s fd = some k)
    (h : (s.nodes (s.openFiles k).node).type ≠ .file ∨
      (s.nodes (s.openFiles k).node).size ≤ (s.openFiles k).offset) (len : ℕ) :
    vfsRead s fd true len =
      .ok (if (s.nodes (s.openFiles k).node).type = .file then some [] else none, s) := by
  unfold vfsRead
  rw [hk]
  simp only [Bool.not_true, Bool.false_eq_true, false_or, ite_not]
  split
  · exact if_pos (h.resolve_left (not_not.mpr ‹_›))
  · rfl

theorem vfsRead_copies (hk : openSlot s fd = some k)
    (hfile : (s.nodes (s.openFiles k).node).type = .file)
    (hlt : (s.openFiles k).offset < (s.nodes (s.openFiles k).node).size) (len : ℕ) :
    vfsRead s fd true len = (do
      let n := if (s.nodes (s.openFiles k).node).size < add64 (s.openFiles k).offset len
        then (s.nodes (s.openFiles k).node).size - (s.openFiles k).offset else len
      let bytes ← readBuf s (s.nodes (s.openFiles k).node).data (s.openFiles k).offset n
      .ok (some bytes, s.setOpen k
        { s.openFiles k with offset := add64 (s.openFiles k).offset n })) := by
  unfold vfsRead
  rw [hk]
  dsimp only
  rw [if_neg (by simp [hfile]), if_neg (by omega)]

/-- A read whose end wraps is not cut, and runs past every buffer. -/
theorem vfsRead_wraps (hk : openSlot s fd = some k)
    (hfile : (s.nodes (s.openFiles k).node).type = .file)
    (hlt : (s.openFiles k).offset < (s.nodes (s.openFiles k).node).size) {len : ℕ}
    (hsize : (s.nodes (s.openFiles k).node).size ≤ 2 ^ 63) (hlen : len < 2 ^ 64)
    (hwrap : 2 ^ 64 ≤ (s.openFiles k).offset + len)
    (hshort : ∀ b, s.bufs (s.nodes (s.openFiles k).node).data = some b → b.len < 2 ^ 64) :
    vfsRead s fd true len = .error .outOfBounds := by
  have hsum : add64 (s.openFiles k).offset len = (s.openFiles k).offset + len - 2 ^ 64 := by
    unfold add64
    omega
  have hread : readBuf s (s.nodes (s.openFiles k).node).data (s.openFiles k).offset len =
      .error .outOfBounds := by
    unfold readBuf
    rw [if_neg (by omega)]
    split
    · rfl
    · rename_i b hb
      have := hshort b hb
      exact if_neg (by omega)
  rw [vfsRead_copies hk hfile hlt, hsum, if_neg (by omega)]
  show (readBuf s _ _ len >>= _) = _
  rw [hread]
  rfl

theorem Bounded.readInside_iff (hb : Bounded s) (hk : openSlot s fd = some k) {len : ℕ}
    (hlen : len < 2 ^ 64) : ReadInside s fd k len ↔ ReadFits s k len := by
  have hsize := hb.size_le (s.openFiles k).node
  have hfits := hb.fits (s.openFiles k).node
  by_cases hskip : (s.nodes (s.openFiles k).node).type ≠ .file ∨
      (s.nodes (s.openFiles k).node).size ≤ (s.openFiles k).offset
  · refine iff_of_true ⟨_, _, _, vfsRead_skips hk hskip len,
      vfsRead_skips (s := cutBuf s _ _) hk hskip len, fun l hl => ?_⟩ fun hfile hlt => ?_
    · split at hl
      · cases hl
        exact Nat.zero_le _
      · cases hl
    · exact absurd hlt (not_lt.mpr (hskip.resolve_left (not_not.mpr hfile)))
  obtain ⟨hfile, hlt⟩ := not_or.mp hskip
  replace hfile := not_not.mp hfile
  rw [not_le] at hlt
  obtain ⟨b, hbuf, hcap⟩ := hb.live (s.openFiles k).node (hb.data_of_size (by omega))
  by_cases hwrap : (s.openFiles k).offset + len < 2 ^ 64
  · refine iff_of_true ?_ fun _ _ => hwrap
    -- the same bytes below `size`, from the whole buffer and from the cut one
    have hcut := cutBuf_bufs (n := (s.nodes (s.openFiles k).node).size) hbuf
    have hin : (s.openFiles k).offset + (if (s.nodes (s.openFiles k).node).size <
        add64 (s.openFiles k).offset len then (s.nodes (s.openFiles k).node).size -
          (s.openFiles k).offset else len) ≤ (s.nodes (s.openFiles k).node).size := by
      rw [add64_of_lt hwrap]
      split <;> omega
    refine ⟨_, _, _,
      (vfsRead_copies hk hfile hlt len).trans (bind_ok.mpr ⟨_, readBuf_ok hbuf (by omega), rfl⟩),
      (vfsRead_copies (s := cutBuf s _ _) hk hfile hlt len).trans
        (bind_ok.mpr ⟨_, readBuf_ok hcut hin, rfl⟩), fun l hl => ?_⟩
    cases hl
    rw [List.length_map, List.length_range]
    omega
  · refine iff_of_false (fun h => ?_) fun h => hwrap (h hfile hlt)
    obtain ⟨r, s₁, s₂, -, hret, -⟩ := h
    have hfault : vfsRead (cutBuf s (s.nodes (s.openFiles k).node).data
        (s.nodes (s.openFiles k).node).size) fd true len = .error .outOfBounds := by
      refine vfsRead_wraps (s := cutBuf s _ _) hk hfile hlt hsize hlen (not_lt.mp hwrap)
        fun b' hb' => ?_
      rw [cutBuf_len hb']
      omega
    cases hfault.symm.trans hret

/-- The file's buffer has exactly `capacity` bytes after the cut. -/
theorem Bounded.cut (hb : Bounded s) (i : NodeId) :
    Bounded (cutBuf s (s.nodes i).data (s.nodes i).capacity) := by
  cases hbuf : s.bufs (s.nodes i).data with
  | none =>
    have hsame : cutBuf s (s.nodes i).data (s.nodes i).capacity = s := by
      unfold cutBuf setBuf
      rw [hbuf, Option.map_none, ← hbuf, update_eq_self]
    rw [hsame]
    exact hb
  | some b =>
    have hcut := cutBuf_bufs (n := (s.nodes i).capacity) hbuf
    have htouch : Touches s (cutBuf s (s.nodes i).data (s.nodes i).capacity) i := by
      unfold cutBuf
      rw [hbuf]
      exact hb.touches_setBuf _ hbuf
    refine hb.touch (hb.toBacked.touch htouch ?_ (hb.fits i)) htouch rfl (hb.shape i) (hb.unused i)
    by_cases h0 : (s.nodes i).data = 0
    · exact .inl ⟨h0, hb.null i h0⟩
    · exact .inr ⟨⟨_, hcut, le_rfl⟩, h0, fun j hj => hb.apart i j (Ne.symm hj) h0⟩

theorem AllocOk.exactly (ha : AllocOk alloc s) (ptr n : ℕ) :
    AllocOk (exactly alloc) (cutBuf s ptr n) := by
  intro m p b hm
  obtain ⟨⟨q, b'⟩, halloc, heq⟩ := Option.map_eq_some_iff.mp hm
  cases heq
  obtain ⟨hq0, hq, -⟩ := ha m q b' halloc
  refine ⟨hq0, ?_, le_rfl⟩
  show update s.bufs ptr _ q = none
  by_cases hqp : q = ptr
  · rw [hqp, update_self, ← hqp, hq]
    rfl
  · rw [update_of_ne hqp, hq]

/-- **The copy into a buffer of exactly `capacity` bytes**, with the wrapped end below that. -/
theorem Bounded.copy_iff (hb : Bounded s) {i : NodeId} {c : ℕ} {bytes : List UInt8}
    (hc : c ≤ 2 ^ 63) (hroom : add64 c bytes.length ≤ (s.nodes i).capacity)
    (hexact : ∀ b, s.bufs (s.nodes i).data = some b → b.len = (s.nodes i).capacity)
    {α : Type} (f : VfsState → α) :
    (∀ e, (writeBuf s (s.nodes i).data c bytes >>= fun t => .ok (f t)) = .error e → e = .hang) ↔
      c + bytes.length < 2 ^ 64 := by
  have hcap := hb.capacity_le i
  by_cases hfit : c + bytes.length < 2 ^ 64
  · rw [add64_of_lt hfit] at hroom
    obtain ⟨s', hret⟩ := hb.writeBuf hroom
    rw [hret]
    exact iff_of_true nofun hfit
  · have hfault : writeBuf s (s.nodes i).data c bytes = .error .outOfBounds := by
      unfold writeBuf
      rw [if_neg (by rintro rfl; exact hfit (by simp; omega))]
      split
      · rfl
      · rename_i b hbuf
        rw [hexact b hbuf]
        exact if_neg (by omega)
    rw [hfault]
    exact iff_of_false (fun h => by cases h _ rfl) hfit

/-- `vfs_write` past its checks, with the file in a buffer of exactly its capacity. -/
theorem Bounded.writeFile_iff (hb : Bounded s) (ha : AllocOk alloc s) {i : NodeId}
    (hi : (s.openFiles k).node = i) (hused : (s.nodes i).used = true) {bytes : List UInt8}
    (hlen : bytes.length < 2 ^ 64)
    (hexact : ∀ b, s.bufs (s.nodes i).data = some b → b.len = (s.nodes i).capacity)
    (hall : ∀ n p b, alloc n = some (p, b) → b.len = n)
    (hgo : ∀ cap, doubleUntil 65 (startCapacity (s.nodes i)) (add64 (cursor s k) bytes.length) =
      some cap → ¬add64 (cursor s k) bytes.length ≤ (s.nodes i).capacity → alloc cap ≠ none) :
    (∀ e, writeFile alloc s k bytes = .error e → e = .hang) ↔
      cursor s k + bytes.length < 2 ^ 64 := by
  have hu := seekAppend_bounded hb k
  have hau := ha.seekAppend k
  have hn := seekAppend_nodes s k
  rw [← hn] at hused
  have hbufs := seekAppend_bufs s k
  have hc := hu.offset k
  rw [seekAppend_slot] at hc
  dsimp only at hc
  rw [writeFile_eq, hi]
  generalize seekAppend s k = u at *
  obtain ⟨hroom, hret⟩ | ⟨hneed, hret⟩ | ⟨cap, hdouble, hmore, ⟨halloc, hret⟩ |
      ⟨p, b, buf, halloc, hle, hcarries, -, hv, hbuf, hret⟩⟩ :=
    hu.ensureCapacity_cases hau hused (add64 (cursor s k) bytes.length)
  · rw [hret]
    refine hu.copy_iff hc hroom ?_ _
    rw [hn, hbufs]
    exact hexact
  · -- an end above `2^63` has not wrapped: the cursor is below
    rw [hret]
    refine iff_of_true (fun e he => by cases he; rfl) ?_
    unfold add64 at hneed
    omega
  · rw [hn] at hdouble hmore
    exact absurd halloc (hgo cap hdouble hmore)
  · rw [hret]
    have hnode := regrown_node u i p cap buf
    refine hv.copy_iff hc ?_ ?_ _
    · rw [hnode]
      exact hle
    · rw [hnode]
      intro b' hb'
      cases hbuf.symm.trans hb'
      exact hcarries.len.trans (hall cap p b halloc)

theorem vfsWrite_file (hk : openSlot s fd = some k)
    (hfile : (s.nodes (s.openFiles k).node).type = .file) (bytes : List UInt8) :
    vfsWrite alloc s fd (some bytes) = writeFile alloc s k bytes := by
  unfold vfsWrite
  rw [hk]
  exact if_neg (not_not.mpr hfile)

/-- **A write that is not refused** stays in the buffer exactly when its end does not wrap. -/
theorem Bounded.writeInside_iff (hb : Bounded s) (ha : AllocOk alloc s)
    (hk : openSlot s fd = some k) {bytes : List UInt8} (hlen : bytes.length < 2 ^ 64)
    (hgo : ∀ s', vfsWrite alloc s fd (some bytes) ≠ .ok (none, s')) :
    WriteInside alloc s fd k bytes ↔ cursor s k + bytes.length < 2 ^ 64 := by
  have hfile : (s.nodes (s.openFiles k).node).type = .file := by
    by_contra hfile
    refine hgo s ?_
    unfold vfsWrite
    rw [hk]
    exact if_pos hfile
  unfold WriteInside
  dsimp only
  rw [vfsWrite_file (s := cutBuf s _ _) hk hfile]
  refine (hb.cut (s.openFiles k).node).writeFile_iff (ha.exactly _ _) rfl
    (hb.used_of_file hfile) hlen ?_ ?_ ?_
  · exact fun b hbuf => cutBuf_len hbuf
  · intro n p b halloc
    obtain ⟨x, -, heq⟩ := Option.map_eq_some_iff.mp halloc
    cases heq
    rfl
  · -- without memory the call itself would have been refused
    intro cap hdouble hmore hnone
    change ¬add64 (cursor s k) bytes.length ≤ (s.nodes (s.openFiles k).node).capacity at hmore
    change doubleUntil 65 (startCapacity (s.nodes (s.openFiles k).node))
      (add64 (cursor s k) bytes.length) = some cap at hdouble
    refine hgo (seekAppend s k) ?_
    have hrefused : ensureCapacity alloc (seekAppend s k) (s.openFiles k).node
        (add64 (cursor s k) bytes.length) = .ok (false, seekAppend s k) := by
      unfold ensureCapacity
      rw [seekAppend_nodes]
      dsimp only
      rw [if_neg hmore, ← startCapacity, hdouble]
      dsimp only
      rw [Option.map_eq_none_iff.mp hnone]
    rw [vfsWrite_file hk hfile, writeFile_eq, hrefused]
    rfl

end Copies

/-- **READS AND WRITES STAY INSIDE THE FILE BUFFER, UNLESS `offset + len` WRAPS.**  In every
state that VFS calls lead to: sizes are at most capacities, and so they are after any further
write; for every open descriptor, a read stays in the file exactly when its end does not wrap or
there is nothing to read, and a write that is not refused stays in the buffer exactly when its
end does not wrap. -/
theorem accesses_inside {s₀ s : VfsState} (hrun : Run AnyOp (vfsInit s₀).2 s) :
    (∀ i, (s.nodes i).size ≤ (s.nodes i).capacity) ∧
      (∀ alloc fd buf r s', AllocOk alloc s → vfsWrite alloc s fd buf = .ok (r, s') →
        ∀ i, (s'.nodes i).size ≤ (s'.nodes i).capacity) ∧
      ∀ fd k, openSlot s fd = some k →
        (∀ len, len < 2 ^ 64 → (ReadInside s fd k len ↔ ReadFits s k len)) ∧
          ∀ alloc bytes, AllocOk alloc s → bytes.length < 2 ^ 64 →
            (∀ s', vfsWrite alloc s fd (some bytes) ≠ .ok (none, s')) →
              (WriteInside alloc s fd k bytes ↔ cursor s k + bytes.length < 2 ^ 64) := by
  have hb := run_bounded hrun
  refine ⟨hb.fits, ?_, fun fd k hk => ⟨fun len hlen => hb.readInside_iff hk hlen, ?_⟩⟩
  · intro alloc fd buf r s' ha h
    exact ((vfsWrite_effect alloc h).bounded ha hb).1.fits
  · intro alloc bytes ha hlen hgo
    exact hb.writeInside_iff ha hk hlen hgo

/-- `/a` holds two bytes, and the cursor is at the second. -/
abbrev secondA : VfsState :=
  after noMemory (after oneBlock grownA (.write 0 (some [0x61, 0x62]))) (.lseek 0 1 0)

theorem secondA_reached : Run AnyOp (vfsInit blank).2 secondA := by
  refine .tail (b := after oneBlock grownA (.write 0 (some [0x61, 0x62])))
    (.tail grownA_reached ?_) ?_
  · exact ⟨.write 0 (some [0x61, 0x62]), .count 2, trivial, oneBlock, oneBlock_ok rfl,
      exec_of_answer (by decide +kernel)⟩
  · exact ⟨.lseek 0 1 0, .pos 1, trivial, noMemory, noMemory_ok _,
      exec_of_answer (by decide +kernel)⟩

/-- The second byte is read, with a length far past the end, and overwritten. -/
theorem accesses_inside_second :
    ReadInside secondA 0 0 100 ∧ WriteInside noMemory secondA 0 0 [0x63] := by
  obtain ⟨hread, hwrite⟩ := (accesses_inside secondA_reached).2.2 0 0 (by decide +kernel)
  refine ⟨(hread 100 (by omega)).mpr fun _ _ => by decide +kernel,
    (hwrite noMemory [0x63] (noMemory_ok _) (by decide) fun s' h => ?_).mpr (by decide +kernel)⟩
  have hone : (vfsWrite noMemory secondA 0 (some [0x63])).toOption.map Prod.fst = some (some 1) := by
    decide +kernel
  rw [h] at hone
  cases hone

/-- **A read of `2^64 - 1` bytes is not cut**: `offset + len` wraps to 0, and the copy runs
from index 1 to the end of the address space. -/
theorem read_past_buffer :
    Run AnyOp (vfsInit blank).2 secondA ∧ openSlot secondA 0 = some 0 ∧
      (secondA.nodes 1).size = 2 ∧
      vfsRead secondA 0 true (2 ^ 64 - 1) = .error .outOfBounds ∧
      ¬ ReadInside secondA 0 0 (2 ^ 64 - 1) := by
  have hfault : vfsRead secondA 0 true (2 ^ 64 - 1) = .error .outOfBounds := by
    refine vfsRead_wraps (k := 0) (by decide +kernel) (by decide +kernel) (by decide +kernel)
      (by decide +kernel) (by omega) (by decide +kernel) fun b hb => ?_
    have hlen : (secondA.bufs (secondA.nodes (secondA.openFiles 0).node).data).map Buf.len =
        some 256 := by decide +kernel
    rw [hb] at hlen
    have : b.len = 256 := Option.some.inj hlen
    omega
  refine ⟨secondA_reached, by decide +kernel, by decide +kernel, hfault, ?_⟩
  rintro ⟨r, s₁, s₂, hret, -⟩
  cases hfault.symm.trans hret

end ExoCore.Vfs
