/-
  ExoCore.Vfs.Ownership — the live buffers are EXACTLY the data pointers.

  `Bounded` says that every data pointer is a live buffer of its own.  `Exact` is the
  other direction, no live buffer without a node.  A call touches at most one slot, so
  it keeps both.

    * `Bounded.exec_returns` — one call frees only what it owns;
    * `buffers_owned`   — every state of every run, failed reallocations and
      writes through stale descriptors included.
-/
import ExoCore.Vfs.Growth

namespace ExoCore.Vfs

open ExoCore.Lib Function

/-! ## §1. Exact ownership. -/

/-- `cap` is 64 times a power of two. -/
def IsCapacity (cap : ℕ) : Prop := ∃ k, cap = 64 * 2 ^ k

theorem WordCapacity.isCapacity {cap : ℕ} (h : WordCapacity cap) : IsCapacity cap := by
  obtain ⟨k, hk, -, rfl⟩ := h
  refine ⟨k - 6, ?_⟩
  rw [show 64 = 2 ^ 6 from rfl, ← Nat.pow_add, Nat.add_sub_cancel' hk]

/-- Every live buffer is some node's. -/
def Exact (s : VfsState) : Prop := ∀ p, s.bufs p ≠ none → p ≠ 0 ∧ ∃ i, (s.nodes i).data = p

/-- **A change to one slot**: a buffer that is live afterwards is the slot's new one,
or was live before and is another slot's. -/
theorem Touches.exact {s s' : VfsState} {i : NodeId} (h : Touches s s' i) (he : Exact s) :
    Exact s' := by
  intro p hp
  obtain ⟨hp0, hpi⟩ | ⟨hold, hne⟩ := h.live p hp
  · exact ⟨hp0, i, hpi.symm⟩
  · obtain ⟨hp0, j, hj⟩ := he p hold
    have hji : j ≠ i := by
      rintro rfl
      exact hne hp0 hj.symm
    exact ⟨hp0, j, by rw [h.nodes j hji]; exact hj⟩

/-- The condition on a call: the end of a write stays below `2^63`. -/
def WriteOk (s : VfsState) : Op → Prop
  | .write fd (some bytes) => ∀ k, openSlot s fd = some k → cursor s k + bytes.length < 2 ^ 63
  | _ => True

/-! ## §2. The calls. -/

section Calls

variable {alloc : Allocator} {s : VfsState}

/-- A call of `vfs_read` whose length wraps may read past its buffer. -/
theorem vfsRead_faults (s : VfsState) (fd : ℤ) (buf : Bool) (len : ℕ) :
    Ensures (· = .outOfBounds) (vfsRead s fd buf len) fun _ => True := by
  unfold vfsRead
  cases openSlot s fd with
  | none => exact Ensures.ok trivial
  | some slot =>
    refine Ensures.ite (fun _ => Ensures.ok trivial) fun _ => ?_
    refine Ensures.ite (fun _ => Ensures.ok trivial) fun _ => ?_
    refine Ensures.bind (readBuf_faults ?_ ..) fun _ _ => Ensures.ok trivial
    exact rfl

section

variable (h : Bounded s)
include h

theorem Bounded.unlink_returns (path : Str) : ∃ x, vfsUnlink s path = .ok x := by
  unfold vfsUnlink
  split
  · exact ⟨_, rfl⟩
  split
  · exact ⟨_, rfl⟩
  · exact ⟨_, h.toBacked.dropNode _⟩

theorem Bounded.rmdir_returns (path : Str) : ∃ x, vfsRmdir s path = .ok x := by
  unfold vfsRmdir
  split
  · exact ⟨_, rfl⟩
  split
  · exact ⟨_, rfl⟩
  · rw [leaveDir_eq]
    refine ⟨_, Backed.dropNode ?_ _⟩
    exact h.toBacked.congr rfl rfl

/-- A read of at most `2^63` bytes stays inside the file. -/
theorem Bounded.read_returns (fd : ℤ) (buf : Bool) {len : ℕ}
    (hlen : ∀ k, openSlot s fd = some k → len ≤ 2 ^ 63) : ∃ x, vfsRead s fd buf len = .ok x := by
  unfold vfsRead
  split
  · exact ⟨_, rfl⟩
  dsimp only
  split
  · exact ⟨_, rfl⟩
  split
  · exact ⟨_, rfl⟩
  · rename_i slot hk _ _
    have hsize := h.size_le (s.openFiles slot).node
    have hle := hlen slot hk
    rw [add64_of_lt (by omega), h.toBacked.readBuf (by split <;> omega)]
    exact ⟨_, rfl⟩

theorem Bounded.write_returns (ha : AllocOk alloc s) {fd : ℤ} {buf : Option (List UInt8)}
    (hok : WriteOk s (.write fd buf)) :
    ∃ x, vfsWrite alloc s fd buf = .ok x := by
  unfold vfsWrite
  split
  · exact ⟨_, rfl⟩
  rename_i slot hslot
  split
  · exact ⟨_, rfl⟩
  split
  · exact ⟨_, rfl⟩
  · rename_i hfile
    exact writeFile_total h ha (not_not.mp hfile) (hok slot hslot)

/-- **One call** returns, or it is a read past its buffer. -/
theorem Bounded.exec_returns (ha : AllocOk alloc s) {op : Op} (hok : WriteOk s op) :
    (∃ x, exec alloc s op = .ok x) ∨
      (∃ fd buf len, op = .read fd buf len) ∧ exec alloc s op = .error .outOfBounds := by
  cases op with
  | unlink path =>
    obtain ⟨x, hret⟩ := h.unlink_returns path
    exact .inl ⟨_, map_ok.mpr ⟨x, hret, rfl⟩⟩
  | rmdir path =>
    obtain ⟨x, hret⟩ := h.rmdir_returns path
    exact .inl ⟨_, map_ok.mpr ⟨x, hret, rfl⟩⟩
  | «open» path flags =>
    obtain ⟨r, s', hret⟩ := vfsOpen_returns alloc s path flags
    exact .inl ⟨_, map_ok.mpr ⟨_, hret, rfl⟩⟩
  | read fd buf len =>
    have hfault := vfsRead_faults s fd buf len
    show (∃ x, (vfsRead s fd buf len).map _ = .ok x) ∨ _ ∧ (vfsRead s fd buf len).map _ = _
    cases hret : vfsRead s fd buf len with
    | ok x => exact .inl ⟨_, rfl⟩
    | error e => exact .inr ⟨⟨fd, buf, len, rfl⟩, congrArg Except.error (hfault.failure hret)⟩
  | write fd buf =>
    obtain ⟨x, hret⟩ := h.write_returns ha hok
    exact .inl ⟨_, map_ok.mpr ⟨x, hret, rfl⟩⟩
  | _ => exact .inl ⟨_, rfl⟩

end

end Calls

/-! ## §3. Runs. -/

/-- **Buffer ownership, in the terms of the used nodes.** -/
structure BuffersOwned (s : VfsState) : Prop where
  fits : ∀ i, (s.nodes i).used = true → (s.nodes i).size ≤ (s.nodes i).capacity
  null : ∀ i, (s.nodes i).used = true → ((s.nodes i).capacity = 0 ↔ (s.nodes i).data = 0)
  shape : ∀ i, (s.nodes i).used = true → (s.nodes i).data ≠ 0 → IsCapacity (s.nodes i).capacity
  distinct : ∀ i j, (s.nodes i).used = true → (s.nodes j).used = true → i ≠ j →
    (s.nodes i).data ≠ 0 → (s.nodes i).data ≠ (s.nodes j).data
  live : ∀ i, (s.nodes i).used = true → (s.nodes i).data ≠ 0 →
    ∃ b, s.bufs (s.nodes i).data = some b ∧ (s.nodes i).capacity ≤ b.len
  exact : ∀ p, (∃ b, s.bufs p = some b) ↔
    p ≠ 0 ∧ ∃ i, (s.nodes i).used = true ∧ (s.nodes i).data = p

theorem Bounded.buffersOwned {s : VfsState} (h : Bounded s) (he : Exact s) : BuffersOwned s := by
  refine ⟨fun i _ => h.fits i, ?_, fun i _ h0 => (h.shape i h0).isCapacity,
    fun i j _ _ => h.apart i j, fun i _ => h.live i, ?_⟩
  · intro i _
    refine ⟨fun hcap => ?_, h.null i⟩
    by_contra h0
    obtain ⟨k, -, -, hk⟩ := h.shape i h0
    have := Nat.two_pow_pos k
    omega
  · intro p
    constructor
    · rintro ⟨b, hb⟩
      obtain ⟨hp0, i, hi⟩ := he p (by rw [hb]; exact Option.some_ne_none b)
      refine ⟨hp0, i, ?_, hi⟩
      -- an unused slot has no buffer
      cases hu : (s.nodes i).used with
      | true => rfl
      | false => exact absurd (hi ▸ (h.unused i hu).1) hp0
    · rintro ⟨hp0, i, -, rfl⟩
      obtain ⟨b, hb, -⟩ := h.live i hp0
      exact ⟨b, hb⟩

/-- **Exact ownership of every run** that starts without buffers. -/
theorem run_exact {guard : VfsState → Op → Prop} {s₀ s : VfsState} (h0 : ∀ p, s₀.bufs p = none)
    (hrun : Run guard (vfsInit s₀).2 s) : Bounded s ∧ Exact s := by
  refine inv_of_run (fun s => Bounded s ∧ Exact s) hrun
    ⟨vfsInit_bounded s₀, fun p hp => absurd (h0 p) hp⟩ ?_
  rintro a b ⟨hb, he⟩ ⟨op, r, -, alloc, ha, hexec⟩
  obtain ⟨hb', i, htouch⟩ := (exec_effect hexec).bounded ha hb
  exact ⟨hb', htouch.exact he⟩

/-- **Buffer ownership.**  After one `vfs_init` and any run of calls whose writes end
below `2^63`, the live buffers are exactly the data pointers of the used nodes, each
with a capacity of 64 times a power of two; and any further call returns, or is a
`vfs_read`: no call frees a buffer twice or with too large a size. -/
theorem buffers_owned {s₀ s : VfsState} (h0 : ∀ p, s₀.bufs p = none)
    (hrun : Run WriteOk (vfsInit s₀).2 s) :
    BuffersOwned s ∧ ∀ alloc op, AllocOk alloc s → WriteOk s op →
      (∃ r s', exec alloc s op = .ok (r, s') ∧ BuffersOwned s') ∨
        (∃ fd buf len, op = .read fd buf len) ∧ exec alloc s op = .error .outOfBounds := by
  obtain ⟨h, he⟩ := run_exact h0 hrun
  refine ⟨h.buffersOwned he, ?_⟩
  intro alloc op ha hok
  obtain ⟨⟨r, s'⟩, hret⟩ | hfault := h.exec_returns ha hok
  · obtain ⟨h', i, htouch⟩ := (exec_effect hret).bounded ha h
    exact .inl ⟨r, s', hret, h'.buffersOwned (htouch.exact he)⟩
  · exact .inr hfault

/-- After `open /a` and a write of one byte into a fresh block. -/
theorem buffers_owned_write :
    BuffersOwned (after oneBlock (after noMemory (vfsInit blank).2 (.open pathA rdwrCreat))
      (.write 0 (some [0x78]))) := by
  have h₁ : Step WriteOk (vfsInit blank).2
      (after noMemory (vfsInit blank).2 (.open pathA rdwrCreat)) :=
    ⟨.open pathA rdwrCreat, .fd 0, trivial, noMemory, noMemory_ok _,
      exec_of_answer (by decide +kernel)⟩
  have h₂ : Step WriteOk (after noMemory (vfsInit blank).2 (.open pathA rdwrCreat))
      (after oneBlock (after noMemory (vfsInit blank).2 (.open pathA rdwrCreat))
        (.write 0 (some [0x78]))) := by
    refine ⟨.write 0 (some [0x78]), .count 1, ?_, oneBlock, oneBlock_ok rfl, exec_of_answer (by decide +kernel)⟩
    intro k hk
    have hk0 : openSlot (after noMemory (vfsInit blank).2 (.open pathA rdwrCreat)) 0 = some 0 := by
      decide +kernel
    rw [hk0] at hk
    cases hk
    decide +kernel
  have h₀ : ∀ p, blank.bufs p = none := fun _ => rfl
  exact (buffers_owned h₀ (.tail (.single h₁) h₂)).1

end ExoCore.Vfs
