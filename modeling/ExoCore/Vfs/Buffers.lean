/-
  ExoCore.Vfs.Buffers — who owns which buffer.

  `Backed` says that every data pointer is a live buffer of at least `capacity`
  bytes, that no two nodes share one, and that no file is larger than its
  capacity.  `Touches` says that one slot and its buffer changed at most.  Under
  `Backed` and the allocator's contract the buffer operations do not fault, and each
  is described by the slot it touches and by what it does to `byteAt`, the bytes of
  the files.
-/
import ExoCore.Vfs.Step

namespace ExoCore.Vfs

open ExoCore.Lib Function List

/-! ## §1. Ownership. -/

/-- Byte `p` of the file in slot `m`. -/
def byteAt (s : VfsState) (m : NodeId) (p : ℕ) : UInt8 :=
  match s.bufs (s.nodes m).data with
  | some b => b.byte p
  | none => 0

/-- **Backed files**: a data pointer is a live buffer of the node's own, with room for
`capacity` bytes, and no file is larger than that. -/
structure Backed (s : VfsState) : Prop where
  live : ∀ i, (s.nodes i).data ≠ 0 →
    ∃ b, s.bufs (s.nodes i).data = some b ∧ (s.nodes i).capacity ≤ b.len
  null : ∀ i, (s.nodes i).data = 0 → (s.nodes i).capacity = 0
  fits : ∀ i, (s.nodes i).size ≤ (s.nodes i).capacity
  apart : ∀ i j, i ≠ j → (s.nodes i).data ≠ 0 → (s.nodes i).data ≠ (s.nodes j).data

section Facts

variable {s : VfsState} {i j : NodeId}

theorem Backed.data_of_capacity (h : Backed s) (hc : (s.nodes i).capacity ≠ 0) :
    (s.nodes i).data ≠ 0 := fun h0 => hc (h.null i h0)

theorem Backed.data_of_size (h : Backed s) (hc : (s.nodes i).size ≠ 0) : (s.nodes i).data ≠ 0 := by
  apply h.data_of_capacity
  have := h.fits i
  omega

/-- A live buffer is not the pointer `mem_alloc` just returned. -/
theorem Backed.ne_fresh (ho : Backed s) {p : ℕ} (hp : s.bufs p = none)
    (h0 : (s.nodes j).data ≠ 0) : (s.nodes j).data ≠ p := by
  obtain ⟨b, hb, -⟩ := ho.live j h0
  intro heq
  rw [heq, hp] at hb
  cases hb

theorem byteAt_of_buf {b : Buf} {p : ℕ} (h : s.bufs (s.nodes i).data = some b) :
    byteAt s i p = b.byte p := by
  simp [byteAt, h]

/-- It reads the node table and the buffers only. -/
theorem Backed.congr {s' : VfsState} (h : Backed s) (hn : s'.nodes = s.nodes)
    (hb : s'.bufs = s.bufs) : Backed s' := by
  obtain ⟨h1, h2, h3, h4⟩ := h
  refine ⟨?_, ?_, ?_, ?_⟩
  · rw [hn, hb]
    exact h1
  · rw [hn]
    exact h2
  · rw [hn]
    exact h3
  · rw [hn]
    exact h4

end Facts

/-! ## §2. Buffers. -/

/-- The capacity the doubling starts from. -/
def startCapacity (n : VfsNode) : ℕ := if n.capacity ≠ 0 then n.capacity else 64

/-- Rebind one pointer. -/
def setBuf (s : VfsState) (ptr : ℕ) (b : Option Buf) : VfsState :=
  { s with bufs := update s.bufs ptr b }

@[simp] theorem setBuf_openFiles (s : VfsState) (ptr : ℕ) (b : Option Buf) :
    (setBuf s ptr b).openFiles = s.openFiles := rfl

@[simp] theorem setBuf_bufs (s : VfsState) (ptr : ℕ) (b : Option Buf) :
    (setBuf s ptr b).bufs = update s.bufs ptr b := rfl

/-- `if (ptr) mem_free(ptr, …)`. -/
def dropBuf (s : VfsState) (ptr : ℕ) : VfsState := if ptr ≠ 0 then setBuf s ptr none else s

@[simp] theorem dropBuf_openFiles (s : VfsState) (ptr : ℕ) :
    (dropBuf s ptr).openFiles = s.openFiles := by
  unfold dropBuf
  split <;> rfl

@[simp] theorem dropBuf_nodes (s : VfsState) (ptr : ℕ) : (dropBuf s ptr).nodes = s.nodes := by
  unfold dropBuf
  split <;> rfl

theorem dropBuf_of_ne (s : VfsState) {ptr q : ℕ} (h : ptr ≠ 0 → q ≠ ptr) :
    (dropBuf s ptr).bufs q = s.bufs q := by
  unfold dropBuf
  split
  · rename_i h0
    exact update_of_ne (h h0) _ _
  · rfl

/-- A buffer that is live after a release was live before, and is not the one released. -/
theorem live_dropBuf {s : VfsState} {ptr p : ℕ} (h : (dropBuf s ptr).bufs p ≠ none) :
    s.bufs p ≠ none ∧ (p ≠ 0 → p ≠ ptr) := by
  by_cases hp : ptr ≠ 0 → p ≠ ptr
  · rw [dropBuf_of_ne s hp] at h
    exact ⟨h, fun h0 heq => hp (heq ▸ h0) heq⟩
  · obtain ⟨h0, rfl⟩ : ptr ≠ 0 ∧ p = ptr := by simpa using hp
    rw [dropBuf, if_pos h0, setBuf_bufs, update_self] at h
    exact absurd rfl h

section Accesses

variable {s : VfsState} {ptr off n : ℕ} {b : Buf} {bytes : List UInt8}

theorem readBuf_ok (hb : s.bufs ptr = some b) (hn : off + n ≤ b.len) :
    readBuf s ptr off n = .ok ((List.range n).map fun i => b.byte (off + i)) := by
  unfold readBuf
  by_cases h0 : n = 0
  · rw [if_pos h0, h0]
    rfl
  · rw [if_neg h0, hb]
    exact if_pos hn

theorem writeBuf_ok (hb : s.bufs ptr = some b) (hn : off + bytes.length ≤ b.len) :
    writeBuf s ptr off bytes = .ok (setBuf s ptr (some (b.store off bytes))) := by
  unfold writeBuf
  by_cases h0 : bytes = []
  · have hstore : b.store off [] = b := by
      simp [Buf.store]
    rw [if_pos h0, h0, hstore, setBuf, ← hb, update_eq_self]
  · rw [if_neg h0, hb]
    exact if_pos hn

theorem Buf.store_byte {p : ℕ} :
    (b.store off bytes).byte p =
      if off ≤ p ∧ p < off + bytes.length then (bytes[p - off]?).getD 0 else b.byte p := by
  unfold Buf.store
  dsimp only
  by_cases h1 : off ≤ p
  · by_cases h2 : p < off + bytes.length
    · rw [if_pos h1, if_pos ⟨h1, h2⟩, getElem?_eq_getElem (by omega)]
      rfl
    · rw [if_pos h1, if_neg (by omega), getElem?_eq_none (by omega)]
      rfl
  · rw [if_neg h1, if_neg (by omega)]

/-- What a copy stored can be read back. -/
theorem readBuf_written {s' : VfsState} (h : writeBuf s ptr off bytes = .ok s') :
    readBuf s' ptr off bytes.length = .ok bytes := by
  by_cases h0 : bytes = []
  · rw [h0]
    rfl
  unfold writeBuf at h
  rw [if_neg h0] at h
  split at h
  · cases h
  rename_i b _
  split at h
  · rename_i hle
    cases h
    rw [readBuf_ok (b := b.store off bytes) (update_self ..) hle]
    refine congrArg Except.ok (ext_getElem (by simp) fun j h1 h2 => ?_)
    simp [Buf.store, h2]
  · cases h

theorem freeData_ok {node : VfsNode}
    (h : node.data ≠ 0 → ∃ b, s.bufs node.data = some b ∧ node.capacity ≤ b.len) :
    freeData s node = .ok (dropBuf s node.data) := by
  unfold freeData dropBuf
  by_cases h0 : node.data ≠ 0
  · obtain ⟨b, hb, hn⟩ := h h0
    rw [if_pos h0, if_pos h0, freeBuf, hb]
    exact if_neg (by omega)
  · rw [if_neg h0, if_neg h0]

end Accesses

/-- The state after slot `i` got the buffer `buf` at `p` in place of its old one. -/
def regrown (s : VfsState) (i : NodeId) (p cap : ℕ) (buf : Buf) : VfsState :=
  (dropBuf (setBuf s p (some buf)) (s.nodes i).data).setNode i
    { s.nodes i with data := p, capacity := cap }

section Ensure

variable {alloc : Allocator} {s : VfsState} {i : NodeId}

/-- The bytes `ensure_capacity` carries over, read with the new block at `p`
already live. -/
theorem oldBytes_ok (ho : Backed s) (i : NodeId) {p : ℕ} (b : Buf) (hp : s.bufs p = none) :
    ∃ old, oldBytes (setBuf s p (some b)) (s.nodes i) = .ok old ∧
      old.length = (s.nodes i).size ∧
      ∀ q, q < (s.nodes i).size → old[q]? = some (byteAt s i q) := by
  by_cases hsize : (s.nodes i).size = 0
  · refine ⟨[], ?_, by rw [hsize]; rfl, fun q hq => by omega⟩
    unfold oldBytes
    rw [if_neg (fun h => h.2 hsize)]
  · have hdata := ho.data_of_size hsize
    obtain ⟨b₀, hb₀, hcap⟩ := ho.live i hdata
    have hfits := ho.fits i
    have hlive : (setBuf s p (some b)).bufs (s.nodes i).data = some b₀ := by
      rw [setBuf_bufs, update_of_ne (ho.ne_fresh hp hdata), hb₀]
    refine ⟨(List.range (s.nodes i).size).map fun q => b₀.byte (0 + q), ?_, ?_, ?_⟩
    · unfold oldBytes
      rw [if_pos ⟨hdata, hsize⟩]
      exact readBuf_ok hlive (by omega)
    · rw [length_map, length_range]
    · intro q hq
      rw [byteAt_of_buf hb₀]
      simp [hq]

/-- `buf` is the fresh block `b` with the bytes of the file in front; behind them is whatever the
block held. -/
structure Carries (s : VfsState) (i : NodeId) (b buf : Buf) : Prop where
  len : buf.len = b.len
  kept : ∀ q, q < (s.nodes i).size → buf.byte q = byteAt s i q
  fresh : ∀ q, (s.nodes i).size ≤ q → buf.byte q = b.byte q

/-- A growth to the capacity `cap`: `mem_alloc` refuses, or the file moves to a new buffer
with the same bytes. -/
theorem Backed.grow (ho : Backed s) (ha : AllocOk alloc s) (i : NodeId) {need cap : ℕ}
    (hroom : ¬need ≤ (s.nodes i).capacity) (hle : need ≤ cap)
    (hdouble : doubleUntil 65 (startCapacity (s.nodes i)) need = some cap) :
    (alloc cap = none ∧ ensureCapacity alloc s i need = .ok (false, s)) ∨
    ∃ p b buf, alloc cap = some (p, b) ∧ p ≠ 0 ∧ s.bufs p = none ∧ cap ≤ buf.len ∧
      Carries s i b buf ∧ ensureCapacity alloc s i need = .ok (true, regrown s i p cap buf) := by
  unfold ensureCapacity
  dsimp only
  rw [if_neg hroom, ← startCapacity, hdouble]
  dsimp only
  cases halloc : alloc cap with
  | none => exact .inl ⟨rfl, rfl⟩
  | some pb =>
    obtain ⟨p, b⟩ := pb
    obtain ⟨hp0, hpfree, hlen⟩ := ha cap p b halloc
    obtain ⟨old, hold, hlenOld, hget⟩ := oldBytes_ok ho i b hpfree
    have hfits := ho.fits i
    refine .inr ⟨p, b, b.store 0 old, rfl, hp0, hpfree, hlen, ⟨rfl, ?_, ?_⟩, ?_⟩
    · intro q hq
      rw [Buf.store_byte, if_pos ⟨by omega, by omega⟩, Nat.sub_zero, hget q hq]
      rfl
    · intro q hq
      rw [Buf.store_byte, if_neg (by omega)]
    -- the copy lands in the new block, and the old block is still live
    have hwrite : writeBuf (setBuf s p (some b)) p 0 old =
        .ok (setBuf s p (some (b.store 0 old))) := by
      rw [writeBuf_ok (update_self ..) (by omega)]
      simp [setBuf]
    have hfree : freeData (setBuf s p (some (b.store 0 old))) (s.nodes i) =
        .ok (dropBuf (setBuf s p (some (b.store 0 old))) (s.nodes i).data) := by
      refine freeData_ok fun h0 => ?_
      obtain ⟨b₀, hb₀, hcap⟩ := ho.live i h0
      refine ⟨b₀, ?_, hcap⟩
      rw [setBuf_bufs, update_of_ne (ho.ne_fresh hpfree h0), hb₀]
    show (oldBytes (setBuf s p (some b)) (s.nodes i) >>= _) = _
    rw [hold]
    show (writeBuf (setBuf s p (some b)) p 0 old >>= _) = _
    rw [hwrite]
    show (freeData (setBuf s p (some (b.store 0 old))) (s.nodes i) >>= _) = _
    rw [hfree]
    rfl

end Ensure

/-! ## §3. One node at a time. -/

/-- Only slot `i` and its buffers changed: a buffer that is live afterwards is the slot's, or
it was live before and was not the slot's. -/
structure Touches (s s' : VfsState) (i : NodeId) : Prop where
  nodes : ∀ j, j ≠ i → s'.nodes j = s.nodes j
  bufs : ∀ j, j ≠ i → (s.nodes j).data ≠ 0 → s'.bufs (s.nodes j).data = s.bufs (s.nodes j).data
  live : ∀ p, s'.bufs p ≠ none → (p ≠ 0 ∧ p = (s'.nodes i).data) ∨
    (s.bufs p ≠ none ∧ (p ≠ 0 → p ≠ (s.nodes i).data))

section Touching

variable {s s' s'' : VfsState} {i : NodeId}

/-- The slot keeps its pointer, and no buffer changes. -/
theorem touches_of_data (hn : ∀ j, j ≠ i → s'.nodes j = s.nodes j) (hb : s'.bufs = s.bufs)
    (hd : (s'.nodes i).data = (s.nodes i).data) : Touches s s' i := by
  refine ⟨hn, fun j _ _ => by rw [hb], fun p hp => ?_⟩
  rw [hb] at hp
  by_cases hpi : p ≠ 0 ∧ p = (s'.nodes i).data
  · exact .inl hpi
  · exact .inr ⟨hp, fun h0 heq => hpi ⟨h0, heq.trans hd.symm⟩⟩

/-- Neither a node nor a buffer changed. -/
theorem touches_of_eq (hn : s'.nodes = s.nodes) (hb : s'.bufs = s.bufs) : Touches s s' i :=
  touches_of_data (fun j _ => by rw [hn]) hb (by rw [hn])

theorem Touches.trans (h : Touches s s' i) (h' : Touches s' s'' i) : Touches s s'' i := by
  refine ⟨fun j hj => (h'.nodes j hj).trans (h.nodes j hj), fun j hj h0 => ?_, fun p hp => ?_⟩
  · have hnode := h.nodes j hj
    have hstep := h'.bufs j hj (by rw [hnode]; exact h0)
    rw [hnode] at hstep
    rw [hstep, h.bufs j hj h0]
  · obtain hnew | ⟨hp', hne⟩ := h'.live p hp
    · exact .inl hnew
    obtain ⟨h0, heq⟩ | hold := h.live p hp'
    · exact absurd heq (hne h0)
    · exact .inr hold

theorem Touches.size (h : Touches s s' i) {j : NodeId} (hj : j ≠ i) :
    (s'.nodes j).size = (s.nodes j).size := by
  rw [h.nodes j hj]

/-- The bytes of every other file are the same. -/
theorem Touches.byteAt (h : Touches s s' i) (ho : Backed s) {j : NodeId} (hj : j ≠ i) {p : ℕ}
    (hp : p < (s.nodes j).size) : byteAt s' j p = byteAt s j p := by
  unfold Vfs.byteAt
  rw [h.nodes j hj, h.bufs j hj (ho.data_of_size (by omega))]

theorem touches_setNode (s : VfsState) {i : NodeId} {n : VfsNode} (hd : n.data = (s.nodes i).data) :
    Touches s (s.setNode i n) i := by
  refine touches_of_data (fun _ hj => update_of_ne hj _ _) rfl ?_
  rw [show (s.setNode i n).nodes i = n from update_self ..]
  exact hd

/-- What `alloc_node` changes, in a slot without data. -/
theorem allocNode_touches {t : NodeType} {p : NodeId} {leaf : Str}
    (h : allocNode s t p leaf = some (i, s')) (h0 : (s.nodes i).data = 0) :
    Touches s s' i ∧ s'.nodes i = newNode s t p leaf ∧ s'.openFiles = s.openFiles := by
  obtain ⟨-, rfl⟩ := allocNode_some h
  refine ⟨touches_of_data (fun j hj => update_of_ne hj _ _) rfl ?_, update_self .., rfl⟩
  exact (congrArg VfsNode.data (update_self ..)).trans h0.symm

/-- A slot and its buffer are dropped. -/
theorem Backed.touches_drop (ho : Backed s) (i : NodeId) :
    Touches s ((dropBuf s (s.nodes i).data).setNode i VfsNode.zero) i := by
  refine ⟨fun j hj => ?_, fun j hj _ => ?_, fun p hp => .inr (live_dropBuf hp)⟩
  · exact (update_of_ne hj _ _).trans (by rw [dropBuf_nodes])
  · exact dropBuf_of_ne s fun hi => (ho.apart i j (Ne.symm hj) hi).symm

/-- **A change to slot `i`** has to be checked at slot `i` only. -/
theorem Backed.touch (ho : Backed s) (h : Touches s s' i)
    (hdata : ((s'.nodes i).data = 0 ∧ (s'.nodes i).capacity = 0) ∨
      ((∃ b, s'.bufs (s'.nodes i).data = some b ∧ (s'.nodes i).capacity ≤ b.len) ∧
        (s'.nodes i).data ≠ 0 ∧ ∀ j, j ≠ i → (s'.nodes i).data ≠ (s.nodes j).data))
    (hfits : (s'.nodes i).size ≤ (s'.nodes i).capacity) : Backed s' := by
  have hother : ∀ j, j ≠ i → s'.nodes j = s.nodes j := h.nodes
  refine ⟨?_, ?_, ?_, ?_⟩
  · intro j h0
    by_cases hj : j = i
    · subst hj
      cases hdata with
      | inl hz => exact absurd hz.1 h0
      | inr hl => exact hl.1
    · rw [hother j hj] at h0 ⊢
      rw [h.bufs j hj h0]
      exact ho.live j h0
  · intro j h0
    by_cases hj : j = i
    · subst hj
      cases hdata with
      | inl hz => exact hz.2
      | inr hl => exact absurd h0 hl.2.1
    · rw [hother j hj] at h0 ⊢
      exact ho.null j h0
  · intro j
    by_cases hj : j = i
    · rw [hj]
      exact hfits
    · rw [hother j hj]
      exact ho.fits j
  · -- two slots: both old, or one of them is `i`
    intro j k hjk h0
    by_cases hj : j = i
    · subst hj
      rw [hother k (Ne.symm hjk)]
      cases hdata with
      | inl hz => exact absurd hz.1 h0
      | inr hl => exact hl.2.2 k (Ne.symm hjk)
    · rw [hother j hj] at h0 ⊢
      by_cases hk : k = i
      · subst hk
        cases hdata with
        | inl hz =>
          rw [hz.1]
          exact h0
        | inr hl => exact (hl.2.2 j hj).symm
      · rw [hother k hk]
        exact ho.apart j k hjk h0

/-- The buffer of slot `i` stays, its size is lowered or stays below the capacity. -/
theorem Backed.resize (ho : Backed s) (i : NodeId) {n : VfsNode}
    (hdata : n.data = (s.nodes i).data) (hcap : n.capacity = (s.nodes i).capacity)
    (hfits : n.size ≤ n.capacity) : Backed (s.setNode i n) := by
  have hself : (s.setNode i n).nodes i = n := update_self ..
  refine ho.touch (touches_setNode s hdata) ?_ (by rw [hself]; exact hfits)
  rw [hself, hdata, hcap]
  by_cases h0 : (s.nodes i).data = 0
  · exact .inl ⟨h0, ho.null i h0⟩
  · exact .inr ⟨ho.live i h0, h0, fun j hj => ho.apart i j (Ne.symm hj) h0⟩

theorem Backed.clear {n : VfsNode} (ho : Backed s) (h : Touches s s' i) (hnew : s'.nodes i = n)
    (hdata : n.data = 0) (hcap : n.capacity = 0) (hsize : n.size = 0) : Backed s' := by
  subst hnew
  exact ho.touch h (.inl ⟨hdata, hcap⟩) (by omega)

/-- The buffer of slot `i` is replaced where it is. -/
theorem Backed.touches_setBuf (ho : Backed s) {b : Buf} (b' : Buf)
    (hb : s.bufs (s.nodes i).data = some b) : Touches s (setBuf s (s.nodes i).data (some b')) i := by
  refine ⟨fun _ _ => rfl, fun j hj h0 => update_of_ne (ho.apart j i hj h0) _ _, fun p hp => ?_⟩
  by_cases hpi : p ≠ 0 ∧ p = (s.nodes i).data
  · exact .inl hpi
  · refine .inr ⟨fun hnone => ?_, fun h0 heq => hpi ⟨h0, heq⟩⟩
    have hne : p ≠ (s.nodes i).data := by
      rintro rfl
      cases hb.symm.trans hnone
    exact hp ((update_of_ne hne _ _).trans hnone)

/-- `vfs_init` leaves one node, without data. -/
theorem vfsInit_node (s₀ : VfsState) (i : NodeId) :
    ((vfsInit s₀).2.nodes i).data = 0 ∧ ((vfsInit s₀).2.nodes i).capacity = 0 ∧
      ((vfsInit s₀).2.nodes i).size = 0 ∧ ((vfsInit s₀).2.nodes i).type ≠ .file := by
  have hnodes : (vfsInit s₀).2.nodes i = update (fun _ => VfsNode.zero) 0
      { VfsNode.zero with used := true, inode := 1, type := .dir } i := rfl
  rw [hnodes]
  by_cases hi : i = 0
  · rw [hi, update_self]
    exact ⟨rfl, rfl, rfl, fun h => by cases h⟩
  · rw [update_of_ne hi]
    exact ⟨rfl, rfl, rfl, fun h => by cases h⟩

/-- After `vfs_init` there is no buffer to own. -/
theorem vfsInit_backed (s₀ : VfsState) : Backed (vfsInit s₀).2 := by
  have hnode := vfsInit_node s₀
  refine ⟨?_, ?_, ?_, ?_⟩
  · exact fun i hi => absurd (hnode i).1 hi
  · exact fun i _ => (hnode i).2.1
  · intro i
    rw [(hnode i).2.2.1]
    exact Nat.zero_le _
  · exact fun i j _ hi => absurd (hnode i).1 hi

end Touching

section Regrown

variable {s : VfsState} {i : NodeId} {p cap : ℕ} {buf : Buf}

theorem regrown_node (s : VfsState) (i : NodeId) (p cap : ℕ) (buf : Buf) :
    (regrown s i p cap buf).nodes i = { s.nodes i with data := p, capacity := cap } :=
  update_self ..

theorem regrown_openFiles : (regrown s i p cap buf).openFiles = s.openFiles := by
  show (dropBuf _ _).openFiles = _
  rw [dropBuf_openFiles, setBuf_openFiles]

theorem regrown_buf (ho : Backed s) (hp : s.bufs p = none) :
    (regrown s i p cap buf).bufs p = some buf := by
  show (dropBuf (setBuf s p (some buf)) (s.nodes i).data).bufs p = _
  rw [dropBuf]
  split
  · rename_i h0
    rw [setBuf_bufs, update_of_ne (ho.ne_fresh hp h0).symm]
    exact update_self ..
  · exact update_self ..

theorem regrown_touches (ho : Backed s) (hp0 : p ≠ 0) (hp : s.bufs p = none) :
    Touches s (regrown s i p cap buf) i := by
  refine ⟨fun j hj => ?_, fun j hj h0 => ?_, fun q hq => ?_⟩
  · exact (update_of_ne hj _ _).trans (by rw [dropBuf_nodes]; rfl)
  · refine (dropBuf_of_ne _ fun hi => (ho.apart i j (Ne.symm hj) hi).symm).trans ?_
    exact update_of_ne (ho.ne_fresh hp h0) _ _
  · obtain ⟨hlive, hne⟩ := live_dropBuf hq
    rw [regrown_node]
    by_cases hqp : q = p
    · exact .inl ⟨hqp ▸ hp0, hqp⟩
    · rw [setBuf_bufs, update_of_ne hqp] at hlive
      exact .inr ⟨hlive, hne⟩

theorem Backed.regrown (ho : Backed s) (hp0 : p ≠ 0) (hp : s.bufs p = none)
    (hcap : (s.nodes i).capacity ≤ cap) (hlen : cap ≤ buf.len) :
    Backed (regrown s i p cap buf) := by
  refine ho.touch (regrown_touches ho hp0 hp) ?_ ?_
  · rw [regrown_node]
    refine .inr ⟨⟨buf, regrown_buf ho hp, hlen⟩, hp0, ?_⟩
    intro j _ heq
    exact ho.ne_fresh hp (heq ▸ hp0) heq.symm
  · rw [regrown_node]
    exact (ho.fits i).trans hcap

end Regrown

/-! ## §4. Copies. -/

/-- What storing `bytes` at `c` makes of byte `p`. -/
def stored (bytes : List UInt8) (c : ℕ) (old : ℕ → UInt8) (p : ℕ) : UInt8 :=
  if c ≤ p ∧ p < c + bytes.length then (bytes[p - c]?).getD 0 else old p

section Write

variable {alloc : Allocator} {s : VfsState} {i : NodeId} {c : ℕ} {bytes : List UInt8}

/-- **A copy into a node's buffer** that stays inside it. -/
theorem Backed.writeBuf_returns (ho : Backed s) {s' : VfsState}
    (h : writeBuf s (s.nodes i).data c bytes = .ok s') :
    Backed s' ∧ s'.nodes = s.nodes ∧ s'.openFiles = s.openFiles ∧ Touches s s' i ∧
      ∀ p, byteAt s' i p = stored bytes c (byteAt s i) p := by
  unfold writeBuf at h
  by_cases hnil : bytes = []
  · rw [if_pos hnil] at h
    cases h
    refine ⟨ho, rfl, rfl, touches_of_eq rfl rfl, fun p => ?_⟩
    rw [stored, hnil, if_neg]
    rw [length_nil]
    omega
  rw [if_neg hnil] at h
  cases hb : s.bufs (s.nodes i).data with
  | none =>
    rw [hb] at h
    cases h
  | some b =>
    rw [hb] at h
    dsimp only at h
    split at h
    swap
    · cases h
    cases h
    have hself : (setBuf s (s.nodes i).data (some (b.store c bytes))).bufs (s.nodes i).data =
        some (b.store c bytes) := update_self ..
    have htouch := ho.touches_setBuf (b.store c bytes) hb
    refine ⟨ho.touch htouch ?_ (ho.fits i), rfl, rfl, htouch, fun p => ?_⟩
    · by_cases h0 : (s.nodes i).data = 0
      · exact .inl ⟨h0, ho.null i h0⟩
      · obtain ⟨b', hb', hlen⟩ := ho.live i h0
        obtain rfl : b = b' := Option.some.inj (hb.symm.trans hb')
        exact .inr ⟨⟨_, hself, hlen⟩, h0, fun j hj => ho.apart i j (Ne.symm hj) h0⟩
    · exact (byteAt_of_buf hself).trans (by rw [Buf.store_byte, stored, byteAt_of_buf hb])

/-- A copy below the capacity. -/
theorem Backed.writeBuf (ho : Backed s) (hle : c + bytes.length ≤ (s.nodes i).capacity) :
    ∃ s', writeBuf s (s.nodes i).data c bytes = .ok s' := by
  by_cases h0 : (s.nodes i).data = 0
  · -- no buffer, so there is nothing to copy
    have hcap := ho.null i h0
    exact ⟨s, if_pos (eq_nil_of_length_eq_zero (by omega))⟩
  · obtain ⟨b, hb, hlen⟩ := ho.live i h0
    exact ⟨_, writeBuf_ok hb (by omega)⟩

end Write

/-! ## §5. The other calls. -/

section Others

variable {alloc : Allocator} {s : VfsState} {i : NodeId}

/-- **`vfs_read`** below the end of the file. -/
theorem Backed.readBuf (ho : Backed s) {off n : ℕ} (hn : off + n ≤ (s.nodes i).size) :
    readBuf s (s.nodes i).data off n = .ok ((List.range n).map fun k => byteAt s i (off + k)) := by
  by_cases h0 : n = 0
  · rw [h0]
    rfl
  · obtain ⟨b, hb, hlen⟩ := ho.live i (ho.data_of_size (by omega))
    have hfits := ho.fits i
    rw [readBuf_ok hb (by omega)]
    simp only [byteAt_of_buf hb]

/-- **`vfs_unlink` and `vfs_rmdir`** release the buffer. -/
theorem Backed.dropNode (ho : Backed s) (i : NodeId) :
    dropNode s i = .ok (true, (dropBuf s (s.nodes i).data).setNode i VfsNode.zero) := by
  unfold Vfs.dropNode
  rw [freeData_ok (ho.live i)]
  rfl

end Others

end ExoCore.Vfs
