/-
  ExoCore.Proc.Ledger — the BLOCK ENTRIES of the memory contexts.

  `contexts` and `blocks` are linked by an integer id and nothing else.  `BlocksOk`
  says that the link is sound: an entry in use names an active context, is live in
  the heap and stands for a pointer of its own.  Each of the four calls keeps it, and a
  call that answers failure keeps the tables as they are.

  Main results:
    • `BlocksOk.create`, `.alloc`, `.free`, `.destroy` — one lemma per call.
-/
import ExoCore.Proc.Memctx
import ExoCore.Lib.Tables
import Mathlib.Order.Bounds.Basic

namespace ExoCore.Proc

open ExoCore.Lib Function

/-! ## §1. The link between the tables. -/

/-- The entry `b` is in use and carries `ctxId`. -/
def MemctxState.Carries (m : MemctxState) (ctxId : ℤ) (b : BlockSlot) : Prop :=
  (m.blocks b).ptr ≠ 0 ∧ (m.blocks b).ctxId = ctxId

instance (m : MemctxState) (ctxId : ℤ) (b : BlockSlot) : Decidable (m.Carries ctxId b) :=
  inferInstanceAs (Decidable (_ ∧ _))

/-- An entry in use: it names an active context, and is live with the size it records. -/
structure EntryOk (m : MemctxState) (x : MemctxBlock) : Prop where
  ptr : x.ptr ≠ 0
  owned : ∃ i, (m.contexts i).active = true ∧ (m.contexts i).id = x.ctxId
  backed : m.live x.ptr = some x.size

/-- **The block table is sound.** -/
structure BlocksOk (m : MemctxState) : Prop where
  entry : ∀ b, m.blocks b = MemctxBlock.zero ∨ EntryOk m (m.blocks b)
  /-- No pointer is recorded twice. -/
  apart : ∀ b b', (m.blocks b).ptr ≠ 0 → (m.blocks b).ptr = (m.blocks b').ptr → b = b'
  word : m.nextCtxId < 2 ^ 31
  ids : ∀ i, (m.contexts i).active = true →
    1 ≤ (m.contexts i).id ∧ (0 < m.nextCtxId → (m.contexts i).id < m.nextCtxId)
  distinct : ∀ i j, (m.contexts i).active = true → (m.contexts j).active = true →
    (m.contexts i).id = (m.contexts j).id → i = j

theorem memctxInit_blocksOk (m : MemctxState) : BlocksOk (memctxInit m) := by
  refine ⟨fun _ => .inl rfl, fun b b' hb => absurd rfl hb, (by decide : (1 : ℤ) < 2 ^ 31), ?_, ?_⟩
  · intro i hi
    cases hi
  · intro i j hi
    cases hi

section

variable {m : MemctxState} (h : BlocksOk m) {b : BlockSlot}
include h

theorem BlocksOk.empty (hb : (m.blocks b).ptr = 0) : m.blocks b = MemctxBlock.zero :=
  (h.entry b).resolve_right fun he => he.ptr hb

theorem BlocksOk.inUse (hb : (m.blocks b).ptr ≠ 0) : EntryOk m (m.blocks b) :=
  (h.entry b).resolve_left fun he => hb (by rw [he]; rfl)

end

/-- A context is found by its id. -/
theorem BlocksOk.findCtx_eq {m : MemctxState} (h : BlocksOk m) {i : CtxSlot}
    (hi : (m.contexts i).active = true) : findCtx m (m.contexts i).id = some i := by
  refine find?_finRange_unique (by simp [hi]) fun j hj => ?_
  simp only [Bool.and_eq_true, beq_iff_eq] at hj
  exact h.distinct j i hj.1 hi hj.2

/-- No entry carries an id that no context has. -/
theorem BlocksOk.not_carries {m : MemctxState} (h : BlocksOk m) {ctxId : ℤ}
    (hid : ∀ i, (m.contexts i).active = true → (m.contexts i).id ≠ ctxId) (b : BlockSlot) :
    ¬ m.Carries ctxId b := by
  rintro ⟨hb, hctx⟩
  obtain ⟨i, hi, hib⟩ := (h.inUse hb).owned
  exact hid i hi (hib.trans hctx)

/-! ## §2. The ways through each call. -/

section Calls

variable {m m' : MemctxState} {ctxId : ℤ} {i : CtxSlot} {b : BlockSlot}

/-- `memctx_alloc` answers `NULL` and changes nothing, or it enters the block. -/
theorem memctxAlloc_cases (alloc : HeapAlloc) (m : MemctxState) (ctxId : ℤ) (size : ℕ) :
    memctxAlloc alloc m ctxId size = (0, m) ∨
      ∃ i slot, findCtx m ctxId = some i ∧ (m.blocks slot).ptr = 0 ∧ size ≠ 0 ∧ alloc size ≠ 0 ∧
        ((m.contexts i).stats.quota ≠ 0 →
          add64 (m.contexts i).stats.used size ≤ (m.contexts i).stats.quota) ∧
        memctxAlloc alloc m ctxId size =
          (alloc size, noteBlock m i slot ctxId (alloc size) size) := by
  unfold memctxAlloc
  split
  · exact .inl rfl
  rename_i hsize
  split
  · exact .inl rfl
  rename_i i hi
  dsimp only
  split
  · exact .inl rfl
  rename_i hquota
  split
  · exact .inl rfl
  rename_i slot hslot
  split
  · exact .inl rfl
  rename_i hptr
  refine .inr ⟨i, slot, hi, by simpa using List.find?_some hslot, hsize, hptr, ?_, rfl⟩
  intro hq
  exact not_lt.mp fun hlt => hquota ⟨hq, hlt⟩

/-- The state after `memctx_free` of the entry `b`. -/
def released (m : MemctxState) (i : CtxSlot) (b : BlockSlot) : MemctxState :=
  { (m.setCtx i { m.contexts i with
      stats := (m.contexts i).stats.release (m.blocks b).size }).setBlock b MemctxBlock.zero with
    live := update m.live (m.blocks b).ptr none }

variable {ptr : ℕ} {l : List BlockSlot}

theorem heapFree_eq {size n : ℕ} (h : m.live ptr = some n) (hn : size ≤ n) :
    heapFree m ptr size = some { m with live := update m.live ptr none } := by
  unfold heapFree
  rw [h]
  exact if_neg (not_lt.mpr hn)

/-- What is left of the tables once `memctx_destroy` has run over the slots `l`. -/
structure Emptied (m : MemctxState) (ctxId : ℤ) (l : List BlockSlot) (m' : MemctxState) : Prop where
  contexts : m'.contexts = m.contexts
  nextCtxId : m'.nextCtxId = m.nextCtxId
  blocks : ∀ b, m'.blocks b = if b ∈ l ∧ m.Carries ctxId b then MemctxBlock.zero else m.blocks b
  live : ∀ p, m'.live p =
    if ∃ b ∈ l, m.Carries ctxId b ∧ (m.blocks b).ptr = p then none else m.live p

/-- Only what concerns the heap is needed to free a list of entries. -/
structure Freeable (m : MemctxState) (ctxId : ℤ) : Prop where
  backed : ∀ b, m.Carries ctxId b →
    ∃ n, m.live (m.blocks b).ptr = some n ∧ (m.blocks b).size ≤ n
  apart : ∀ b b', m.Carries ctxId b → m.Carries ctxId b' → (m.blocks b).ptr = (m.blocks b').ptr →
    b = b'

theorem BlocksOk.freeable (h : BlocksOk m) (ctxId : ℤ) : Freeable m ctxId :=
  ⟨fun _ hb => ⟨_, (h.inUse hb.1).backed, le_rfl⟩, fun b b' hb _ => h.apart b b' hb.1⟩

/-- `memctx_free` of a context whose entries can be freed never panics: it answers `-1` and
changes nothing, or it frees the entry. -/
theorem Freeable.memctxFree_cases (h : Freeable m ctxId) (ptr : ℕ) :
    memctxFree m ctxId ptr = some (false, m) ∨
      ∃ i b, findCtx m ctxId = some i ∧ m.Carries ctxId b ∧ (m.blocks b).ptr = ptr ∧
        memctxFree m ctxId ptr = some (true, released m i b) := by
  unfold memctxFree
  split
  · exact .inl rfl
  rename_i hptr
  split
  · rename_i i b hi hb
    have hfound := List.find?_some hb
    obtain ⟨hp, hctx⟩ : (m.blocks b).ptr = ptr ∧ (m.blocks b).ctxId = ctxId := by
      simpa using hfound
    have hc : m.Carries ctxId b := by
      refine ⟨?_, hctx⟩
      rw [hp]
      exact hptr
    obtain ⟨n, hlive, hsize⟩ := h.backed b hc
    refine .inr ⟨i, b, hi, hc, hp, ?_⟩
    dsimp only
    rw [← hp, heapFree_eq hlive hsize]
    rfl
  · exact .inl rfl

/-- The state after one entry was freed and cleared by the loop. -/
def dropBlock (m : MemctxState) (b : BlockSlot) : MemctxState :=
  { m.setBlock b MemctxBlock.zero with live := update m.live (m.blocks b).ptr none }

theorem dropBlock_carries {b' : BlockSlot} :
    (dropBlock m b).Carries ctxId b' ↔ m.Carries ctxId b' ∧ b' ≠ b := by
  unfold MemctxState.Carries
  show (update m.blocks b MemctxBlock.zero b').ptr ≠ 0 ∧
    (update m.blocks b MemctxBlock.zero b').ctxId = ctxId ↔ _
  by_cases hb : b' = b
  · subst hb
    simp [MemctxBlock.zero]
  · simp [hb]

theorem dropBlock_block {b' : BlockSlot} (h : b' ≠ b) : (dropBlock m b).blocks b' = m.blocks b' :=
  update_of_ne h _ _

theorem Freeable.dropBlock (h : Freeable m ctxId) (hb : m.Carries ctxId b) :
    Freeable (dropBlock m b) ctxId := by
  refine ⟨fun b' hb' => ?_, fun b₁ b₂ h₁ h₂ heq => ?_⟩
  · obtain ⟨hold, hne⟩ := dropBlock_carries.mp hb'
    rw [dropBlock_block hne]
    -- the pointer freed was another one
    have hptr : (m.blocks b').ptr ≠ (m.blocks b).ptr := fun he => hne (h.apart b' b hold hb he)
    show ∃ n, update m.live (m.blocks b).ptr none (m.blocks b').ptr = some n ∧ _
    rw [update_of_ne hptr]
    exact h.backed b' hold
  · obtain ⟨hold₁, hne₁⟩ := dropBlock_carries.mp h₁
    obtain ⟨hold₂, hne₂⟩ := dropBlock_carries.mp h₂
    rw [dropBlock_block hne₁, dropBlock_block hne₂] at heq
    exact h.apart b₁ b₂ hold₁ hold₂ heq

theorem noteBlock_block {size : ℕ} (b' : BlockSlot) :
    (noteBlock m i b ctxId ptr size).blocks b' =
      if b' = b then ⟨ptr, size, ctxId⟩ else m.blocks b' :=
  update_apply ..

/-- A block entered for the context, with a pointer that is not live. -/
theorem Freeable.note (h : Freeable m ctxId) (i : CtxSlot) (b : BlockSlot) (size : ℕ)
    (hfresh : m.live ptr = none) : Freeable (noteBlock m i b ctxId ptr size) ctxId := by
  have hlive : (noteBlock m i b ctxId ptr size).live = update m.live ptr (some size) := rfl
  have hold : ∀ {b'}, b' ≠ b → (noteBlock m i b ctxId ptr size).Carries ctxId b' →
      m.Carries ctxId b' := by
    intro b' hb hc
    unfold MemctxState.Carries at hc
    rw [noteBlock_block, if_neg hb] at hc
    exact hc
  -- an old entry has another pointer
  have hother : ∀ {b'}, m.Carries ctxId b' → (m.blocks b').ptr ≠ ptr := by
    intro b' hc he
    obtain ⟨n, hn, -⟩ := h.backed b' hc
    rw [he, hfresh] at hn
    cases hn
  refine ⟨fun b' hc => ?_, fun b₁ b₂ h₁ h₂ heq => ?_⟩
  · rw [noteBlock_block, hlive]
    by_cases hb : b' = b
    · rw [if_pos hb, update_self]
      exact ⟨size, rfl, le_rfl⟩
    · rw [if_neg hb, update_of_ne (hother (hold hb hc))]
      exact h.backed b' (hold hb hc)
  · refine distinct_write (fun x : MemctxBlock => x.ptr ≠ 0 ∧ x.ctxId = ctxId) MemctxBlock.ptr b
      h.apart (fun b' hb => ?_) (fun _ b' _ hc => ?_) b₁ b₂ h₁ h₂ heq
    · rw [noteBlock_block, if_neg hb]
    · rw [noteBlock_block, if_pos rfl]
      exact hother hc

/-- One turn of the loop at an entry of the context. -/
theorem freeBlocks_carried (h : Freeable m ctxId) (hb : m.Carries ctxId b) :
    freeBlocks ctxId (b :: l) m = freeBlocks ctxId l (dropBlock m b) := by
  obtain ⟨n, hlive, hsize⟩ := h.backed b hb
  show (if m.Carries ctxId b then (heapFree m _ _).bind _ else _) = _
  rw [if_pos hb, heapFree_eq hlive hsize]
  rfl

/-- One turn of the loop at any other entry. -/
theorem freeBlocks_other (hb : ¬ m.Carries ctxId b) :
    freeBlocks ctxId (b :: l) m = freeBlocks ctxId l m := by
  show (if m.Carries ctxId b then (heapFree m _ _).bind _ else _) = _
  rw [if_neg hb]

/-- The loop when no entry is of the context. -/
theorem freeBlocks_none (h : ∀ b, ¬ m.Carries ctxId b) (l : List BlockSlot) :
    freeBlocks ctxId l m = some m := by
  induction l with
  | nil => rfl
  | cons b l ih => rw [freeBlocks_other (h b), ih]

theorem Emptied.drop (h : Emptied (dropBlock m b) ctxId l m')
    (hb : m.Carries ctxId b) : Emptied m ctxId (b :: l) m' := by
  refine ⟨h.contexts, h.nextCtxId, fun b' => ?_, fun p => ?_⟩
  · rw [h.blocks b']
    by_cases hbb : b' = b
    · subst hbb
      rw [if_neg (fun hx => (dropBlock_carries.mp hx.2).2 rfl), if_pos ⟨by simp, hb⟩]
      exact update_self _ _ _
    · rw [dropBlock_block hbb]
      refine if_congr ?_ rfl rfl
      simp [dropBlock_carries, hbb]
  · rw [h.live p]
    show (if _ then none else update m.live (m.blocks b).ptr none p) = _
    by_cases hp : p = (m.blocks b).ptr
    · subst hp
      have hfreed : ∃ b' ∈ b :: l, m.Carries ctxId b' ∧ (m.blocks b').ptr = (m.blocks b).ptr :=
        ⟨b, by simp, hb, rfl⟩
      rw [update_self, if_pos hfreed]
      exact ite_self none
    · rw [update_of_ne hp]
      refine if_congr ?_ rfl rfl
      constructor
      · rintro ⟨b', hmem, hc, hb'⟩
        obtain ⟨hold, hne⟩ := dropBlock_carries.mp hc
        rw [dropBlock_block hne] at hb'
        exact ⟨b', List.mem_cons_of_mem _ hmem, hold, hb'⟩
      · rintro ⟨b', hmem, hc, hb'⟩
        have hne : b' ≠ b := by
          intro he
          subst he
          exact hp hb'.symm
        refine ⟨b', (List.mem_cons.mp hmem).resolve_left hne, dropBlock_carries.mpr ⟨hc, hne⟩, ?_⟩
        rw [dropBlock_block hne]
        exact hb'

theorem Emptied.skip (h : Emptied m ctxId l m') (hb : ¬ m.Carries ctxId b) :
    Emptied m ctxId (b :: l) m' := by
  -- an entry of the context that stands in `b :: l` stands in `l`
  have hmem : ∀ {b'}, m.Carries ctxId b' → (b' ∈ l ↔ b' ∈ b :: l) := by
    intro b' hc
    have hne : b' ≠ b := by
      intro he
      subst he
      exact hb hc
    simp [hne]
  refine ⟨h.contexts, h.nextCtxId, fun b' => ?_, fun p => ?_⟩
  · rw [h.blocks b']
    refine if_congr ?_ rfl rfl
    exact and_congr_left fun hc => hmem hc
  · rw [h.live p]
    refine if_congr ?_ rfl rfl
    exact exists_congr fun b' => and_congr_left fun hc => hmem hc.1

/-- **The loop of `memctx_destroy`** frees every entry of the context among `l`. -/
theorem freeBlocks_spec (l : List BlockSlot) (h : Freeable m ctxId) :
    ∃ m', freeBlocks ctxId l m = some m' ∧ Emptied m ctxId l m' := by
  induction l generalizing m with
  | nil => exact ⟨m, rfl, rfl, rfl, fun b => by simp, fun p => by simp⟩
  | cons b l ih =>
    by_cases hb : m.Carries ctxId b
    · obtain ⟨m', hrest, he⟩ := ih (h.dropBlock hb)
      rw [freeBlocks_carried h hb]
      exact ⟨m', hrest, he.drop hb⟩
    · obtain ⟨m', hrest, he⟩ := ih h
      rw [freeBlocks_other hb]
      exact ⟨m', hrest, he.skip hb⟩

/-- The tables after `memctx_destroy` of the context in slot `i`. -/
structure Destroyed (m : MemctxState) (ctxId : ℤ) (i : CtxSlot) (m' : MemctxState) : Prop where
  contexts : m'.contexts = update m.contexts i Memctx.zero
  nextCtxId : m'.nextCtxId = m.nextCtxId
  blocks : ∀ b, m'.blocks b = if m.Carries ctxId b then MemctxBlock.zero else m.blocks b
  live : ∀ p, m'.live p = if ∃ b, m.Carries ctxId b ∧ (m.blocks b).ptr = p then none else m.live p

/-- A context that is active afterwards is another one. -/
theorem Destroyed.context (h : Destroyed m ctxId i m') {j : CtxSlot}
    (hj : (m'.contexts j).active = true) : j ≠ i ∧ m'.contexts j = m.contexts j := by
  rw [h.contexts] at hj ⊢
  by_cases hji : j = i
  · rw [hji, update_self] at hj
    cases hj
  · exact ⟨hji, update_of_ne hji _ _⟩

/-- `memctx_destroy` of a context whose entries can be freed. -/
theorem Freeable.memctxDestroy (h : Freeable m ctxId) (hi : findCtx m ctxId = some i) :
    ∃ m', memctxDestroy m ctxId = some (true, m') ∧ Destroyed m ctxId i m' := by
  obtain ⟨m₁, hfree, he⟩ := freeBlocks_spec (List.finRange 128) h
  refine ⟨m₁.setCtx i Memctx.zero, ?_, ?_, he.nextCtxId, fun b => ?_, fun p => ?_⟩
  · unfold Proc.memctxDestroy
    rw [hi]
    dsimp only
    rw [hfree]
    rfl
  · show update m₁.contexts i Memctx.zero = _
    rw [he.contexts]
  · refine (he.blocks b).trans (if_congr ?_ rfl rfl)
    simp
  · refine (he.live p).trans (if_congr ?_ rfl rfl)
    simp

/-- `memctx_destroy` never panics: it answers `-1` and changes nothing, or it clears the
context and all its entries. -/
theorem Freeable.memctxDestroy_cases (h : Freeable m ctxId) :
    Proc.memctxDestroy m ctxId = some (false, m) ∨
      ∃ i m', findCtx m ctxId = some i ∧ Destroyed m ctxId i m' ∧
        Proc.memctxDestroy m ctxId = some (true, m') := by
  cases hi : findCtx m ctxId with
  | none =>
    left
    unfold Proc.memctxDestroy
    rw [hi]
  | some i =>
    obtain ⟨m', heq, hd⟩ := h.memctxDestroy hi
    exact .inr ⟨i, m', rfl, hd, heq⟩

end Calls

/-! ## §3. Each call keeps the link. -/

section Keep

variable {m m' : MemctxState} {ctxId : ℤ} {i : CtxSlot} {b : BlockSlot}

theorem opened_context (m : MemctxState) (i j : CtxSlot) (ownerPid : ℤ) (quota : ℕ) :
    (opened m i ownerPid quota).contexts j =
      if j = i then ⟨true, m.nextCtxId, ownerPid, ⟨quota, 0, 0, 0⟩⟩ else m.contexts j :=
  update_apply ..

/-- **`memctx_create`**, with a counter that has not wrapped. -/
theorem BlocksOk.create (h : BlocksOk m) (hi : (m.contexts i).active = false)
    (hnext : 0 < m.nextCtxId) (ownerPid : ℤ) (quota : ℕ) :
    BlocksOk (opened m i ownerPid quota) := by
  -- an active context other than the new one was active before
  have hold : ∀ {j}, j ≠ i → ((opened m i ownerPid quota).contexts j) = m.contexts j := by
    intro j hj
    rw [opened_context, if_neg hj]
  have hnew : (opened m i ownerPid quota).contexts i =
      ⟨true, m.nextCtxId, ownerPid, ⟨quota, 0, 0, 0⟩⟩ := by
    rw [opened_context, if_pos rfl]
  refine ⟨fun b => (h.entry b).imp_right fun he => ?_, h.apart, toInt_lt _, fun j hj => ?_,
    fun j k hj hk hjk => ?_⟩
  · obtain ⟨j, hj, hjb⟩ := he.owned
    have hne : j ≠ i := by
      intro he
      rw [he, hi] at hj
      cases hj
    refine ⟨he.ptr, ⟨j, ?_⟩, he.backed⟩
    rw [hold hne]
    exact ⟨hj, hjb⟩
  · -- the counter went up by one: it did not wrap, or it would be negative
    have hlt : 0 < (opened m i ownerPid quota).nextCtxId →
        m.nextCtxId < (opened m i ownerPid quota).nextCtxId := by
      intro hpos
      have hsucc : (opened m i ownerPid quota).nextCtxId = toInt (m.nextCtxId + 1) := rfl
      rcases toInt_succ hnext.le h.word with ⟨-, he⟩ | ⟨-, he⟩ <;> omega
    by_cases hji : j = i
    · subst hji
      rw [hnew]
      exact ⟨hnext, hlt⟩
    · rw [hold hji] at hj ⊢
      exact ⟨(h.ids j hj).1, fun hpos => ((h.ids j hj).2 hnext).trans (hlt hpos)⟩
  · refine distinct_write (·.active = true) Memctx.id i h.distinct (fun j hj => hold hj) (fun _ j _ hj => ?_)
      j k hj hk hjk
    rw [hnew]
    exact ((h.ids j hj).2 hnext).ne

/-- Only statistics changed. -/
structure SameContexts (m m' : MemctxState) : Prop where
  active : ∀ i, (m'.contexts i).active = (m.contexts i).active
  id : ∀ i, (m'.contexts i).id = (m.contexts i).id
  nextCtxId : m'.nextCtxId = m.nextCtxId

theorem SameContexts.of_stats {st : MemctxStats}
    (h : m'.contexts = update m.contexts i { m.contexts i with stats := st })
    (hnext : m'.nextCtxId = m.nextCtxId) : SameContexts m m' := by
  have hsame : ∀ j, (m'.contexts j).active = (m.contexts j).active ∧
      (m'.contexts j).id = (m.contexts j).id := by
    intro j
    rw [h]
    by_cases hj : j = i
    · subst hj
      simp
    · simp [hj]
  exact ⟨fun j => (hsame j).1, fun j => (hsame j).2, hnext⟩

theorem SameContexts.owned (h : SameContexts m m') {x : ℤ}
    (hx : ∃ i, (m.contexts i).active = true ∧ (m.contexts i).id = x) :
    ∃ i, (m'.contexts i).active = true ∧ (m'.contexts i).id = x := by
  obtain ⟨i, hi, hid⟩ := hx
  exact ⟨i, (h.active i).trans hi, (h.id i).trans hid⟩

/-- Every context in use is an old one. -/
def OldContexts (m m' : MemctxState) : Prop :=
  m'.nextCtxId = m.nextCtxId ∧ ∀ i, (m'.contexts i).active = true →
    (m.contexts i).active = true ∧ (m'.contexts i).id = (m.contexts i).id

theorem SameContexts.old (h : SameContexts m m') : OldContexts m m' :=
  ⟨h.nextCtxId, fun i hi => ⟨(h.active i).symm.trans hi, h.id i⟩⟩

section

variable (h : BlocksOk m)
include h

/-- The part of the link that is about contexts alone. -/
theorem BlocksOk.of_old (hs : OldContexts m m')
    (hentry : ∀ b, m'.blocks b = MemctxBlock.zero ∨ EntryOk m' (m'.blocks b))
    (hapart : ∀ b b', (m'.blocks b).ptr ≠ 0 → (m'.blocks b).ptr = (m'.blocks b').ptr → b = b') :
    BlocksOk m' := by
  obtain ⟨hnext, hold⟩ := hs
  refine ⟨hentry, hapart, ?_, fun i hi => ?_, fun i j hi hj hij => ?_⟩
  · rw [hnext]
    exact h.word
  · rw [hnext, (hold i hi).2]
    exact h.ids i (hold i hi).1
  · rw [(hold i hi).2, (hold j hj).2] at hij
    exact h.distinct i j (hold i hi).1 (hold j hj).1 hij

/-- **`memctx_alloc`**, when the heap's answer is a pointer that is not live. -/
theorem BlocksOk.alloc {ptr : ℕ} (size : ℕ) (hi : findCtx m ctxId = some i)
    (hptr : ptr ≠ 0) (hfresh : m.live ptr = none) : BlocksOk (noteBlock m i b ctxId ptr size) := by
  -- no entry of the table has the new pointer
  have hother : ∀ {x}, EntryOk m x → x.ptr ≠ ptr := by
    intro x hx he
    have hlive := hx.backed
    rw [he, hfresh] at hlive
    cases hlive
  have hs : SameContexts m (noteBlock m i b ctxId ptr size) := .of_stats rfl rfl
  refine h.of_old hs.old (fun b' => ?_) fun b₁ b₂ h₁ h₁₂ => ?_
  · rw [noteBlock_block]
    split
    · exact .inr ⟨hptr, hs.owned ⟨i, findCtx_some hi⟩, update_self ..⟩
    · refine (h.entry b').imp_right fun he => ⟨he.ptr, hs.owned he.owned, ?_⟩
      exact (update_of_ne (hother he) _ _).trans he.backed
  · refine distinct_write (·.ptr ≠ 0) MemctxBlock.ptr b (fun j k hj _ => h.apart j k hj)
      (fun j hj => ?_) (fun _ j _ hj => ?_) b₁ b₂ h₁ (by rwa [← h₁₂]) h₁₂
    · rw [noteBlock_block, if_neg hj]
    · rw [noteBlock_block, if_pos rfl]
      exact hother (h.inUse hj)

/-- Entries were cleared, and the others stay as sound as they were. -/
theorem BlocksOk.of_cleared (hs : OldContexts m m')
    (hblock : ∀ b, m'.blocks b = MemctxBlock.zero ∨ (m'.blocks b = m.blocks b ∧
      (EntryOk m (m.blocks b) → EntryOk m' (m.blocks b)))) : BlocksOk m' := by
  -- an entry still in use is an old one
  have hold : ∀ {b}, (m'.blocks b).ptr ≠ 0 → m'.blocks b = m.blocks b := fun {b} hb =>
    ((hblock b).resolve_left fun he => hb (by rw [he]; rfl)).1
  refine h.of_old hs (fun b => ?_) fun b₁ b₂ h₁ h₁₂ => ?_
  · obtain he | ⟨he, hok⟩ := hblock b
    · exact .inl he
    · rw [he]
      exact (h.entry b).imp_right hok
  · have h₂ : (m'.blocks b₂).ptr ≠ 0 := by
      rw [← h₁₂]
      exact h₁
    rw [hold h₁, hold h₂] at h₁₂
    rw [hold h₁] at h₁
    exact h.apart b₁ b₂ h₁ h₁₂

/-- **`memctx_free`.** -/
theorem BlocksOk.free (i : CtxSlot) (b : BlockSlot) : BlocksOk (released m i b) := by
  have hs : SameContexts m (released m i b) := .of_stats rfl rfl
  refine h.of_cleared hs.old fun b' => ?_
  by_cases hbb : b' = b
  · rw [hbb]
    exact .inl (update_self _ _ _)
  · refine .inr ⟨update_of_ne hbb _ _, fun he => ⟨he.ptr, hs.owned he.owned, ?_⟩⟩
    exact (update_of_ne (fun heq => hbb (h.apart b' b he.ptr heq)) _ _).trans he.backed

/-- **`memctx_destroy`**: the context goes with its entries, so none is left without one. -/
theorem BlocksOk.destroy (hi : findCtx m ctxId = some i) (hd : Destroyed m ctxId i m') :
    BlocksOk m' := by
  refine h.of_cleared ⟨hd.nextCtxId, fun j hj => ?_⟩ fun b => ?_
  · obtain ⟨-, he⟩ := hd.context hj
    rw [he] at hj ⊢
    exact ⟨hj, rfl⟩
  rw [hd.blocks b]
  by_cases hb : m.Carries ctxId b
  · exact .inl (if_pos hb)
  rw [if_neg hb]
  refine .inr ⟨rfl, fun he => ⟨he.ptr, ?_, ?_⟩⟩
  · -- an entry with this id would have been cleared
    obtain ⟨j, hj, hjb⟩ := he.owned
    have hji : j ≠ i := by
      intro he'
      rw [he', (findCtx_some hi).2] at hjb
      exact hb ⟨he.ptr, hjb.symm⟩
    refine ⟨j, ?_⟩
    rw [hd.contexts, update_of_ne hji]
    exact ⟨hj, hjb⟩
  · rw [hd.live, if_neg]
    · exact he.backed
    · rintro ⟨b₁, hc, heq⟩
      rw [h.apart b₁ b hc.1 heq] at hc
      exact hb hc

end

end Keep

end ExoCore.Proc
