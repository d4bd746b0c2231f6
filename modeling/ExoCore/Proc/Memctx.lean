/-
  ExoCore.Proc.Memctx — the memory contexts of `kernel/memctx.c`.

  The two static tables and the counter `next_ctx_id`, a C `int` that wraps.  The
  heap behind them is taken by its contract: `mem_alloc` is the environment's answer
  (`0` for `NULL`), `live` maps every pointer it has handed out and not got back to
  the size asked for, and `mem_free` of anything else, or with too large a size,
  panics.
-/
import ExoCore.Lib.Word
import ExoCore.Lib.Run
import Mathlib.Data.List.FinRange

namespace ExoCore.Proc

open ExoCore.Lib Function

/-! ## §1. The tables. -/

/-- An index into `contexts` (`MEMCTX_MAX_CONTEXTS` is 32). -/
abbrev CtxSlot := Fin 32

/-- There is a context `0`. -/
scoped instance neZero_contexts : NeZero 32 := ⟨by decide⟩

/-- An index into `blocks` (`MEMCTX_MAX_BLOCKS` is 128). -/
abbrev BlockSlot := Fin 128

/-- `memctx_stats_t`. -/
structure MemctxStats where
  quota : ℕ
  used : ℕ
  peak : ℕ
  allocations : ℕ
  deriving Repr, DecidableEq

/-- `memctx_t`. -/
structure Memctx where
  active : Bool
  id : ℤ
  ownerPid : ℤ
  stats : MemctxStats
  deriving Repr, DecidableEq

/-- A slot after `memset(ctx, 0, sizeof(*ctx))`. -/
def Memctx.zero : Memctx := ⟨false, 0, 0, ⟨0, 0, 0, 0⟩⟩

/-- `memctx_block_t`. -/
structure MemctxBlock where
  ptr : ℕ
  size : ℕ
  ctxId : ℤ
  deriving Repr, DecidableEq

def MemctxBlock.zero : MemctxBlock := ⟨0, 0, 0⟩

/-- The statics of `memctx.c`, and the heap blocks that are live. -/
structure MemctxState where
  contexts : CtxSlot → Memctx
  blocks : BlockSlot → MemctxBlock
  nextCtxId : ℤ
  live : ℕ → Option ℕ

/-- `contexts[i] = c`. -/
def MemctxState.setCtx (m : MemctxState) (i : CtxSlot) (c : Memctx) : MemctxState :=
  { m with contexts := update m.contexts i c }

/-- `blocks[i] = b`. -/
def MemctxState.setBlock (m : MemctxState) (i : BlockSlot) (b : MemctxBlock) : MemctxState :=
  { m with blocks := update m.blocks i b }

/-! ## §2. The heap, by its contract. -/

/-- The environment's answers to `mem_alloc(size)`: a pointer, `0` for `NULL`. -/
abbrev HeapAlloc := ℕ → ℕ

/-- `mem_free(ptr, size)`: `none` when it panics. -/
def heapFree (m : MemctxState) (ptr size : ℕ) : Option MemctxState :=
  match m.live ptr with
  | none => none
  | some n =>
    if n < size then none else some { m with live := update m.live ptr none }

/-! ## §3. The functions. -/

/-- `find_ctx`. -/
def findCtx (m : MemctxState) (ctxId : ℤ) : Option CtxSlot :=
  (List.finRange 32).find? fun i => (m.contexts i).active && (m.contexts i).id == ctxId

/-- `find_block`. -/
def findBlock (m : MemctxState) (ctxId : ℤ) (ptr : ℕ) : Option BlockSlot :=
  (List.finRange 128).find? fun i => (m.blocks i).ptr == ptr && (m.blocks i).ctxId == ctxId

/-- `memctx_init`. -/
def memctxInit (m : MemctxState) : MemctxState :=
  { m with contexts := fun _ => Memctx.zero, blocks := fun _ => MemctxBlock.zero, nextCtxId := 1 }

/-- The first inactive context. -/
def freeCtx (m : MemctxState) : Option CtxSlot :=
  (List.finRange 32).find? fun i => !(m.contexts i).active

/-- `memctx_create`. -/
def memctxCreate (m : MemctxState) (ownerPid : ℤ) (quota : ℕ) : ℤ × MemctxState :=
  match freeCtx m with
  | none => (-1, m)
  | some i =>
    (m.nextCtxId,
      { m.setCtx i ⟨true, m.nextCtxId, ownerPid, ⟨quota, 0, 0, 0⟩⟩ with
        nextCtxId := toInt (m.nextCtxId + 1) })

/-- The end of `memctx_alloc`: enter the block and count it. -/
def noteBlock (m : MemctxState) (i : CtxSlot) (slot : BlockSlot) (ctxId : ℤ) (ptr size : ℕ) :
    MemctxState :=
  let st := (m.contexts i).stats
  let used := add64 st.used size
  let m := m.setBlock slot ⟨ptr, size, ctxId⟩
  { m.setCtx i { m.contexts i with
      stats := ⟨st.quota, used, if st.peak < used then used else st.peak,
        (st.allocations + 1) % 2 ^ 32⟩ } with
    live := update m.live ptr (some size) }

/-- `memctx_alloc`: the pointer, `0` for `NULL`. -/
def memctxAlloc (alloc : HeapAlloc) (m : MemctxState) (ctxId : ℤ) (size : ℕ) : ℕ × MemctxState :=
  if size = 0 then (0, m)
  else
    match findCtx m ctxId with
    | none => (0, m)
    | some i =>
      let st := (m.contexts i).stats
      if st.quota ≠ 0 ∧ st.quota < add64 st.used size then (0, m)
      else
        match (List.finRange 128).find? fun b => (m.blocks b).ptr == 0 with
        | none => (0, m)
        | some slot =>
          let ptr := alloc size
          if ptr = 0 then (0, m) else (ptr, noteBlock m i slot ctxId ptr size)

/-- What `memctx_free` does to the statistics. -/
def MemctxStats.release (st : MemctxStats) (size : ℕ) : MemctxStats :=
  { st with
    used := if size ≤ st.used then st.used - size else st.used
    allocations := if st.allocations ≠ 0 then st.allocations - 1 else 0 }

/-- `memctx_free`: `none` when `mem_free` panics. -/
def memctxFree (m : MemctxState) (ctxId : ℤ) (ptr : ℕ) : Option (Bool × MemctxState) :=
  if ptr = 0 then some (false, m)
  else
    match findCtx m ctxId, findBlock m ctxId ptr with
    | some i, some b =>
      let size := (m.blocks b).size
      (heapFree m ptr size).map fun m =>
        (true, (m.setCtx i { m.contexts i with
          stats := (m.contexts i).stats.release size }).setBlock b MemctxBlock.zero)
    | _, _ => some (false, m)

/-- `memctx_stats`. -/
def memctxStats (m : MemctxState) (ctxId : ℤ) : Option MemctxStats :=
  (findCtx m ctxId).map fun i => (m.contexts i).stats

/-- The loop of `memctx_destroy` over the given slots. -/
def freeBlocks (ctxId : ℤ) : List BlockSlot → MemctxState → Option MemctxState
  | [], m => some m
  | b :: rest, m =>
    if (m.blocks b).ptr ≠ 0 ∧ (m.blocks b).ctxId = ctxId then
      (heapFree m (m.blocks b).ptr (m.blocks b).size).bind fun m =>
        freeBlocks ctxId rest (m.setBlock b MemctxBlock.zero)
    else freeBlocks ctxId rest m

/-- `memctx_destroy`: `none` when `mem_free` panics. -/
def memctxDestroy (m : MemctxState) (ctxId : ℤ) : Option (Bool × MemctxState) :=
  match findCtx m ctxId with
  | none => some (false, m)
  | some i =>
    (freeBlocks ctxId (List.finRange 128) m).map fun m => (true, m.setCtx i Memctx.zero)

/-! ## §4. What the functions do to the contexts. -/

section Contexts

variable {m m' : MemctxState} {i : CtxSlot}

theorem findCtx_some {ctxId : ℤ} (h : findCtx m ctxId = some i) :
    (m.contexts i).active = true ∧ (m.contexts i).id = ctxId := by
  have hi := List.find?_some h
  simpa using hi

theorem freeCtx_some (h : freeCtx m = some i) : (m.contexts i).active = false := by
  have hi := List.find?_some h
  simpa using hi

theorem freeCtx_none (h : freeCtx m = none) (i : CtxSlot) : (m.contexts i).active = true := by
  have hi := List.find?_eq_none.mp h i (List.mem_finRange i)
  simpa using hi

/-- The state after `memctx_create` took the slot `i`. -/
def opened (m : MemctxState) (i : CtxSlot) (ownerPid : ℤ) (quota : ℕ) : MemctxState :=
  { m.setCtx i ⟨true, m.nextCtxId, ownerPid, ⟨quota, 0, 0, 0⟩⟩ with
    nextCtxId := toInt (m.nextCtxId + 1) }

theorem memctxCreate_cases (m : MemctxState) (ownerPid : ℤ) (quota : ℕ) :
    (freeCtx m = none ∧ memctxCreate m ownerPid quota = (-1, m)) ∨
      ∃ i, freeCtx m = some i ∧
        memctxCreate m ownerPid quota = (m.nextCtxId, opened m i ownerPid quota) := by
  unfold memctxCreate
  cases hfree : freeCtx m with
  | none => exact .inl ⟨rfl, rfl⟩
  | some i => exact .inr ⟨i, rfl, rfl⟩

theorem memctxCreate_free (hc : freeCtx m = some i) (ownerPid : ℤ) (quota : ℕ) :
    memctxCreate m ownerPid quota = (m.nextCtxId, opened m i ownerPid quota) := by
  unfold memctxCreate
  rw [hc]
  rfl

theorem heapFree_contexts {ptr size : ℕ} (h : heapFree m ptr size = some m') :
    m'.contexts = m.contexts ∧ m'.nextCtxId = m.nextCtxId := by
  unfold heapFree at h
  split at h
  · cases h
  split at h
  · cases h
  · cases h
    exact ⟨rfl, rfl⟩

theorem freeBlocks_contexts {ctxId : ℤ} : ∀ (l : List BlockSlot) {m m' : MemctxState},
    freeBlocks ctxId l m = some m' → m'.contexts = m.contexts ∧ m'.nextCtxId = m.nextCtxId := by
  intro l
  induction l with
  | nil =>
    intro m m' h
    cases h
    exact ⟨rfl, rfl⟩
  | cons b l ih =>
    intro m m' h
    unfold freeBlocks at h
    split at h
    · obtain ⟨m₁, hfree, hrest⟩ := Option.bind_eq_some_iff.mp h
      obtain ⟨h1, h2⟩ := heapFree_contexts hfree
      obtain ⟨h3, h4⟩ := ih hrest
      exact ⟨h3.trans h1, h4.trans h2⟩
    · exact ih h

/-- `memctx_destroy` clears one active context with the given id, if there is one. -/
theorem memctxDestroy_contexts {ctxId : ℤ} {b : Bool} (h : memctxDestroy m ctxId = some (b, m')) :
    m'.nextCtxId = m.nextCtxId ∧
      ((findCtx m ctxId = none ∧ m'.contexts = m.contexts) ∨
        ∃ i, findCtx m ctxId = some i ∧
          m'.contexts = update m.contexts i Memctx.zero) := by
  unfold memctxDestroy at h
  split at h
  · rename_i hnone
    cases h
    exact ⟨rfl, .inl ⟨hnone, rfl⟩⟩
  · rename_i i hi
    obtain ⟨m₁, hfree, heq⟩ := Option.map_eq_some_iff.mp h
    obtain ⟨h1, h2⟩ := freeBlocks_contexts _ hfree
    cases heq
    refine ⟨h2, .inr ⟨i, hi, ?_⟩⟩
    show update m₁.contexts i Memctx.zero = _
    rw [h1]

end Contexts

end ExoCore.Proc
