/-
  ExoCore.Mem.Apps — the application records of `kernel/mem.c` and its statistics.

  `apps` is a table of 16 records next to the heap: `mem_register_app` takes the
  first record whose `id` is 0, `mem_alloc_app` and `mem_save_app` look for the
  FIRST record with the id they are given.  An id of 0 therefore finds a record
  nobody registered.

  `mem_get_info` reports a running counter (`heap_used_bytes`) next to a figure it
  recomputes from the bump pointers and the free list (`mem_heap_free`).

  The model leaves out the VRAM locks, which share no state with the heap.
-/
import ExoCore.Mem.Alloc
import Mathlib.Data.List.FinRange

namespace ExoCore.Mem

open ExoCore.Lib Function

/-! ## §1. The records. -/

/-- One of the records of `apps[MAX_APPS]`. -/
abbrev AppSlot := Fin 16

/-- An element of `blocks[16]`. -/
structure AppBlock where
  addr : ℕ
  size : ℕ
  deriving Repr, DecidableEq

/-- `app_mem_t`; `used` is 32 bits wide. -/
structure AppMem where
  id : ℤ
  priority : UInt8
  base : ℕ
  used : ℕ
  blocks : Fin 16 → AppBlock
  blockCount : ℕ

/-- The record `mem_init` leaves in every slot. -/
def emptyApp : AppMem where
  id := 0
  priority := 0
  base := 0
  used := 0
  blocks := fun _ => ⟨0, 0⟩
  blockCount := 0

/-- The statics of `mem.c`: the heap, the records and `next_id`. -/
structure MemState where
  heap : Heap
  apps : AppSlot → AppMem
  nextId : ℤ

/-- `mem_init` clears the records; `next_id` keeps its value. -/
def memInitApps (heap : Heap) (nextId : ℤ) : MemState where
  heap := heap
  apps := fun _ => emptyApp
  nextId := nextId

/-- The loop `for i … if (apps[i].id == app_id)`. -/
def findApp (m : MemState) (appId : ℤ) : Option AppSlot :=
  (List.finRange 16).find? fun i => (m.apps i).id == appId

/-- `apps[i] = a`. -/
def MemState.setApp (m : MemState) (i : AppSlot) (a : AppMem) : MemState :=
  { m with apps := update m.apps i a }

theorem setApp_self (m : MemState) (i : AppSlot) (a : AppMem) : (m.setApp i a).apps i = a := by
  show update m.apps i a i = a
  rw [update_self]

theorem setApp_of_ne {m : MemState} {i j : AppSlot} {a : AppMem} (h : j ≠ i) :
    (m.setApp i a).apps j = m.apps j := by
  show update m.apps i a j = m.apps j
  rw [update_of_ne h]

/-! ## §2. The calls. -/

/-- `mem_register_app(priority)`: the new id, or `-1` when every record is taken. -/
def memRegisterApp (m : MemState) (priority : UInt8) : ℤ × MemState :=
  match findApp m 0 with
  | none => (-1, m)
  | some i =>
    (m.nextId, { m.setApp i { emptyApp with id := m.nextId, priority := priority } with
      nextId := toInt (m.nextId + 1) })

/-- The record after `mem_alloc_app`: the first block becomes `base`, and `used` grows. -/
def chargeApp (a : AppMem) (addr size : ℕ) : AppMem :=
  { a with
    base := if a.base = 0 then addr else a.base
    used := (a.used + size) % 2 ^ 32 }

/-- `mem_alloc_app(app_id, size)`: allocate first, then look for the record; without one
the block goes back. -/
def memAllocApp (fuel : ℕ) (m : MemState) (appId : ℤ) (size : ℕ) : Except Halt (ℕ × MemState) :=
  let size := roundUp64 3 size
  match memAlloc fuel m.heap size with
  | .error e => .error e
  | .ok (addr, heap) =>
    let m := { m with heap := heap }
    if addr = 0 then .ok (0, m)
    else
      match findApp m appId with
      | some i =>
        .ok (addr, m.setApp i (chargeApp (m.apps i) addr size))
      | none =>
        match memFree fuel m.heap addr size with
        | .error e => .error e
        | .ok heap => .ok (0, { m with heap := heap })

/-- `mem_app_used(app_id)`. -/
def memAppUsed (m : MemState) (appId : ℤ) : ℕ :=
  match findApp m appId with
  | some i => (m.apps i).used
  | none => 0

/-- `memcpy(dst, data, n)` into the memory; addresses wrap. -/
def Heap.copyIn (s : Heap) (dst : ℕ) (data : ℕ → UInt8) (n : ℕ) : Heap :=
  { s with mem := fun i => if i < 2 ^ 64 ∧ sub64 i dst < n then data (sub64 i dst) else s.mem i }

/-- `blocks[block_count++] = blk`. -/
def recordBlock (a : AppMem) (blk : AppBlock) : AppMem :=
  { a with
    blocks := fun k => if k.val = a.blockCount then blk else a.blocks k
    blockCount := a.blockCount + 1 }

/-- `mem_save_app(app_id, data, size)`: the handle, or `-1`. -/
def memSaveApp (fuel : ℕ) (m : MemState) (appId : ℤ) (data : ℕ → UInt8) (size : ℕ) :
    Except Halt (ℤ × MemState) :=
  match findApp m appId with
  | none => .ok (-1, m)
  | some i =>
    if 16 ≤ (m.apps i).blockCount then .ok (-1, m)
    else
      match memAllocApp fuel m appId size with
      | .error e => .error e
      | .ok (dst, m) =>
        if dst = 0 then .ok (-1, m)
        else
          let m := { m with heap := m.heap.copyIn dst data size }
          .ok ((m.apps i).blockCount, m.setApp i (recordBlock (m.apps i) ⟨dst, size⟩))

/-- `mem_retrieve_app(app_id, handle, &size)`: address and size, `none` for `NULL`.
`block_count` never passes 16, so the last test only bounds the index. -/
def memRetrieveApp (m : MemState) (appId handle : ℤ) : Option AppBlock :=
  match findApp m appId with
  | none => none
  | some i =>
    if h : 0 ≤ handle ∧ handle < (m.apps i).blockCount ∧ handle < 16 then
      some ((m.apps i).blocks ⟨handle.toNat, by omega⟩)
    else none

/-! ## §3. The statistics. -/

/-- The loop of `mem_heap_free` over the free list. -/
def freeBytesLoop (s : Heap) : ℕ → ℕ → ℕ → Except Halt ℕ
  | 0, _, _ => .error .fuel
  | fuel + 1, blk, freeBytes =>
    if blk = 0 then .ok freeBytes
    else freeBytesLoop s fuel (s.get blk .next) (add64 freeBytes (s.get blk .totalSize))

/-- `mem_heap_free()`: the uncarved rest of both regions and the free list. -/
def memHeapFree (fuel : ℕ) (s : Heap) : Except Halt ℕ :=
  let freeBytes := sub64 s.heapCommittedEnd s.heapPtr
  let freeBytes := add64 freeBytes (sub64 sizeofSwapSpace (sub64 s.swapPtr s.swapSpace))
  freeBytesLoop s fuel s.freeList freeBytes

/-- `mem_info_t`. -/
structure MemInfo where
  heapUsed : ℕ
  heapFree : ℕ
  heapCommitted : ℕ
  heapMax : ℕ
  growCount : ℕ
  allocFailCount : ℕ
  deriving Repr, DecidableEq

/-- `mem_get_info(info)` for a non-null `info`. -/
def memGetInfo (fuel : ℕ) (s : Heap) : Except Halt MemInfo :=
  match memHeapFree fuel s with
  | .error e => .error e
  | .ok heapFree => .ok
    { heapUsed := s.heapUsedBytes
      heapFree := heapFree
      heapCommitted := sub64 s.heapCommittedEnd s.heapStart
      heapMax := sub64 s.heapMaxEnd s.heapStart
      growCount := s.heapGrowCount
      allocFailCount := s.heapAllocFailCount }

end ExoCore.Mem
