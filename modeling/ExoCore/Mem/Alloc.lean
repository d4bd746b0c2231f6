/-
  ExoCore.Mem.Alloc — the allocator of `kernel/mem.c`, function by function.

  Sizes and pointers are 64-bit words with explicit wrapping (`add64`, `sub64`,
  `roundUp64`).  A `while` over the free list carries FUEL: on a damaged list the
  source would not come back, and the model then answers `Halt.fuel`.  `panic`
  is the other way a call does not return.

  Console output is left out; it reads the state and changes none of it.
-/
import ExoCore.Mem.Block
import ExoCore.Lib.Run

namespace ExoCore.Mem

open ExoCore.Lib

/-- The ways a call does not return. -/
inductive Halt where
  /-- `panic(msg)`. -/
  | panic (msg : String)
  /-- A loop that did not end within the given fuel. -/
  | fuel
  deriving Repr, DecidableEq

/-! ## §1. `mem_init`. -/

/-- `mem_init` on memory `mem`, with `swap_space` linked at `swapSpace`. -/
def memInit (mem : Bytes) (swapSpace : ℕ) (debugMode : Bool) (heapStartAddr heapSize : ℕ) :
    Heap :=
  let heapCommittedEnd := add64 heapStartAddr heapSize
  let heapMaxEnd := add64 heapStartAddr kernelHeapMaxSize
  { mem := mem
    heapStart := heapStartAddr
    heapPtr := heapStartAddr
    heapCommittedEnd := heapCommittedEnd
    heapMaxEnd := if heapMaxEnd < heapCommittedEnd then heapCommittedEnd else heapMaxEnd
    heapUsedBytes := 0
    heapGrowCount := 0
    heapAllocFailCount := 0
    swapSpace := swapSpace
    swapPtr := swapSpace
    freeList := 0
    debugMode := debugMode }

/-! ## §2. Taking a block from the free list. -/

/-- `split_block`: the first `totalNeeded` bytes of `blk` become the allocation,
the rest (when a header and 8 bytes fit) replaces `blk` in the list; `prev` is
the link that points to `blk`. -/
def splitBlock (s : Heap) (blk totalNeeded : ℕ) (prev : Link) : Heap :=
  let available := s.get blk .totalSize
  let s :=
    if add64 (add64 totalNeeded sizeofMemBlock) 8 ≤ available then
      let remainder := add64 blk totalNeeded
      let s := s.set remainder .totalSize (sub64 available totalNeeded)
      let s := s.set remainder .userSize (sub64 (s.get remainder .totalSize) sizeofMemBlock)
      let s := s.set remainder .guard memGuardFreed
      let s := s.set remainder .fromSwap (s.get blk .fromSwap)
      let s := s.set remainder .next (s.get blk .next)
      let s := s.set blk .totalSize totalNeeded
      let s := s.set blk .userSize (sub64 totalNeeded sizeofMemBlock)
      let s := s.set blk .next 0
      s.setLink prev remainder
    else
      s.setLink prev (s.get blk .next)
  let s := s.set blk .guard memGuardActive
  s.set blk .next 0

/-- `!best_blk || blk->total_size < best_blk->total_size`. -/
def beatsBest (s : Heap) (blk : ℕ) : Option (Link × ℕ) → Bool
  | none => true
  | some (_, bestBlk) => decide (s.get blk .totalSize < s.get bestBlk .totalSize)

/-- The search loop of `acquire_from_free_list`: `best` is the pair
`best_prev`, `best_blk` (`none` while `best_blk` is `NULL`). -/
def acquireLoop (s : Heap) (total : ℕ) :
    ℕ → Link → ℕ → Option (Link × ℕ) → Except Halt (Option (Link × ℕ))
  | 0, _, _, _ => .error .fuel
  | fuel + 1, prev, blk, best =>
    if blk = 0 then .ok best
    else if total ≤ s.get blk .totalSize ∧ beatsBest s blk best then
      -- an exact fit breaks out of the loop
      if s.get blk .totalSize = total then .ok (some (prev, blk))
      else acquireLoop s total fuel (.next blk) (s.get blk .next) (some (prev, blk))
    else acquireLoop s total fuel (.next blk) (s.get blk .next) best

/-- `acquire_from_free_list`: best fit; `0` when no block is large enough. -/
def acquireFromFreeList (fuel : ℕ) (s : Heap) (total : ℕ) : Except Halt (ℕ × Heap) :=
  match acquireLoop s total fuel .head s.freeList none with
  | .error e => .error e
  | .ok none => .ok (0, s)
  | .ok (some (bestPrev, bestBlk)) => .ok (bestBlk, splitBlock s bestBlk total bestPrev)

/-! ## §3. Carving a fresh block. -/

/-- The two bump pointers `fresh_block` is called with. -/
inductive Cursor where
  | heap
  | swap
  deriving Repr, DecidableEq

/-- `*cursor`. -/
def Heap.cursor (s : Heap) : Cursor → ℕ
  | .heap => s.heapPtr
  | .swap => s.swapPtr

/-- `*cursor = v`. -/
def Heap.setCursor (s : Heap) (c : Cursor) (v : ℕ) : Heap :=
  match c with
  | .heap => { s with heapPtr := v }
  | .swap => { s with swapPtr := v }

/-- `fresh_block(cursor, limit, total)`. -/
def freshBlock (s : Heap) (cursor : Cursor) (limit total : ℕ) : ℕ × Heap :=
  if limit < add64 (s.cursor cursor) total then (0, s)
  else
    let blk := s.cursor cursor
    let s := s.setCursor cursor (add64 blk total)
    let s := s.set blk .totalSize total
    let s := s.set blk .userSize (sub64 total sizeofMemBlock)
    let s := s.set blk .guard memGuardActive
    let s := s.set blk .next 0
    let s := s.set blk .fromSwap (if limit = s.swapEnd then 1 else 0)
    (blk, s)

/-- The growth step of `mem_alloc`: commit whole pages up to `heap_max_end`. -/
def growHeap (s : Heap) (total : ℕ) : Heap :=
  if s.heapCommittedEnd < add64 s.heapPtr total then
    let need := sub64 (add64 s.heapPtr total) s.heapCommittedEnd
    let grow := roundUp64 12 need
    if add64 s.heapCommittedEnd grow ≤ s.heapMaxEnd then
      { s with
        heapCommittedEnd := add64 s.heapCommittedEnd grow
        heapGrowCount := add64 s.heapGrowCount 1 }
    else s
  else s

/-! ## §4. `mem_alloc`. -/

/-- The block total of a request: header plus size, rounded up to 8. -/
def blockTotal (size : ℕ) : ℕ := roundUp64 3 (add64 sizeofMemBlock (roundUp64 3 size))

/-- The part of `mem_alloc` after the free-list search: grow and carve from the
heap, else from swap; `blk = 0` while nothing was found. -/
def carveBlock (s : Heap) (blk total : ℕ) : ℕ × Heap :=
  let (blk, s) :=
    if blk = 0 then
      let s := growHeap s total
      freshBlock s .heap s.heapCommittedEnd total
    else (blk, s)
  if blk = 0 then freshBlock s .swap s.swapEnd total else (blk, s)

/-- The end of `mem_alloc`: count the failure, or count the bytes and return the
address after the header. -/
def tallyAlloc (blk : ℕ) (s : Heap) : ℕ × Heap :=
  if blk = 0 then (0, { s with heapAllocFailCount := add64 s.heapAllocFailCount 1 })
  else (add64 blk sizeofMemBlock,
    { s with heapUsedBytes := add64 s.heapUsedBytes (s.get blk .userSize) })

/-- `mem_alloc(size)`: the user pointer (`0` for `NULL`) and the new state. -/
def memAlloc (fuel : ℕ) (s : Heap) (size : ℕ) : Except Halt (ℕ × Heap) :=
  let total := blockTotal size
  match acquireFromFreeList fuel s total with
  | .error e => .error e
  | .ok (blk, s) =>
    let (blk, s) := carveBlock s blk total
    .ok (tallyAlloc blk s)

/-! ## §5. `mem_free`. -/

/-- `ptr_in_region(ptr, start, end)`. -/
def ptrInRegion (ptr start stop : ℕ) : Bool := decide (start ≤ ptr) && decide (ptr < stop)

def sameBackingRegion (s : Heap) (a b : ℕ) : Bool :=
  s.get a .fromSwap == s.get b .fromSwap

def blocksAdjacent (s : Heap) (left right : ℕ) : Bool :=
  add64 left (s.get left .totalSize) == right

/-- `left` swallows the adjacent block `right`, which stays in the list with size
zero: the three assignments both branches of `coalesce_block` make. -/
def absorb (s : Heap) (left right : ℕ) : Heap :=
  let s := s.set left .totalSize (add64 (s.get left .totalSize) (s.get right .totalSize))
  let s := s.set left .userSize (sub64 (s.get left .totalSize) sizeofMemBlock)
  s.set right .totalSize 0

/-- The loop of `coalesce_block`: every merge starts over at `free_list`. -/
def coalesceLoop : ℕ → Heap → ℕ → ℕ → Except Halt Heap
  | 0, _, _, _ => .error .fuel
  | fuel + 1, s, blk, it =>
    if it = 0 then .ok s
    else if it ≠ blk ∧ sameBackingRegion s it blk then
      if blocksAdjacent s it blk then
        let s := absorb s it blk
        coalesceLoop fuel s it s.freeList
      else if blocksAdjacent s blk it then
        let s := absorb s blk it
        coalesceLoop fuel s blk s.freeList
      else coalesceLoop fuel s blk (s.get it .next)
    else coalesceLoop fuel s blk (s.get it .next)

def coalesceBlock (fuel : ℕ) (s : Heap) (blk : ℕ) : Except Halt Heap :=
  coalesceLoop fuel s blk s.freeList

/-- The loop of `compact_free_list`: unlink every node of size zero. -/
def compactLoop : ℕ → Heap → Link → Except Halt Heap
  | 0, _, _ => .error .fuel
  | fuel + 1, s, link =>
    if s.getLink link = 0 then .ok s
    else if s.get (s.getLink link) .totalSize = 0 then
      compactLoop fuel (s.setLink link (s.get (s.getLink link) .next)) link
    else compactLoop fuel s (.next (s.getLink link))

def compactFreeList (fuel : ℕ) (s : Heap) : Except Halt Heap :=
  compactLoop fuel s .head

/-- The debug fill of a freed payload: `n` whole words of `0xDEADBEEFDEADBEEF`,
then `0xEF` bytes. -/
def debugFill (s : Heap) (addr : ℕ) (userSize : ℕ) : Heap :=
  let off := userSize / 8 * 8
  { s with mem := fun i =>
      if addr ≤ i ∧ i < addr + off then
        UInt8.ofNat (0xDEADBEEFDEADBEEF / 256 ^ ((i - addr) % 8))
      else if addr + off ≤ i ∧ i < addr + userSize then 0xEF
      else s.mem i }

/-- `if (debug_mode)`: overwrite the payload. -/
def scrubPayload (s : Heap) (addr blk : ℕ) : Heap :=
  if s.debugMode then debugFill s addr (s.get blk .userSize) else s

/-- `if (heap_used_bytes >= blk->user_size) heap_used_bytes -= blk->user_size`. -/
def tallyFree (s : Heap) (blk : ℕ) : Heap :=
  if s.get blk .userSize ≤ s.heapUsedBytes then
    { s with heapUsedBytes := s.heapUsedBytes - s.get blk .userSize }
  else s

/-- Mark `blk` freed and put it at the head of the free list. -/
def pushBlock (s : Heap) (blk : ℕ) : Heap :=
  let s := s.set blk .guard memGuardFreed
  let s := s.set blk .next s.freeList
  { s with freeList := blk }

/-- The part of `mem_free` after its checks: fill, count, push and coalesce. -/
def releaseBlock (fuel : ℕ) (s : Heap) (addr blk : ℕ) : Except Halt Heap :=
  let s := pushBlock (tallyFree (scrubPayload s addr blk) blk) blk
  match coalesceBlock fuel s blk with
  | .error e => .error e
  | .ok s => compactFreeList fuel s

/-- `mem_free(addr, size)`. -/
def memFree (fuel : ℕ) (s : Heap) (addr size : ℕ) : Except Halt Heap :=
  if addr = 0 then .ok s
  else
    let blk := sub64 addr sizeofMemBlock
    if !ptrInRegion blk s.heapStart s.heapMaxEnd && !ptrInRegion blk s.swapSpace s.swapEnd then
      .error (.panic "mem: free outside managed region")
    else if blk = 0 then .error (.panic "mem: null block")
    else if s.get blk .guard ≠ memGuardActive then
      .error (.panic "mem: use-after-free or corrupt block")
    else if size ≠ 0 ∧ s.get blk .userSize < size then
      .error (.panic "mem: free size larger than allocation")
    else releaseBlock fuel s addr blk

end ExoCore.Mem
