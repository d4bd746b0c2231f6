/-
  ExoCore.Mem.Block — the data model of the kernel allocator (`kernel/mem.c`).

  Memory is BYTE-ADDRESSED and the block headers live in it: a `mem_block_t` at
  address `b` is the 40 bytes

      b + 0   total_size   8 bytes
      b + 8   user_size    8 bytes
      b + 16  guard        4 bytes (4 bytes of padding)
      b + 24  next         8 bytes
      b + 32  from_swap    4 bytes (4 bytes of padding)

  so two headers that overlap really destroy each other.  `Heap` holds the
  statics of the file next to the memory.  A field access `blk->f` is
  `s.get blk .f`, an assignment `blk->f = v` is `s.set blk .f v`.
-/
import ExoCore.Lib.Bytes
import ExoCore.Lib.LinkedList

namespace ExoCore.Mem

open ExoCore.Lib

/-! ## §1. Constants. -/

/-- `sizeof(mem_block_t)`. -/
def sizeofMemBlock : ℕ := 40

/-- `sizeof(swap_space)`. -/
def sizeofSwapSpace : ℕ := 64 * 1024

/-- `EXOCORE_KERNEL_HEAP_MAX_SIZE`. -/
def kernelHeapMaxSize : ℕ := 8 * 1024 * 1024

def memGuardActive : ℕ := 0xC0DEFACE

def memGuardFreed : ℕ := 0xDEADFA11

/-! ## §2. The header fields. -/

/-- The fields of `mem_block_t`. -/
inductive Field where
  | totalSize
  | userSize
  | guard
  | next
  | fromSwap
  deriving Repr, DecidableEq

/-- The five values of a header. -/
structure MemBlock where
  totalSize : ℕ
  userSize : ℕ
  guard : ℕ
  next : ℕ
  fromSwap : ℕ
  deriving Repr, DecidableEq

/-- Byte offset of a field in the header. -/
def Field.off : Field → ℕ
  | .totalSize => 0
  | .userSize => 8
  | .guard => 16
  | .next => 24
  | .fromSwap => 32

/-- Width of a field in bytes. -/
def Field.width : Field → ℕ
  | .totalSize => 8
  | .userSize => 8
  | .guard => 4
  | .next => 8
  | .fromSwap => 4

/-! ## §3. The allocator state. -/

/-- The statics of `mem.c`, with the memory they point into.  `swapSpace` is the
address of the static array of that name; pointers are `Nat`, `0` is `NULL`. -/
structure Heap where
  mem : Bytes
  heapStart : ℕ
  heapPtr : ℕ
  heapCommittedEnd : ℕ
  heapMaxEnd : ℕ
  heapUsedBytes : ℕ
  heapGrowCount : ℕ
  heapAllocFailCount : ℕ
  swapSpace : ℕ
  swapPtr : ℕ
  freeList : ℕ
  debugMode : Bool

namespace Heap

/-- `blk->f`. -/
def get (s : Heap) (blk : ℕ) (f : Field) : ℕ := rdLE s.mem (blk + f.off) f.width

/-- `*blk`. -/
def hdr (s : Heap) (blk : ℕ) : MemBlock where
  totalSize := s.get blk .totalSize
  userSize := s.get blk .userSize
  guard := s.get blk .guard
  next := s.get blk .next
  fromSwap := s.get blk .fromSwap

/-- `blk->f = v`. -/
def set (s : Heap) (blk : ℕ) (f : Field) (v : ℕ) : Heap :=
  { s with mem := wrLE s.mem (blk + f.off) f.width v }

/-- `swap_space + sizeof(swap_space)`. -/
def swapEnd (s : Heap) : ℕ := add64 s.swapSpace sizeofSwapSpace

/-- `*link` for a `mem_block_t **`. -/
def getLink (s : Heap) : Link → ℕ
  | .head => s.freeList
  | .next b => s.get b .next

/-- `*link = v` for a `mem_block_t **`. -/
def setLink (s : Heap) (link : Link) (v : ℕ) : Heap :=
  match link with
  | .head => { s with freeList := v }
  | .next b => s.set b .next v

end Heap

/-! ## §4. Header reads after header writes.

Three facts cover the five fields: the field written, another field of the same
header, and any field of a header that does not overlap. -/

variable (s : Heap) (b c v : ℕ) (f g : Field)

theorem Heap.get_lt : s.get b f < 256 ^ f.width := rdLE_lt _ _ _

theorem Heap.get_set_self : (s.set b f v).get b f = v % 256 ^ f.width :=
  rdLE_wrLE _ _ _ _

theorem Heap.get_set_field (h : f ≠ g) : (s.set b f v).get b g = s.get b g := by
  apply rdLE_wrLE_apart
  unfold Apart
  cases f <;> cases g <;> simp_all [Field.off, Field.width]

/-- Headers at `b` and `c` do not overlap. -/
def HdrApart (b c : ℕ) : Prop := Apart b sizeofMemBlock c sizeofMemBlock

theorem HdrApart.symm {b c : ℕ} (h : HdrApart b c) : HdrApart c b := Or.symm h

theorem Heap.get_set_apart {b c : ℕ} (h : HdrApart b c) :
    (s.set b f v).get c g = s.get c g := by
  apply rdLE_wrLE_apart
  unfold HdrApart Apart sizeofMemBlock at *
  cases f <;> cases g <;> simp only [Field.off, Field.width] <;> omega

theorem Heap.mem_set_apart {s : Heap} {b v i : ℕ} {f : Field}
    (h : i < b ∨ b + sizeofMemBlock ≤ i) : (s.set b f v).mem i = s.mem i := by
  apply wrLE_apart
  unfold sizeofMemBlock at h
  cases f <;> simp only [Field.off, Field.width] <;> omega

theorem Heap.swapEnd_set : (s.set b f v).swapEnd = s.swapEnd := rfl

theorem Heap.freeList_set : (s.set b f v).freeList = s.freeList := rfl

theorem Heap.get_of_hdr_eq {s s' : Heap} {c : ℕ} (h : s'.hdr c = s.hdr c) (f : Field) :
    s'.get c f = s.get c f := by
  simp only [Heap.hdr, MemBlock.mk.injEq] at h
  obtain ⟨h1, h2, h3, h4, h5⟩ := h
  cases f
  exacts [h1, h2, h3, h4, h5]

theorem Heap.get_of_hdr_link {s s' : Heap} {c v : ℕ} (h : s'.hdr c = { s.hdr c with next := v }) :
    s'.get c .next = v ∧ ∀ f, f ≠ .next → s'.get c f = s.get c f := by
  simp only [Heap.hdr, MemBlock.mk.injEq] at h
  obtain ⟨h1, h2, h3, h4, h5⟩ := h
  refine ⟨h4, ?_⟩
  intro f hf
  cases f
  exacts [h1, h2, h3, absurd rfl hf, h5]

/-- A header whose 40 bytes are unchanged reads the same. -/
theorem Heap.get_congr {s s' : Heap} {b : ℕ}
    (h : ∀ i, b ≤ i → i < b + sizeofMemBlock → s'.mem i = s.mem i) (f : Field) :
    s'.get b f = s.get b f := by
  apply rdLE_congr
  intro i h1 h2
  apply h
  · omega
  · unfold sizeofMemBlock
    cases f <;> simp only [Field.off, Field.width] at * <;> omega

theorem Heap.get_of_mem_eq {s s' : Heap} (h : s'.mem = s.mem) (b : ℕ) (f : Field) :
    s'.get b f = s.get b f :=
  Heap.get_congr (fun i _ _ => congrFun h i) f

end ExoCore.Mem
