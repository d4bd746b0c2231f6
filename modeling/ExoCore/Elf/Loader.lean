/-
  ExoCore.Elf.Loader — the ELF loader of `kernel/elf.c`.

  A file is the list of its bytes and `file_size` is its length.  Every read of the
  file and every write of the image is CHECKED: outside its range it is a `Fault`,
  so a loader that returns has stayed inside both.  Headers are read field by field
  at the offsets of the packed structures of `elf.h`; the fields that no function
  looks at (`e_osabi`, `e_abiversion`, `e_shoff`, `e_flags`, `e_sh*`, `p_paddr`)
  are left out.

  `proc_alloc` is the environment's answer: `0` for `NULL`, or the address of as
  many writable bytes as were asked for.
-/
import ExoCore.Lib.Word
import Mathlib.Data.List.Range

namespace ExoCore.Elf

open ExoCore.Lib

/-! ## §1. Checked access. -/

/-- What the loader must not do. -/
inductive Fault where
  /-- A read at an index that is not below `file_size`. -/
  | fileRead
  /-- A write at an index that is not below `load_size`. -/
  | imageWrite
  deriving Repr, DecidableEq

/-- `((const unsigned char*)file)[i]`. -/
def rdByte (file : List UInt8) (i : ℕ) : Except Fault UInt8 :=
  match file[i]? with
  | some b => .ok b
  | none => .error .fileRead

/-- A little-endian field of `n` bytes at `off`. -/
def rdField (file : List UInt8) (off : ℕ) : ℕ → Except Fault ℕ
  | 0 => .ok 0
  | n + 1 => do
    let b ← rdByte file off
    let rest ← rdField file (off + 1) n
    .ok (b.toNat + 256 * rest)

/-- The `n` bytes at `off` that a `memcpy` reads. -/
def rdBytes (file : List UInt8) (off n : ℕ) : Except Fault (List UInt8) :=
  if n = 0 ∨ off + n ≤ file.length then .ok ((file.drop off).take n) else .error .fileRead

/-- A loaded image of `size` bytes. -/
structure Image where
  size : ℕ
  byte : ℕ → UInt8

/-- `memcpy(base + off, bytes, n)`. -/
def Image.store (im : Image) (off : ℕ) (bytes : List UInt8) : Except Fault Image :=
  if bytes = [] ∨ off + bytes.length ≤ im.size then
    .ok { im with byte := fun k => if off ≤ k then (bytes[k - off]?).getD (im.byte k) else im.byte k }
  else .error .imageWrite

/-! ## §2. The headers. -/

def elfMagic : ℕ := 0x464C457F
def elfClass64 : ℕ := 2
def elfDataLsb : ℕ := 1
def elfVersionCurrent : ℕ := 1
def elfTypeExec : ℕ := 2
def elfMachineX8664 : ℕ := 62
def elfPtLoad : ℕ := 1

/-- `ELF_PF_R | ELF_PF_W | ELF_PF_X`. -/
def elfPfMask : ℕ := 7

/-- `ELF_MAX_LOAD_SIZE`. -/
def elfMaxLoadSize : ℕ := 16 * 1024 * 1024

/-- `sizeof(elf_header_t)`. -/
def sizeofElfHeader : ℕ := 64

/-- `sizeof(elf_phdr_t)`. -/
def sizeofElfPhdr : ℕ := 56

/-- `elf_header_t`. -/
structure ElfHeader where
  eMagic : ℕ
  eClass : ℕ
  eData : ℕ
  eVersion : ℕ
  eType : ℕ
  eMachine : ℕ
  eVersion2 : ℕ
  eEntry : ℕ
  ePhoff : ℕ
  eEhsize : ℕ
  ePhentsize : ℕ
  ePhnum : ℕ
  deriving Repr, DecidableEq

/-- `elf_phdr_t`. -/
structure ElfPhdr where
  pType : ℕ
  pFlags : ℕ
  pOffset : ℕ
  pVaddr : ℕ
  pFilesz : ℕ
  pMemsz : ℕ
  pAlign : ℕ
  deriving Repr, DecidableEq

/-- `*(const elf_header_t*)file`. -/
def readHeader (file : List UInt8) : Except Fault ElfHeader := do
  let eMagic ← rdField file 0 4
  let eClass ← rdField file 4 1
  let eData ← rdField file 5 1
  let eVersion ← rdField file 6 1
  let eType ← rdField file 16 2
  let eMachine ← rdField file 18 2
  let eVersion2 ← rdField file 20 4
  let eEntry ← rdField file 24 8
  let ePhoff ← rdField file 32 8
  let eEhsize ← rdField file 52 2
  let ePhentsize ← rdField file 54 2
  let ePhnum ← rdField file 56 2
  .ok ⟨eMagic, eClass, eData, eVersion, eType, eMachine, eVersion2, eEntry, ePhoff, eEhsize,
    ePhentsize, ePhnum⟩

/-- `ph[i]`, for the table at file offset `phoff`. -/
def readPhdr (file : List UInt8) (phoff i : ℕ) : Except Fault ElfPhdr := do
  let off := phoff + sizeofElfPhdr * i
  let pType ← rdField file off 4
  let pFlags ← rdField file (off + 4) 4
  let pOffset ← rdField file (off + 8) 8
  let pVaddr ← rdField file (off + 16) 8
  let pFilesz ← rdField file (off + 32) 8
  let pMemsz ← rdField file (off + 40) 8
  let pAlign ← rdField file (off + 48) 8
  .ok ⟨pType, pFlags, pOffset, pVaddr, pFilesz, pMemsz, pAlign⟩

/-! ## §3. Validation. -/

/-- `add_overflow_u64`: whether the sum wrapped, and the sum. -/
def addOverflowU64 (a b : ℕ) : Bool × ℕ := (decide (add64 a b < a), add64 a b)

/-- `range_inside`. -/
def rangeInside (off len total : ℕ) : Bool :=
  let (wrapped, stop) := addOverflowU64 off len
  !wrapped && decide (off ≤ total) && decide (stop ≤ total)

/-- `valid_flags`, on 32-bit words. -/
def validFlags (flags : ℕ) : Bool := flags &&& (2 ^ 32 - 1 - elfPfMask) == 0

/-- The running minimum, maximum and count of `inspect_load_range`. -/
structure LoadRange where
  minVaddr : ℕ
  maxVaddr : ℕ
  loads : ℕ
  deriving Repr, DecidableEq

/-- The body of the loop of `inspect_load_range`: `none` for `return -1`. -/
def inspectPhdr (fileSize : ℕ) (ph : ElfPhdr) (r : LoadRange) : Option LoadRange :=
  if ph.pType ≠ elfPtLoad then some r
  else if !validFlags ph.pFlags ∨ ph.pMemsz = 0 ∨ ph.pMemsz < ph.pFilesz then none
  else
    let (fileOver, fileEnd) := addOverflowU64 ph.pOffset ph.pFilesz
    if fileOver ∨ fileSize < fileEnd then none
    else
      let (memOver, memEnd) := addOverflowU64 ph.pVaddr ph.pMemsz
      if memOver then none
      else if ph.pAlign ≠ 0 ∧ ph.pAlign &&& (ph.pAlign - 1) ≠ 0 then none
      else if 1 < ph.pAlign ∧ sub64 ph.pVaddr ph.pOffset &&& (ph.pAlign - 1) ≠ 0 then none
      else some
        { minVaddr := if ph.pVaddr < r.minVaddr then ph.pVaddr else r.minVaddr
          maxVaddr := if r.maxVaddr < memEnd then memEnd else r.maxVaddr
          loads := r.loads + 1 }

/-- The loop of `inspect_load_range` over the given indices. -/
def inspectLoop (file : List UInt8) (phoff : ℕ) : List ℕ → LoadRange →
    Except Fault (Option LoadRange)
  | [], r => .ok (some r)
  | i :: rest, r => do
    let ph ← readPhdr file phoff i
    match inspectPhdr file.length ph r with
    | none => .ok none
    | some r => inspectLoop file phoff rest r

/-- `inspect_load_range`. -/
def inspectLoadRange (file : List UInt8) (eh : ElfHeader) : Except Fault (Option LoadRange) := do
  match ← inspectLoop file eh.ePhoff (List.range eh.ePhnum) ⟨2 ^ 64 - 1, 0, 0⟩ with
  | none => .ok none
  | some r =>
    if r.loads = 0 ∨ eh.eEntry < r.minVaddr ∨ r.maxVaddr ≤ eh.eEntry then .ok none
    else if r.maxVaddr ≤ r.minVaddr ∨ elfMaxLoadSize < sub64 r.maxVaddr r.minVaddr then .ok none
    else .ok (some r)

/-- The checks `elf_validate` makes on the header alone. -/
def headerOk (eh : ElfHeader) (fileSize : ℕ) : Bool :=
  eh.eMagic == elfMagic && eh.eClass == elfClass64 && eh.eData == elfDataLsb &&
    eh.eVersion == elfVersionCurrent && eh.eVersion2 == elfVersionCurrent &&
    eh.eType == elfTypeExec && eh.eMachine == elfMachineX8664 &&
    eh.eEhsize == sizeofElfHeader && eh.ePhentsize == sizeofElfPhdr && eh.ePhnum != 0 &&
    rangeInside eh.ePhoff (eh.ePhentsize * eh.ePhnum) fileSize

/-- `elf_validate`: `true` for `0`. -/
def elfValidate (file : List UInt8) : Except Fault Bool :=
  if file.length < sizeofElfHeader then .ok false
  else do
    let eh ← readHeader file
    if headerOk eh file.length then do
      let r ← inspectLoadRange file eh
      .ok r.isSome
    else .ok false

/-! ## §4. Loading. -/

/-- `elf_image_t`. -/
structure ElfImage where
  requestedBase : ℕ
  requestedEnd : ℕ
  loadBase : ℕ
  loadSize : ℕ
  entry : ℕ
  deriving Repr, DecidableEq

/-- The places where `elf_load_process_image` returns `-1`. -/
inductive LoadError where
  /-- `out` is `NULL`. -/
  | noOut
  /-- `elf_validate` or `inspect_load_range` refused the file. -/
  | invalid
  /-- `proc_alloc` returned `NULL`. -/
  | noMemory
  /-- The test of `dest_off` and `p_memsz` against `load_size`. -/
  | badSegment
  deriving Repr, DecidableEq

/-- The copy loop over the given indices. -/
def copyLoop (file : List UInt8) (phoff minVaddr : ℕ) : List ℕ → Image →
    Except Fault (Except LoadError Image)
  | [], im => .ok (.ok im)
  | i :: rest, im => do
    let ph ← readPhdr file phoff i
    if ph.pType ≠ elfPtLoad then copyLoop file phoff minVaddr rest im
    else
      let destOff := sub64 ph.pVaddr minVaddr
      if im.size < destOff ∨ im.size - destOff < ph.pMemsz then .ok (.error .badSegment)
      else do
        let bytes ← rdBytes file ph.pOffset ph.pFilesz
        let im ← im.store destOff bytes
        copyLoop file phoff minVaddr rest im

/-- `elf_load_process_image`: the record it stores at `out`, with the bytes behind it. -/
def elfLoadProcessImage (procAlloc : ℕ → ℕ) (out : Bool) (file : List UInt8) :
    Except Fault (Except LoadError (ElfImage × Image)) :=
  if !out then .ok (.error .noOut)
  else do
    let valid ← elfValidate file
    if !valid then .ok (.error .invalid)
    else do
      let eh ← readHeader file
      match ← inspectLoadRange file eh with
      | none => .ok (.error .invalid)
      | some r =>
        let loadSize := sub64 r.maxVaddr r.minVaddr
        let base := procAlloc loadSize
        if base = 0 then .ok (.error .noMemory)
        else do
          match ← copyLoop file eh.ePhoff r.minVaddr (List.range eh.ePhnum) ⟨loadSize, fun _ => 0⟩ with
          | .error e => .ok (.error e)
          | .ok im =>
            .ok (.ok
              ({ requestedBase := r.minVaddr
                 requestedEnd := r.maxVaddr
                 loadBase := base
                 loadSize := loadSize
                 entry := add64 base (sub64 eh.eEntry r.minVaddr) }, im))

end ExoCore.Elf
