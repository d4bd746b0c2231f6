/-
  ExoCore.Elf.Contents — WHAT the loaded image holds.

  The image is a zeroed buffer over which the copy loop lays the segments in table
  order, so a byte belongs to the LAST segment that backs its address.  `image_contents`
  says so for every accepted file, and that the image spans exactly the `PT_LOAD` headers.
-/
import ExoCore.Elf.Bounds
import ExoCore.Lib.Bytes
import ExoCore.Lib.Run
import Mathlib.Order.Bounds.Basic

namespace ExoCore.Elf

open ExoCore.Lib List

variable {file : List UInt8} {phs : List ElfPhdr} {r : LoadRange}

/-- The least `p_vaddr` of the `PT_LOAD` headers of a table. -/
def IsBase (phs : List ElfPhdr) (lo : ℕ) : Prop :=
  IsLeast {a | ∃ ph ∈ phs, ph.pType = elfPtLoad ∧ a = ph.pVaddr} lo

/-- The greatest `p_vaddr + p_memsz` of the `PT_LOAD` headers of a table. -/
def IsEnd (phs : List ElfPhdr) (hi : ℕ) : Prop :=
  IsGreatest {a | ∃ ph ∈ phs, ph.pType = elfPtLoad ∧ a = ph.pVaddr + ph.pMemsz} hi

/-- **The range is exact.** -/
theorem Inspected.exact {eh : ElfHeader} (h : Inspected file eh phs r) :
    IsBase phs r.minVaddr ∧ IsEnd phs r.maxVaddr := by
  -- the starting values 2^64 - 1 and 0 cannot be the ends of a non-empty range of words
  have hne := h.nonEmpty
  have hword := h.word
  constructor
  · constructor
    · exact h.lowOf.resolve_left (by dsimp only; omega)
    · rintro a ⟨ph, hph, hload, rfl⟩
      exact (h.inside ph hph hload).low
  · constructor
    · exact h.highOf.resolve_left (by dsimp only; omega)
    · rintro a ⟨ph, hph, hload, rfl⟩
      exact (h.inside ph hph hload).high

/-- **The contents of a loaded image.**  The image of a file that
`elf_load_process_image` loads spans exactly the `PT_LOAD` headers; each of its bytes
is the file's, taken from the last header that backs its address, and is zero where
no header does. -/
theorem image_contents (procAlloc : ℕ → ℕ) (out : Bool) (file : List UInt8) (im : ElfImage)
    (image : Image) (h : elfLoadProcessImage procAlloc out file = .ok (.ok (im, image))) :
    ∃ eh phs lo hi, elfValidate file = .ok true ∧ readHeader file = .ok eh ∧
      IsTable file eh.ePhoff (List.range eh.ePhnum) phs ∧ IsBase phs lo ∧ IsEnd phs hi ∧
      im.loadSize = hi - lo ∧ image.size = im.loadSize ∧
      ∀ k, k < im.loadSize → match lastBacking phs (lo + k) with
        | some ph => file[ph.pOffset + (lo + k - ph.pVaddr)]? = some (image.byte k)
        | none => image.byte k = 0 := by
  obtain rfl : out = true := by
    cases out with
    | false => cases h
    | true => rfl
  have hval := elfValidate_bounds file
  obtain ⟨valid, hv⟩ := hval.total fun _ hfalse => hfalse
  cases valid with
  | false =>
    unfold elfLoadProcessImage at h
    rw [hv] at h
    cases h
  | true =>
    obtain ⟨eh, phs, r, heh, hr, htable, hins⟩ := hval.value hv rfl
    obtain ⟨hbase, hend⟩ := hins.exact
    obtain ⟨im', hcopy, hsize, hlaid⟩ := hins.copies htable
    have hsub : sub64 r.maxVaddr r.minVaddr = r.maxVaddr - r.minVaddr :=
      sub64_of_le (le_of_lt hins.nonEmpty) hins.word
    rw [elfLoadProcessImage_eq procAlloc hv heh hr] at h
    split at h
    · cases h
    · rw [hcopy] at h
      cases h
      exact ⟨eh, phs, r.minVaddr, r.maxVaddr, hv, heh, htable, hbase, hend, hsub, hsize,
        fun k _ => hlaid k⟩

/-- A file with two overlapping segments: four bytes at `0x1000` in a range of eight, and
one byte at `0x1002` over them. -/
def overlapping : List UInt8 :=
  leBytes 4 elfMagic ++ [2, 1, 1] ++ List.replicate 9 0 ++ leBytes 2 2 ++ leBytes 2 62 ++
    leBytes 4 1 ++ leBytes 8 0x1000 ++ leBytes 8 64 ++ leBytes 8 0 ++ leBytes 4 0 ++ leBytes 2 64 ++
    leBytes 2 56 ++ leBytes 2 2 ++ List.replicate 6 0 ++
  leBytes 4 1 ++ leBytes 4 5 ++ leBytes 8 176 ++ leBytes 8 0x1000 ++ leBytes 8 0 ++ leBytes 8 4 ++
    leBytes 8 8 ++ leBytes 8 0 ++
  leBytes 4 1 ++ leBytes 4 5 ++ leBytes 8 180 ++ leBytes 8 0x1002 ++ leBytes 8 0 ++ leBytes 8 1 ++
    leBytes 8 1 ++ leBytes 8 0 ++
  [0xA1, 0xA2, 0xA3, 0xA4, 0xB1]

theorem image_contents_overlapping :
    ∃ im image, elfLoadProcessImage (fun _ => 4096) true overlapping = .ok (.ok (im, image)) ∧
      (List.range 8).map image.byte = [0xA1, 0xA2, 0xB1, 0xA4, 0, 0, 0, 0] ∧
      ∃ phs lo hi, IsBase phs lo ∧ IsEnd phs hi ∧ im.loadSize = hi - lo ∧
        ∀ k, k < im.loadSize → match lastBacking phs (lo + k) with
          | some ph => overlapping[ph.pOffset + (lo + k - ph.pVaddr)]? = some (image.byte k)
          | none => image.byte k = 0 := by
  have hrun : (match elfLoadProcessImage (fun _ => 4096) true overlapping with
      | .ok (.ok (_, image)) => (List.range 8).map image.byte
      | _ => []) = [0xA1, 0xA2, 0xB1, 0xA4, 0, 0, 0, 0] := by decide +kernel
  split at hrun
  · rename_i im image h
    obtain ⟨eh, phs, lo, hi, -, -, -, hlo, hhi, hsize, -, hbytes⟩ :=
      image_contents (fun _ => 4096) true overlapping im image h
    exact ⟨im, image, h, hrun, phs, lo, hi, hlo, hhi, hsize, hbytes⟩
  · cases hrun

end ExoCore.Elf
