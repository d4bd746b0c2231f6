/-
  ExoCore.Elf.Bounds — the loader stays INSIDE the file and INSIDE the image, on
  every file.

  The loops of `inspect_load_range` and `elf_load_process_image` go over one table of
  program headers.  What the copy loop relies on is what the inspection has seen:

    • `inspectLoop_widened` — the range found is that of the `PT_LOAD` headers, and each
      of them is `Inside` it;
    • `copyLoop_laid`       — a loop over such headers never leaves the file or the
      image, never takes its error branch, and lays the segments in table order;
    • `elf_in_bounds`       — the two together.
-/
import ExoCore.Elf.Loader
import ExoCore.Lib.Ensures
import Mathlib.Data.List.Forall2
import Mathlib.Tactic.Linarith

namespace ExoCore.Elf

open ExoCore.Lib List

/-- No fault is allowed. -/
def Never (_ : Fault) : Prop := False

/-! ## §1. Reading headers. -/

section Reading

variable {file : List UInt8} {off n : ℕ}

theorem rdByte_bounds (h : off < file.length) : Ensures Never (rdByte file off) fun _ => True := by
  unfold rdByte
  rw [getElem?_eq_getElem h]
  exact trivial

theorem rdField_bounds : ∀ (n off : ℕ), off + n ≤ file.length →
    Ensures Never (rdField file off n) fun v => v < 256 ^ n := by
  intro n
  induction n with
  | zero =>
    intro off _
    exact Nat.one_pos
  | succ n ih =>
    intro off h
    refine (rdByte_bounds (by omega)).bind fun b _ => (ih (off + 1) (by omega)).bind fun v hv => ?_
    show b.toNat + 256 * v < 256 ^ (n + 1)
    have hb : b.toNat < 256 := b.toNat_lt
    rw [Nat.pow_succ]
    omega

/-- The words of a file header. -/
structure HeaderWords (eh : ElfHeader) : Prop where
  entry : eh.eEntry < 2 ^ 64
  phoff : eh.ePhoff < 2 ^ 64
  phnum : eh.ePhnum < 2 ^ 16

theorem readHeader_bounds (h : sizeofElfHeader ≤ file.length) :
    Ensures Never (readHeader file) HeaderWords := by
  have hlen : 64 ≤ file.length := h
  have hrd : ∀ off n, off + n ≤ 64 → Ensures Never (rdField file off n) fun v => v < 256 ^ n :=
    fun off n hle => rdField_bounds n off (by omega)
  refine (hrd 0 4 (by omega)).bind fun _ _ => (hrd 4 1 (by omega)).bind fun _ _ =>
    (hrd 5 1 (by omega)).bind fun _ _ => (hrd 6 1 (by omega)).bind fun _ _ =>
    (hrd 16 2 (by omega)).bind fun _ _ => (hrd 18 2 (by omega)).bind fun _ _ =>
    (hrd 20 4 (by omega)).bind fun _ _ => (hrd 24 8 (by omega)).bind fun _ hentry =>
    (hrd 32 8 (by omega)).bind fun _ hphoff => (hrd 52 2 (by omega)).bind fun _ _ =>
    (hrd 54 2 (by omega)).bind fun _ _ => (hrd 56 2 (by omega)).bind fun _ hphnum => ?_
  exact ⟨hentry, hphoff, hphnum⟩

/-- The words of a program header. -/
structure PhdrWords (ph : ElfPhdr) : Prop where
  offset : ph.pOffset < 2 ^ 64
  vaddr : ph.pVaddr < 2 ^ 64
  filesz : ph.pFilesz < 2 ^ 64
  memsz : ph.pMemsz < 2 ^ 64

/-- Entry `i` of the table at `phoff` lies inside the file. -/
def InTable (file : List UInt8) (phoff i : ℕ) : Prop :=
  phoff + sizeofElfPhdr * i + sizeofElfPhdr ≤ file.length

theorem readPhdr_bounds {phoff i : ℕ} (h : InTable file phoff i) :
    Ensures Never (readPhdr file phoff i) PhdrWords := by
  have hlen : phoff + sizeofElfPhdr * i + 56 ≤ file.length := h
  have hrd : ∀ k n, k + n ≤ 56 →
      Ensures Never (rdField file (phoff + sizeofElfPhdr * i + k) n) fun v => v < 256 ^ n :=
    fun k n hle => rdField_bounds n _ (by omega)
  refine (hrd 0 4 (by omega)).bind fun _ _ => (hrd 4 4 (by omega)).bind fun _ _ =>
    (hrd 8 8 (by omega)).bind fun _ hoff => (hrd 16 8 (by omega)).bind fun _ hvaddr =>
    (hrd 32 8 (by omega)).bind fun _ hfilesz => (hrd 40 8 (by omega)).bind fun _ hmemsz =>
    (hrd 48 8 (by omega)).bind fun _ _ => ?_
  exact ⟨hoff, hvaddr, hfilesz, hmemsz⟩

/-- `phs` are the program headers at the given indices of the table. -/
def IsTable (file : List UInt8) (phoff : ℕ) (l : List ℕ) (phs : List ElfPhdr) : Prop :=
  List.Forall₂ (fun i ph => readPhdr file phoff i = .ok ph) l phs

theorem exists_isTable {phoff : ℕ} : ∀ l : List ℕ, (∀ i ∈ l, InTable file phoff i) →
    ∃ phs, IsTable file phoff l phs ∧ ∀ ph ∈ phs, PhdrWords ph := by
  intro l
  induction l with
  | nil => exact fun _ => ⟨[], .nil, fun ph hph => by cases hph⟩
  | cons i l ih =>
    intro hl
    obtain ⟨phs, hphs, hwords⟩ := ih fun j hj => hl j (mem_cons_of_mem i hj)
    have hread := readPhdr_bounds (hl i mem_cons_self)
    obtain ⟨ph, hph⟩ := hread.total fun _ h => h
    exact ⟨ph :: phs, .cons hph hphs, forall_mem_cons.mpr ⟨hread.value hph, hwords⟩⟩

end Reading

/-! ## §2. What the inspection establishes. -/

theorem addOverflowU64_of_not {a b : ℕ} (ha : a < 2 ^ 64) (hb : b < 2 ^ 64)
    (h : (addOverflowU64 a b).1 = false) : (addOverflowU64 a b).2 = a + b ∧ a + b < 2 ^ 64 := by
  unfold addOverflowU64 add64 at *
  simp only [decide_eq_false_iff_not, not_lt] at h
  constructor <;> omega

/-- `ph` fits into a file of `fileSize` bytes and into the range `r`. -/
structure Inside (fileSize : ℕ) (r : LoadRange) (ph : ElfPhdr) : Prop where
  filesz : ph.pFilesz ≤ ph.pMemsz
  file : ph.pOffset + ph.pFilesz ≤ fileSize
  low : r.minVaddr ≤ ph.pVaddr
  high : ph.pVaddr + ph.pMemsz ≤ r.maxVaddr

variable {fileSize phoff : ℕ} {r r' : LoadRange} {ph : ElfPhdr} {file : List UInt8} {eh : ElfHeader}
  {l : List ℕ} {phs : List ElfPhdr}

/-- What one accepted header does: nothing, or a `PT_LOAD` widens the range. -/
theorem inspectPhdr_cases (hw : PhdrWords ph)
    (h : inspectPhdr fileSize ph r = some r') :
    (ph.pType ≠ elfPtLoad ∧ r' = r) ∨
      (ph.pType = elfPtLoad ∧ ph.pFilesz ≤ ph.pMemsz ∧ ph.pOffset + ph.pFilesz ≤ fileSize ∧
        ph.pVaddr + ph.pMemsz < 2 ^ 64 ∧
        r' = { minVaddr := if ph.pVaddr < r.minVaddr then ph.pVaddr else r.minVaddr
               maxVaddr := if r.maxVaddr < ph.pVaddr + ph.pMemsz then ph.pVaddr + ph.pMemsz
                 else r.maxVaddr
               loads := r.loads + 1 }) := by
  unfold inspectPhdr at h
  split at h
  · rename_i htype
    cases h
    exact .inl ⟨htype, rfl⟩
  rename_i hload
  split at h
  · cases h
  rename_i hsize
  simp only [not_or, not_lt] at hsize
  dsimp only at h
  split at h
  · cases h
  rename_i hfile
  simp only [not_or, not_lt, Bool.not_eq_true] at hfile
  split at h
  · cases h
  rename_i hmem
  split at h
  · cases h
  split at h
  · cases h
  obtain ⟨hfe, -⟩ := addOverflowU64_of_not hw.offset hw.filesz hfile.1
  obtain ⟨hme, hlt⟩ := addOverflowU64_of_not hw.vaddr hw.memsz (Bool.not_eq_true _ ▸ hmem)
  have hbound := hfile.2
  rw [hfe] at hbound
  rw [hme] at h
  cases h
  exact .inr ⟨not_not.mp hload, hsize.2.2, hbound, hlt, rfl⟩

/-- **What the inspection of `phs` makes of the range**: it only widens, each end is an old one or
that of a `PT_LOAD`, and every `PT_LOAD` is inside. -/
structure Widened (fileSize : ℕ) (phs : List ElfPhdr) (r r' : LoadRange) : Prop where
  word : r'.maxVaddr < 2 ^ 64
  low : r'.minVaddr ≤ r.minVaddr
  high : r.maxVaddr ≤ r'.maxVaddr
  lowOf : r'.minVaddr = r.minVaddr ∨ ∃ ph ∈ phs, ph.pType = elfPtLoad ∧ r'.minVaddr = ph.pVaddr
  highOf : r'.maxVaddr = r.maxVaddr ∨
    ∃ ph ∈ phs, ph.pType = elfPtLoad ∧ r'.maxVaddr = ph.pVaddr + ph.pMemsz
  inside : ∀ ph ∈ phs, ph.pType = elfPtLoad → Inside fileSize r' ph

/-- One header. -/
theorem inspectPhdr_widened (hw : PhdrWords ph) (hr : r.maxVaddr < 2 ^ 64)
    (h : inspectPhdr fileSize ph r = some r') : Widened fileSize [ph] r r' := by
  obtain ⟨htype, rfl⟩ | ⟨hload, hsize, hfile, hlt, rfl⟩ := inspectPhdr_cases hw h
  · refine ⟨hr, le_refl _, le_refl _, .inl rfl, .inl rfl, fun q hq hload => ?_⟩
    exact absurd (mem_singleton.mp hq ▸ hload) htype
  · refine ⟨?_, ?_, ?_, ?_, ?_, fun q hq _ => ?_⟩
    · dsimp only
      split <;> omega
    · dsimp only
      split <;> omega
    · dsimp only
      split <;> omega
    · dsimp only
      split
      · exact .inr ⟨ph, mem_cons_self, hload, rfl⟩
      · exact .inl rfl
    · dsimp only
      split
      · exact .inr ⟨ph, mem_cons_self, hload, rfl⟩
      · exact .inl rfl
    · rw [mem_singleton.mp hq]
      refine ⟨hsize, hfile, ?_, ?_⟩ <;> dsimp only <;> split <;> omega

/-- An end that the first header or a later one gave. -/
theorem end_cons {e old new : ℕ} {f : ElfPhdr → ℕ}
    (hstep : new = old ∨ ∃ q ∈ [ph], q.pType = elfPtLoad ∧ new = f q)
    (hrest : e = new ∨ ∃ q ∈ phs, q.pType = elfPtLoad ∧ e = f q) :
    e = old ∨ ∃ q ∈ ph :: phs, q.pType = elfPtLoad ∧ e = f q := by
  rcases hrest with rfl | ⟨q, hq, hq'⟩
  · refine hstep.imp_right fun ⟨q, hq, hq'⟩ => ⟨q, ?_, hq'⟩
    rw [mem_singleton.mp hq]
    exact mem_cons_self
  · exact .inr ⟨q, mem_cons_of_mem ph hq, hq'⟩

theorem Widened.cons {r₁ : LoadRange} (h : Widened fileSize [ph] r r₁)
    (h' : Widened fileSize phs r₁ r') : Widened fileSize (ph :: phs) r r' := by
  refine ⟨h'.word, h'.low.trans h.low, h.high.trans h'.high, end_cons h.lowOf h'.lowOf,
    end_cons h.highOf h'.highOf, fun q hq hload => ?_⟩
  rcases mem_cons.mp hq with rfl | hq
  · -- this header, in the range the rest of the loop may still widen
    obtain ⟨hsz, hfile, hlow, hhigh⟩ := h.inside q mem_cons_self hload
    exact ⟨hsz, hfile, h'.low.trans hlow, hhigh.trans h'.high⟩
  · exact h'.inside q hq hload

/-- **The inspection loop.** -/
theorem inspectLoop_widened (htable : IsTable file phoff l phs) :
    ∀ {r : LoadRange}, (∀ ph ∈ phs, PhdrWords ph) → r.maxVaddr < 2 ^ 64 →
      Ensures Never (inspectLoop file phoff l r) fun o =>
        ∀ r', o = some r' → Widened file.length phs r r' := by
  induction htable with
  | nil =>
    intro r _ hr r' h
    cases h
    exact ⟨hr, le_refl _, le_refl _, .inl rfl, .inl rfl, fun ph hph => by cases hph⟩
  | @cons i ph l phs hread _ ih =>
    intro r hw hr
    obtain ⟨hph, hphs⟩ := forall_mem_cons.mp hw
    unfold inspectLoop
    rw [hread]
    dsimp only [bind, Except.bind]
    cases hin : inspectPhdr file.length ph r with
    | none =>
      intro r' hr'
      cases hr'
    | some r₁ =>
      have h₁ := inspectPhdr_widened hph hr hin
      exact (ih hphs h₁.word).mono fun o ho r' hr' => h₁.cons (ho r' hr')

/-- What a successful `inspect_load_range` says. -/
structure Inspected (file : List UInt8) (eh : ElfHeader) (phs : List ElfPhdr) (r : LoadRange) : Prop
    extends Widened file.length phs ⟨2 ^ 64 - 1, 0, 0⟩ r where
  nonEmpty : r.minVaddr < r.maxVaddr
  size : r.maxVaddr - r.minVaddr ≤ elfMaxLoadSize
  entryLow : r.minVaddr ≤ eh.eEntry
  entryHigh : eh.eEntry < r.maxVaddr

theorem inspectLoadRange_bounds (htable : IsTable file eh.ePhoff (List.range eh.ePhnum) phs)
    (hw : ∀ ph ∈ phs, PhdrWords ph) :
    Ensures Never (inspectLoadRange file eh) fun o => ∀ r, o = some r → Inspected file eh phs r := by
  unfold inspectLoadRange
  refine (inspectLoop_widened htable hw (by decide)).bind fun o ho => ?_
  cases o with
  | none =>
    intro r hr
    cases hr
  | some r =>
    have hwid := ho r rfl
    refine Ensures.ite (fun _ r' hr' => by cases hr') fun hentry => ?_
    refine Ensures.ite (fun _ r' hr' => by cases hr') fun hsize => ?_
    intro r' hr'
    cases hr'
    simp only [not_or, not_lt, not_le] at hentry hsize
    have hsub : sub64 r.maxVaddr r.minVaddr = r.maxVaddr - r.minVaddr :=
      sub64_of_le (by omega) hwid.word
    rw [hsub] at hsize
    exact ⟨hwid, hsize.1, hsize.2, hentry.2.1, hentry.2.2⟩

/-- The table of a header that passed its checks lies inside the file. -/
theorem inTable_of_headerOk (hw : HeaderWords eh)
    (h : headerOk eh file.length = true) {i : ℕ} (hi : i < eh.ePhnum) :
    InTable file eh.ePhoff i := by
  unfold headerOk rangeInside at h
  simp only [Bool.and_eq_true, beq_iff_eq, Bool.not_eq_true', decide_eq_true_eq] at h
  obtain ⟨⟨⟨-, hsz⟩, -⟩, ⟨hover, -⟩, hend⟩ := h
  have hnum := hw.phnum
  have hmul : eh.ePhentsize * eh.ePhnum < 2 ^ 64 := by
    rw [hsz]
    unfold sizeofElfPhdr
    omega
  rw [(addOverflowU64_of_not hw.phoff hmul hover).1, hsz] at hend
  unfold InTable sizeofElfPhdr at *
  omega

/-! ## §3. The copy loop. -/

/-- The file-backed range of the segment contains the address `a`. -/
def Backs (a : ℕ) (ph : ElfPhdr) : Prop :=
  ph.pType = elfPtLoad ∧ ph.pVaddr ≤ a ∧ a < ph.pVaddr + ph.pFilesz

instance (a : ℕ) (ph : ElfPhdr) : Decidable (Backs a ph) :=
  inferInstanceAs (Decidable (_ ∧ _ ∧ _))

/-- The last header, in table order, that backs the address `a`. -/
def lastBacking (phs : List ElfPhdr) (a : ℕ) : Option ElfPhdr :=
  phs.reverse.find? fun ph => decide (Backs a ph)

theorem lastBacking_cons (ph : ElfPhdr) (phs : List ElfPhdr) (a : ℕ) :
    lastBacking (ph :: phs) a =
      (lastBacking phs a).or (if Backs a ph then some ph else none) := by
  unfold lastBacking
  rw [reverse_cons, find?_append]
  by_cases h : Backs a ph <;> simp [h]

/-- A segment laid over an image: its own bytes inside, the old ones outside. -/
theorem store_laid {im im' : Image} {off n d : ℕ} (hfile : off + n ≤ file.length)
    (h : im.store d ((file.drop off).take n) = .ok im') (k : ℕ) :
    (d ≤ k ∧ k < d + n → file[off + (k - d)]? = some (im'.byte k)) ∧
      (¬ (d ≤ k ∧ k < d + n) → im'.byte k = im.byte k) := by
  unfold Image.store at h
  split at h
  · cases h
    constructor
    · rintro ⟨hle, hlt⟩
      have hget : ((file.drop off).take n)[k - d]? = file[off + (k - d)]? := by
        rw [getElem?_take_of_lt (by omega), getElem?_drop]
      have hin : off + (k - d) < file.length := by omega
      show _ = some (if d ≤ k then (((file.drop off).take n)[k - d]?).getD (im.byte k) else im.byte k)
      rw [if_pos hle, hget, getElem?_eq_getElem hin]
      rfl
    · intro hout
      show (if d ≤ k then (((file.drop off).take n)[k - d]?).getD (im.byte k) else im.byte k) = _
      split
      · rw [getElem?_eq_none (by rw [length_take]; omega)]
        rfl
      · rfl
  · cases h

/-- Byte `k` of `im'`, after the segments `phs` were laid over `im` at base `lo`. -/
def Laid (file : List UInt8) (phs : List ElfPhdr) (lo : ℕ) (im im' : Image) (k : ℕ) : Prop :=
  match lastBacking phs (lo + k) with
  | some ph => file[ph.pOffset + (lo + k - ph.pVaddr)]? = some (im'.byte k)
  | none => im'.byte k = im.byte k

/-- A header decides the bytes it backs, unless a later one does. -/
theorem Laid.cons {im im₁ im' : Image} {lo k : ℕ}
    (hin : Backs (lo + k) ph → file[ph.pOffset + (lo + k - ph.pVaddr)]? = some (im₁.byte k))
    (hout : ¬ Backs (lo + k) ph → im₁.byte k = im.byte k)
    (h : Laid file phs lo im₁ im' k) : Laid file (ph :: phs) lo im im' k := by
  unfold Laid at h ⊢
  rw [lastBacking_cons]
  cases hlast : lastBacking phs (lo + k) with
  | some q =>
    rw [hlast] at h
    exact h
  | none =>
    rw [hlast] at h
    by_cases hback : Backs (lo + k) ph
    · rw [if_pos hback]
      show _ = some (im'.byte k)
      rw [h]
      exact hin hback
    · rw [if_neg hback]
      exact h.trans (hout hback)

/-- **The copy loop** over headers that are `Inside`. -/
theorem copyLoop_laid (hr : r.maxVaddr < 2 ^ 64) (htable : IsTable file phoff l phs) :
    ∀ {im : Image}, (∀ ph ∈ phs, ph.pType = elfPtLoad → Inside file.length r ph) →
    im.size = r.maxVaddr - r.minVaddr →
    ∃ im', copyLoop file phoff r.minVaddr l im = .ok (.ok im') ∧ im'.size = im.size ∧
      ∀ k, Laid file phs r.minVaddr im im' k := by
  -- induction over the table, for every image the loop may have reached
  induction htable with
  | nil =>
    intro im _ _
    exact ⟨im, rfl, rfl, fun _ => rfl⟩
  | @cons i ph l phs hread _ ih =>
    intro im hseg hsize
    have hseg' : ∀ q ∈ phs, q.pType = elfPtLoad → Inside file.length r q :=
      fun q hq => hseg q (mem_cons_of_mem ph hq)
    unfold copyLoop
    rw [hread]
    show ∃ im', (if ph.pType ≠ elfPtLoad then _ else _) = _ ∧ _
    by_cases hload : ph.pType = elfPtLoad
    swap
    · obtain ⟨im', hcopy, hsize', hlaid⟩ := ih hseg' hsize
      refine ⟨im', (if_pos hload).trans hcopy, hsize', fun k => ?_⟩
      exact .cons (fun hback => absurd hback.1 hload) (fun _ => rfl) (hlaid k)
    obtain ⟨hfm, hfile, hlow, hhigh⟩ := hseg ph mem_cons_self hload
    have hdest : sub64 ph.pVaddr r.minVaddr = ph.pVaddr - r.minVaddr := sub64_of_le hlow (by omega)
    have hbytes : rdBytes file ph.pOffset ph.pFilesz =
        .ok ((file.drop ph.pOffset).take ph.pFilesz) := if_pos (.inr hfile)
    have hlen : ((file.drop ph.pOffset).take ph.pFilesz).length ≤ ph.pFilesz := length_take_le _ _
    obtain ⟨im₁, hstore, hsize₁⟩ : ∃ im₁, im.store (ph.pVaddr - r.minVaddr)
        ((file.drop ph.pOffset).take ph.pFilesz) = .ok im₁ ∧ im₁.size = im.size :=
      ⟨_, if_pos (.inr (by omega)), rfl⟩
    obtain ⟨im', hcopy, hsize', hlaid⟩ := ih hseg' (hsize₁.trans hsize)
    refine ⟨im', ?_, hsize'.trans hsize₁, fun k => ?_⟩
    · -- the error branch: the segment ends inside the range that was measured
      rw [if_neg (not_not.mpr hload), hdest, if_neg (by omega), hbytes]
      show (im.store _ _ >>= _) = _
      rw [hstore]
      exact hcopy
    · obtain ⟨hin, hout⟩ := store_laid hfile hstore k
      refine .cons (fun hback => ?_) (fun hback => hout fun hk => hback ⟨hload, by omega, by omega⟩)
        (hlaid k)
      have hidx : r.minVaddr + k - ph.pVaddr = k - (ph.pVaddr - r.minVaddr) := by omega
      have hlo := hback.2.1
      have hhi := hback.2.2
      rw [hidx]
      exact hin ⟨by omega, by omega⟩

/-! ## §4. The loader. -/

/-- What `elf_validate` answers with. -/
theorem elfValidate_bounds (file : List UInt8) :
    Ensures Never (elfValidate file) fun ok => ok = true →
      ∃ eh phs r, readHeader file = .ok eh ∧ inspectLoadRange file eh = .ok (some r) ∧
        IsTable file eh.ePhoff (List.range eh.ePhnum) phs ∧ Inspected file eh phs r := by
  unfold elfValidate
  refine Ensures.ite (fun _ hfalse => by cases hfalse) fun hlen => ?_
  have hread := readHeader_bounds (not_lt.mp hlen)
  cases heh : readHeader file with
  | error e => exact absurd hread (by rw [heh]; exact fun hfalse => hfalse)
  | ok eh =>
    have hw := hread.value heh
    refine Ensures.ite (fun hok => ?_) fun _ hfalse => by cases hfalse
    obtain ⟨phs, htable, hwords⟩ := exists_isTable (List.range eh.ePhnum)
      fun i hi => inTable_of_headerOk hw hok (mem_range.mp hi)
    have hins := inspectLoadRange_bounds htable hwords
    cases hr : inspectLoadRange file eh with
    | error e => exact absurd hins (by rw [hr]; exact fun hfalse => hfalse)
    | ok o =>
      intro hsome
      obtain ⟨r, rfl⟩ := Option.isSome_iff_exists.mp hsome
      exact ⟨eh, phs, r, rfl, hr, htable, hins.value hr r rfl⟩

/-- **The copy of an accepted file** fills an image of the size that was measured. -/
theorem Inspected.copies (h : Inspected file eh phs r)
    (htable : IsTable file eh.ePhoff (List.range eh.ePhnum) phs) :
    ∃ im, copyLoop file eh.ePhoff r.minVaddr (List.range eh.ePhnum)
        ⟨sub64 r.maxVaddr r.minVaddr, fun _ => 0⟩ = .ok (.ok im) ∧
      im.size = sub64 r.maxVaddr r.minVaddr ∧
      ∀ k, Laid file phs r.minVaddr ⟨sub64 r.maxVaddr r.minVaddr, fun _ => 0⟩ im k :=
  copyLoop_laid h.word htable h.inside (sub64_of_le (le_of_lt h.nonEmpty) h.word)

/-- The loader after a successful validation. -/
theorem elfLoadProcessImage_eq (procAlloc : ℕ → ℕ)
    (hv : elfValidate file = .ok true) (heh : readHeader file = .ok eh)
    (hr : inspectLoadRange file eh = .ok (some r)) :
    elfLoadProcessImage procAlloc true file =
      if procAlloc (sub64 r.maxVaddr r.minVaddr) = 0 then .ok (.error .noMemory)
      else copyLoop file eh.ePhoff r.minVaddr (List.range eh.ePhnum)
          ⟨sub64 r.maxVaddr r.minVaddr, fun _ => 0⟩ >>= fun o =>
        match o with
        | .error e => .ok (.error e)
        | .ok im => .ok (.ok
            (⟨r.minVaddr, r.maxVaddr, procAlloc (sub64 r.maxVaddr r.minVaddr),
              sub64 r.maxVaddr r.minVaddr,
              add64 (procAlloc (sub64 r.maxVaddr r.minVaddr)) (sub64 eh.eEntry r.minVaddr)⟩, im)) := by
  unfold elfLoadProcessImage
  rw [hv]
  show (readHeader file >>= _) = _
  rw [heh]
  show (inspectLoadRange file eh >>= _) = _
  rw [hr]
  rfl

/-- **The ELF loader is in bounds on every file.**  `elf_validate` and
`elf_load_process_image` return, so no read has left the file and no copy has left
the image; the loader's test of `dest_off` never fails; and for an accepted file the
image has at most 16 MiB and contains the entry point. -/
theorem elf_in_bounds (file : List UInt8) (procAlloc : ℕ → ℕ) (out : Bool) :
    ∃ valid res, elfValidate file = .ok valid ∧ elfLoadProcessImage procAlloc out file = .ok res ∧
      res ≠ .error .badSegment ∧
      (valid = true → ∃ eh r, readHeader file = .ok eh ∧
        inspectLoadRange file eh = .ok (some r) ∧
        sub64 r.maxVaddr r.minVaddr ≤ elfMaxLoadSize ∧
        r.minVaddr ≤ eh.eEntry ∧ sub64 eh.eEntry r.minVaddr < sub64 r.maxVaddr r.minVaddr ∧
        (out = true → procAlloc (sub64 r.maxVaddr r.minVaddr) ≠ 0 →
          ∃ image bytes, res = .ok (image, bytes) ∧
            image.loadSize = sub64 r.maxVaddr r.minVaddr ∧ bytes.size = image.loadSize)) := by
  have hval := elfValidate_bounds file
  obtain ⟨valid, hv⟩ := hval.total fun _ h => h
  cases valid with
  | false =>
    cases out with
    | false => exact ⟨false, .error .noOut, hv, rfl, fun h => (by cases h), fun h => by cases h⟩
    | true =>
      refine ⟨false, .error .invalid, hv, ?_, fun h => (by cases h), fun h => by cases h⟩
      unfold elfLoadProcessImage
      rw [hv]
      rfl
  | true =>
    obtain ⟨eh, phs, r, heh, hr, htable, hins⟩ := hval.value hv rfl
    have hload := elfLoadProcessImage_eq procAlloc hv heh hr
    have hsub : sub64 r.maxVaddr r.minVaddr = r.maxVaddr - r.minVaddr :=
      sub64_of_le (le_of_lt hins.nonEmpty) hins.word
    have hentry : sub64 eh.eEntry r.minVaddr = eh.eEntry - r.minVaddr :=
      sub64_of_le hins.entryLow (lt_trans hins.entryHigh hins.word)
    have hlt : sub64 eh.eEntry r.minVaddr < sub64 r.maxVaddr r.minVaddr := by
      have h1 := hins.entryLow
      have h2 := hins.entryHigh
      rw [hsub, hentry]
      omega
    have hmax : sub64 r.maxVaddr r.minVaddr ≤ elfMaxLoadSize := hsub ▸ hins.size
    cases out with
    | false =>
      refine ⟨true, .error .noOut, hv, rfl, fun h => (by cases h), fun _ => ?_⟩
      exact ⟨eh, r, heh, hr, hmax, hins.entryLow, hlt, fun h => absurd h Bool.false_ne_true⟩
    | true =>
      by_cases hbase : procAlloc (sub64 r.maxVaddr r.minVaddr) = 0
      · rw [if_pos hbase] at hload
        refine ⟨true, .error .noMemory, hv, hload, fun h => (by cases h), fun _ => ?_⟩
        exact ⟨eh, r, heh, hr, hmax, hins.entryLow, hlt, fun _ h => absurd hbase h⟩
      · obtain ⟨im, ho, hsize, -⟩ := hins.copies htable
        rw [if_neg hbase, ho] at hload
        refine ⟨true, _, hv, hload, fun h => (by cases h), fun _ => ?_⟩
        exact ⟨eh, r, heh, hr, hmax, hins.entryLow, hlt, fun _ _ => ⟨_, im, rfl, rfl, hsize⟩⟩

end ExoCore.Elf
