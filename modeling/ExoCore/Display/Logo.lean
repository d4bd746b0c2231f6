/-
  ExoCore.Display.Logo — the EXOIMG image format: its encoder
  (`tools/png_to_exoimg.py`), its validator (`kernel/exoimg.c`) and the drawer of the
  boot logo (`kernel/bootlogo.c`).

  The three agree on one format:

    • `exoimgValidate_iff` — what the validator accepts, field by field,
    • `written_header`     — the encoder's header reads back as it was packed,
    • `draw_inside`        — the drawer stays inside what the validator accepted,
    • `exoimg_agree`       — the three together.
-/
import ExoCore.Display.Framebuffer
import Mathlib.Tactic.Linarith

namespace ExoCore.Display

open ExoCore.Lib List

/-! ## §1. The three programs. -/

/-- `MAGIC`, `"EXOIMG1\0"`. -/
def exoimgMagic : List UInt8 := [69, 88, 79, 73, 77, 71, 49, 0]

/-- `EXOIMG_FORMAT_RGBA8888`. -/
def exoimgFormatRgba8888 : ℕ := 1

/-- `EXOIMG_MAX_DIM`. -/
def exoimgMaxDim : ℕ := 4096

/-- `EXOIMG_MAX_BYTES`. -/
def exoimgMaxBytes : ℕ := 32 * 1024 * 1024

/-- `sizeof(exoimg_header_t)`. -/
def sizeofExoimgHeader : ℕ := 24

/-- `struct.pack("<8sIIII", …)`: `none` where a number does not fit its field. -/
def structPack (width height format dataSize : ℕ) : Option (List UInt8) :=
  if width < 2 ^ 32 ∧ height < 2 ^ 32 ∧ format < 2 ^ 32 ∧ dataSize < 2 ^ 32 then
    some (exoimgMagic ++ (leBytes 4 width ++ (leBytes 4 height ++ (leBytes 4 format ++
      leBytes 4 dataSize))))
  else none

/-- `main` of `png_to_exoimg.py`, from the decoded image on: the file it writes, if any. -/
def pngToExoimg (width height : ℕ) (pixels : List UInt8) : Option (List UInt8) :=
  if width = 0 ∨ height = 0 then none
  else if pixels.length ≠ width * height * 4 then none
  else do
    let header ← structPack width height exoimgFormatRgba8888 pixels.length
    some (header ++ pixels)

/-- `exoimg_header_t`, behind its magic. -/
structure ExoimgHeader where
  width : ℕ
  height : ℕ
  format : ℕ
  dataSize : ℕ
  deriving Repr, DecidableEq

/-- The header at the start of a buffer. -/
def exoimgHeader (buf : List UInt8) : ExoimgHeader :=
  let field := fun off => rdLE (fun i => buf.getD i 0) off 4
  ⟨field 8, field 12, field 16, field 20⟩

/-- `exoimg_validate`: the header it reports, or `none` for `-1`. -/
def exoimgValidate (buf : List UInt8) : Option ExoimgHeader :=
  if buf.length < sizeofExoimgHeader then none
  else
    let h := exoimgHeader buf
    if buf.take 8 ≠ exoimgMagic then none
    else if h.width = 0 ∨ h.height = 0 ∨ exoimgMaxDim < h.width ∨ exoimgMaxDim < h.height then none
    else if h.format ≠ exoimgFormatRgba8888 then none
    else
      let expected := h.width * h.height * 4 % 2 ^ 64
      if exoimgMaxBytes < expected ∨ h.dataSize ≠ expected % 2 ^ 32 then none
      else if buf.length < sizeofExoimgHeader + h.dataSize then none
      else some h

/-- The static data of `bootlogo.c`. -/
structure Logo where
  logoX : ℕ
  logoY : ℕ
  logoW : ℕ
  logoH : ℕ
  lastProgressPercent : ℕ
  logoPositionValid : Bool

/-- `bootlogo_draw_from_vfs`, for the buffer that it has read from the file. -/
def bootlogoDraw (fb : Framebuffer) (buf : List UInt8) (s : Logo) (m : Bytes) :
    Except Fault (Bool × Logo × Bytes) :=
  if fb.enabled then
    match exoimgValidate buf with
    | none => .ok (false, s, m)
    | some h => do
      let totalH := add32 (add32 h.height 54) 8
      let x := if h.width < fb.logicalWidth then (fb.logicalWidth - h.width) / 2 else 0
      let y := if totalH < fb.logicalHeight then (fb.logicalHeight - totalH) / 2 else 0
      let (ok, m) ← framebufferBlitRgba8888 fb x y h.width h.height buf sizeofExoimgHeader
        (mul32 h.width 4) m
      .ok (ok, ⟨x, y, h.width, h.height, 0, true⟩, m)
  else .ok (false, s, m)

/-! ## §2. The validator. -/

/-- What the validator accepts. -/
structure Accepted (buf : List UInt8) (h : ExoimgHeader) : Prop where
  magic : buf.take 8 = exoimgMagic
  header : exoimgHeader buf = h
  width : 0 < h.width ∧ h.width ≤ exoimgMaxDim
  height : 0 < h.height ∧ h.height ≤ exoimgMaxDim
  format : h.format = exoimgFormatRgba8888
  bytes : h.width * h.height * 4 ≤ exoimgMaxBytes
  dataSize : h.dataSize = h.width * h.height * 4
  size : sizeofExoimgHeader + h.dataSize ≤ buf.length

variable {h w : ℕ} {buf : List UInt8} {fb : Framebuffer}

theorem area_le (hw : w ≤ exoimgMaxDim) (hh : h ≤ exoimgMaxDim) :
    w * h * 4 ≤ 2 ^ 26 := by
  have hmul := Nat.mul_le_mul hw hh
  unfold exoimgMaxDim at hmul
  omega

/-- **The validator.** -/
theorem exoimgValidate_iff {h : ExoimgHeader} :
    exoimgValidate buf = some h ↔ Accepted buf h := by
  unfold exoimgValidate
  constructor
  · intro hv
    split at hv
    · cases hv
    dsimp only at hv
    split at hv
    · cases hv
    rename_i hmagic
    split at hv
    · cases hv
    rename_i hdim
    split at hv
    · cases hv
    rename_i hformat
    split at hv
    · cases hv
    rename_i hbytes
    split at hv
    · cases hv
    rename_i hsize
    cases hv
    simp only [not_or, not_lt, not_not, ne_eq] at hmagic hdim hformat hbytes hsize
    obtain ⟨hw0, hh0, hw, hh⟩ := hdim
    have harea := area_le hw hh
    rw [Nat.mod_eq_of_lt (a := _ * _ * 4) (by omega)] at hbytes
    rw [Nat.mod_eq_of_lt (a := _ * _ * 4) (by omega)] at hbytes
    exact ⟨hmagic, rfl, ⟨Nat.pos_of_ne_zero hw0, hw⟩, ⟨Nat.pos_of_ne_zero hh0, hh⟩, hformat,
      hbytes.1, hbytes.2, hsize⟩
  · rintro ⟨hmagic, rfl, ⟨hw0, hw⟩, ⟨hh0, hh⟩, hformat, hbytes, hdata, hsize⟩
    have harea := area_le hw hh
    have h64 : (exoimgHeader buf).width * (exoimgHeader buf).height * 4 % 2 ^ 64 =
        (exoimgHeader buf).width * (exoimgHeader buf).height * 4 := Nat.mod_eq_of_lt (by omega)
    have h32 : (exoimgHeader buf).width * (exoimgHeader buf).height * 4 % 2 ^ 32 =
        (exoimgHeader buf).width * (exoimgHeader buf).height * 4 := Nat.mod_eq_of_lt (by omega)
    rw [if_neg (by omega)]
    dsimp only
    rw [if_neg (not_not.mpr hmagic), if_neg (by omega), if_neg (not_not.mpr hformat), h64, h32,
      if_neg (by rw [hdata]; omega), if_neg (by omega)]

/-! ## §3. The encoder. -/

/-- The bytes that `struct.pack` and the two writes make. -/
theorem pngToExoimg_iff {pixels file : List UInt8} :
    pngToExoimg w h pixels = some file ↔
      0 < w ∧ 0 < h ∧ pixels.length = w * h * 4 ∧ w < 2 ^ 32 ∧ h < 2 ^ 32 ∧ w * h * 4 < 2 ^ 32 ∧
        file = exoimgMagic ++ (leBytes 4 w ++ (leBytes 4 h ++ (leBytes 4 exoimgFormatRgba8888 ++
          (leBytes 4 (w * h * 4) ++ pixels)))) := by
  unfold pngToExoimg structPack
  constructor
  · intro hp
    split at hp
    · cases hp
    rename_i hdim
    split at hp
    · cases hp
    rename_i hlen
    rw [not_not] at hlen
    rw [hlen] at hp
    split at hp
    · rename_i hfits
      cases hp
      refine ⟨by omega, by omega, hlen, hfits.1, hfits.2.1, hfits.2.2.2, ?_⟩
      simp only [append_assoc]
    · cases hp
  · rintro ⟨hw0, hh0, hlen, hw, hh, hbytes, rfl⟩
    rw [if_neg (by omega), if_neg (not_not.mpr hlen), hlen, if_pos ⟨hw, hh, by decide, hbytes⟩]
    simp only [Option.bind_eq_bind, Option.bind_some, append_assoc]

/-- **The encoder's header reads back as it was packed.** -/
theorem written_header {d : ℕ} (pixels : List UInt8) (hw : w < 2 ^ 32) (hh : h < 2 ^ 32)
    (hd : d < 2 ^ 32) :
    exoimgHeader (exoimgMagic ++ (leBytes 4 w ++ (leBytes 4 h ++ (leBytes 4 exoimgFormatRgba8888 ++
      (leBytes 4 d ++ pixels))))) = ⟨w, h, exoimgFormatRgba8888, d⟩ := by
  have hpow : (256 : ℕ) ^ 4 = 2 ^ 32 := by decide
  have hlen : ∀ v, (leBytes 4 v).length = 4 := length_leBytes 4
  generalize hfile : exoimgMagic ++ (leBytes 4 w ++ (leBytes 4 h ++ (leBytes 4 exoimgFormatRgba8888 ++
      (leBytes 4 d ++ pixels)))) = file
  -- each field, behind the ones before it
  have h0 : rdLE (fun i => file.getD i 0) 8 4 = w :=
    rdLE_leBytes exoimgMagic _ hfile.symm (hpow ▸ hw)
  have h1 : rdLE (fun i => file.getD i 0) 12 4 = h := by
    have := rdLE_leBytes (l := file) (n := 4) (v := h) (exoimgMagic ++ leBytes 4 w) _
      (by rw [← hfile, append_assoc]) (hpow ▸ hh)
    rw [length_append, hlen] at this
    exact this
  have h2 : rdLE (fun i => file.getD i 0) 16 4 = exoimgFormatRgba8888 := by
    have := rdLE_leBytes (l := file) (n := 4) (v := exoimgFormatRgba8888)
      (exoimgMagic ++ (leBytes 4 w ++ leBytes 4 h)) (leBytes 4 d ++ pixels)
      (by rw [← hfile]; simp only [append_assoc]) (by decide)
    rw [length_append, length_append, hlen, hlen] at this
    exact this
  have h3 : rdLE (fun i => file.getD i 0) 20 4 = d := by
    have := rdLE_leBytes (l := file) (n := 4) (v := d)
      (exoimgMagic ++ (leBytes 4 w ++ (leBytes 4 h ++ leBytes 4 exoimgFormatRgba8888))) pixels
      (by rw [← hfile]; simp only [append_assoc]) (hpow ▸ hd)
    rw [length_append, length_append, length_append, hlen, hlen, hlen] at this
    exact this
  unfold exoimgHeader
  dsimp only
  rw [h0, h1, h2, h3]

/-- What the validator says of a file that the encoder wrote. -/
theorem written_accepted {pixels file : List UInt8} {hd : ExoimgHeader}
    (hfile : pngToExoimg w h pixels = some file) :
    Accepted file hd ↔ hd = ⟨w, h, exoimgFormatRgba8888, w * h * 4⟩ ∧ w ≤ exoimgMaxDim ∧
      h ≤ exoimgMaxDim ∧ w * h * 4 ≤ exoimgMaxBytes := by
  obtain ⟨hw0, hh0, hlen, hw, hh, hbytes, hfile⟩ := pngToExoimg_iff.mp hfile
  have hheader := written_header pixels hw hh hbytes
  rw [← hfile] at hheader
  constructor
  · intro ha
    have heq := ha.header
    rw [hheader] at heq
    subst heq
    exact ⟨rfl, ha.width.2, ha.height.2, ha.bytes⟩
  · rintro ⟨rfl, hwmax, hhmax, hmax⟩
    refine ⟨?_, hheader, ⟨hw0, hwmax⟩, ⟨hh0, hhmax⟩, rfl, hmax, rfl, ?_⟩
    · rw [hfile]
      rfl
    · rw [hfile]
      simp only [length_append, length_leBytes, hlen]
      show 24 + w * h * 4 ≤ 8 + _
      omega

/-! ## §4. The drawer. -/

/-- No read may leave the source buffer. -/
def NoFault (_ : Fault) : Prop := False

theorem srcByte_inside {i : ℕ} (h : i < buf.length) :
    Ensures NoFault (srcByte buf i) fun _ => True := by
  unfold srcByte
  rw [getElem?_eq_getElem h]
  exact trivial

theorem blitPixel_inside {p : ℕ} (x y : ℕ) (m : Bytes)
    (h : p + 3 < buf.length) : Ensures NoFault (blitPixel fb buf x y p m) fun _ => True := by
  refine (srcByte_inside h).bind fun a _ => Ensures.ite (fun _ => trivial) fun _ => ?_
  refine (srcByte_inside (by omega)).bind fun p0 _ => (srcByte_inside (by omega)).bind fun p1 _ =>
    (srcByte_inside (by omega)).bind fun p2 _ => ?_
  exact Ensures.ite (fun _ => trivial) fun _ => trivial

/-- The last byte of the pixel in row `row` and column `col` of an image of `w` by `h`. -/
theorem pixel_index_lt {row col : ℕ} (hrow : row < h) (hcol : col < w) :
    row * (w * 4) + col * 4 + 3 < w * h * 4 := by
  have hrows : (row + 1) * (w * 4) ≤ h * (w * 4) := Nat.mul_le_mul_right _ hrow
  have harea : h * (w * 4) = w * h * 4 := by
    rw [← Nat.mul_assoc, Nat.mul_comm h w]
  rw [Nat.add_mul, Nat.one_mul] at hrows
  omega

/-- A blit of a whole image whose pixels all lie in the buffer. -/
theorem blit_inside {rgba : ℕ} (x y : ℕ) (m : Bytes)
    (harea : w * h * 4 < 2 ^ 32) (hw : w * 4 < 2 ^ 32) (hbuf : rgba + w * h * 4 ≤ buf.length) :
    Ensures NoFault (framebufferBlitRgba8888 fb x y w h buf rgba (mul32 w 4) m) fun _ => True := by
  unfold framebufferBlitRgba8888
  refine Ensures.ite (fun _ => trivial) fun _ => Ensures.ite (fun _ => trivial) fun _ => ?_
  have hstride : (if mul32 w 4 = 0 then mul32 w 4 else mul32 w 4) = w * 4 := by
    rw [ite_self]
    exact mul32_of_lt hw
  rw [hstride]
  refine Ensures.ite (fun _ => trivial) fun _ => ?_
  refine Ensures.bind (P := fun _ => True) ?_ fun _ _ => trivial
  -- the clipped width and height only make the loops shorter
  refine Ensures.forUptoM m fun row mr hrow => Ensures.forUptoM mr fun col mc hcol => ?_
  have hrow' : row < h := lt_of_lt_of_le hrow (by split <;> omega)
  have hcol' : col < w := lt_of_lt_of_le hcol (by split <;> omega)
  have hidx := pixel_index_lt hrow' hcol'
  rw [mul32_of_lt (a := row) (by omega), mul32_of_lt (a := col) (by omega)]
  exact blitPixel_inside _ _ mc (by omega)

/-- **The drawer stays inside an accepted buffer.** -/
theorem draw_inside {hd : ExoimgHeader}
    (ha : Accepted buf hd) (s : Logo) (m : Bytes) :
    Ensures NoFault (bootlogoDraw fb buf s m) fun _ => True := by
  have harea := area_le ha.width.2 ha.height.2
  have hwidth := ha.width.2
  have hsize := ha.size
  have hmax : exoimgMaxDim = 4096 := rfl
  rw [ha.dataSize] at hsize
  unfold bootlogoDraw
  refine Ensures.ite (fun _ => ?_) fun _ => trivial
  rw [exoimgValidate_iff.mpr ha]
  exact (blit_inside _ _ m (by omega) (by omega) hsize).bind fun _ _ => trivial

/-! ## §5. Agreement. -/

/-- **Encoder, validator and drawer agree.**  The file written for an image is accepted,
with the image's own dimensions and size reported, exactly when the image is within the
validator's limits; and the drawer returns on every accepted buffer, so no read of its
blit has left the buffer, for every framebuffer. -/
theorem exoimg_agree (w h : ℕ) (pixels : List UInt8) (hw : 1 ≤ w) (hw' : w < 2 ^ 32) (hh : 1 ≤ h)
    (hh' : h < 2 ^ 32) (hpixels : pixels.length = w * h * 4) (buf : List UInt8) (hd : ExoimgHeader)
    (hbuf : exoimgValidate buf = some hd) (fb : Framebuffer) (s : Logo) (m : Bytes) :
    ((∃ file, pngToExoimg w h pixels = some file ∧
        exoimgValidate file = some ⟨w, h, exoimgFormatRgba8888, w * h * 4⟩) ↔
      w ≤ 4096 ∧ h ≤ 4096 ∧ w * h * 4 ≤ 32 * 1024 * 1024) ∧
    (∀ file hd, pngToExoimg w h pixels = some file → exoimgValidate file = some hd →
      hd = ⟨w, h, exoimgFormatRgba8888, w * h * 4⟩) ∧
    ∃ r, bootlogoDraw fb buf s m = .ok r := by
  refine ⟨⟨?_, ?_⟩, ?_, ?_⟩
  · rintro ⟨file, hfile, hv⟩
    exact ((written_accepted hfile).mp (exoimgValidate_iff.mp hv)).2
  · intro hlimits
    have hbytes : w * h * 4 < 2 ^ 32 := lt_of_le_of_lt hlimits.2.2 (by decide)
    have hfile := pngToExoimg_iff.mpr ⟨hw, hh, hpixels, hw', hh', hbytes, rfl⟩
    exact ⟨_, hfile, exoimgValidate_iff.mpr ((written_accepted hfile).mpr ⟨rfl, hlimits⟩)⟩
  · intro file hd' hfile hv
    exact ((written_accepted hfile).mp (exoimgValidate_iff.mp hv)).1
  · exact (draw_inside (exoimgValidate_iff.mp hbuf) s m).total fun _ hfalse => hfalse

/-- The pixels of an image of two by two, the last one transparent. -/
def fourPixels : List UInt8 :=
  [10, 20, 30, 255, 40, 50, 60, 255, 70, 80, 90, 128, 0, 0, 0, 0]

/-- The image, as the encoder writes it. -/
def fourPixelImage : List UInt8 :=
  exoimgMagic ++ [2, 0, 0, 0, 2, 0, 0, 0, 1, 0, 0, 0, 16, 0, 0, 0] ++ fourPixels

/-- A 32-bit mode of 8 by 80 pixels. -/
def trueColor : Framebuffer :=
  framebufferEnable (framebufferConfigure .zero
    ⟨0xE0000000, 32, 8, 80, 32, 1, 16, 8, 8, 8, 0, 8, 24, 8⟩) true

/-- The image drawn in the middle of the screen. -/
theorem exoimg_agree_fourPixels :
    exoimgValidate fourPixelImage = some ⟨2, 2, 1, 16⟩ ∧
      (∃ file, pngToExoimg 2 2 fourPixels = some file ∧
        exoimgValidate file = some ⟨2, 2, 1, 16⟩) ∧
      ∃ r, bootlogoDraw trueColor fourPixelImage ⟨0, 0, 0, 0, 0, false⟩ (fun _ => 0) = .ok r ∧
        r.1 = true ∧ r.2.1.logoX = 3 := by
  have hbuf : exoimgValidate fourPixelImage = some ⟨2, 2, 1, 16⟩ := by decide
  obtain ⟨hiff, -, r, hdraw⟩ := exoimg_agree 2 2 fourPixels (by decide) (by decide) (by decide)
    (by decide) rfl fourPixelImage _ hbuf trueColor ⟨0, 0, 0, 0, 0, false⟩ fun _ => 0
  have hdrawn : (bootlogoDraw trueColor fourPixelImage ⟨0, 0, 0, 0, 0, false⟩
      fun _ => 0).map (fun r => (r.1, r.2.1.logoX)) = .ok (true, 3) := by decide +kernel
  rw [hdraw] at hdrawn
  obtain ⟨hok, hx⟩ := Prod.mk.inj (Except.ok.inj hdrawn)
  exact ⟨hbuf, hiff.mpr (by decide), r, hdraw, hok, hx⟩

end ExoCore.Display
