/-
  ExoCore.Display.Framebuffer — the framebuffer of `kernel/framebuffer.c`.

  The configuration (`framebuffer_state_t`) is a record; the pixels are a byte store
  addressed from `fb.base`.  `py * fb.pitch` and `px * fb.bytes_per_pixel` are 32-bit
  products, their sum is taken on the pointer.

  The two presenters share the arithmetic before their loops (`gridLayout`) and the
  drawing of one cell (`drawGridCell`): the source repeats both, word for word.  A
  cell array is a function of the index, so the tests for a null array are left out.

  The blitters read their source through a CHECKED access: outside the buffer it is a
  `Fault`.  The shifts that C leaves undefined (a colour position or size of 32 or
  more, a fifth byte of a pixel) are those of `ℕ`.
-/
import ExoCore.Display.Font
import ExoCore.Lib.Bytes
import ExoCore.Lib.Loop

namespace ExoCore.Display

open ExoCore.Lib

/-! ## §1. The configuration. -/

/-- `framebuffer_state_t`, without `base`. -/
structure Framebuffer where
  width : ℕ
  height : ℕ
  pitch : ℕ
  bpp : ℕ
  bytesPerPixel : ℕ
  redPosition : ℕ
  redSize : ℕ
  greenPosition : ℕ
  greenSize : ℕ
  bluePosition : ℕ
  blueSize : ℕ
  reservedPosition : ℕ
  reservedSize : ℕ
  palette : ℕ → ℕ
  logicalWidth : ℕ
  logicalHeight : ℕ
  rotate90Cw : Bool
  available : Bool
  enabled : Bool

/-- `static framebuffer_state_t fb = {0}`. -/
def Framebuffer.zero : Framebuffer :=
  ⟨0, 0, 0, 0, 0, 0, 0, 0, 0, 0, 0, 0, 0, fun _ => 0, 0, 0, false, false, false⟩

/-- `vga_palette`. -/
def vgaPalette : List (ℕ × ℕ × ℕ) :=
  [(0x00, 0x00, 0x00), (0x00, 0x00, 0xAA), (0x00, 0xAA, 0x00), (0x00, 0xAA, 0xAA),
   (0xAA, 0x00, 0x00), (0xAA, 0x00, 0xAA), (0xAA, 0x55, 0x00), (0xAA, 0xAA, 0xAA),
   (0x55, 0x55, 0x55), (0x55, 0x55, 0xFF), (0x55, 0xFF, 0x55), (0x55, 0xFF, 0xFF),
   (0xFF, 0x55, 0x55), (0xFF, 0x55, 0xFF), (0xFF, 0xFF, 0x55), (0xFF, 0xFF, 0xFF)]

/-- `scale_component`. -/
def scaleComponent (value size : ℕ) : ℕ :=
  if size = 0 then 0
  else if 8 ≤ size then value
  else (value * (2 ^ size - 1) + 127) / 255

/-- `pack_color`. -/
def packColor (fb : Framebuffer) (r g b : ℕ) : ℕ :=
  let color := (scaleComponent r fb.redSize * 2 ^ fb.redPosition % 2 ^ 32) |||
    (scaleComponent g fb.greenSize * 2 ^ fb.greenPosition % 2 ^ 32) |||
    (scaleComponent b fb.blueSize * 2 ^ fb.bluePosition % 2 ^ 32)
  if 0 < fb.reservedSize then
    color ||| (scaleComponent 0xFF fb.reservedSize * 2 ^ fb.reservedPosition % 2 ^ 32)
  else color

/-- `refresh_palette`. -/
def refreshPalette (fb : Framebuffer) : Framebuffer :=
  { fb with palette := fun i =>
      match vgaPalette[i]? with
      | some (r, g, b) => packColor fb r g b
      | none => fb.palette i }

/-- The arguments of `framebuffer_configure`. -/
structure Mode where
  addr : ℕ
  pitch : ℕ
  width : ℕ
  height : ℕ
  bpp : ℕ
  type : ℕ
  redPosition : ℕ
  redSize : ℕ
  greenPosition : ℕ
  greenSize : ℕ
  bluePosition : ℕ
  blueSize : ℕ
  reservedPosition : ℕ
  reservedSize : ℕ

/-- `framebuffer_configure`. -/
def framebufferConfigure (fb : Framebuffer) (a : Mode) : Framebuffer :=
  if a.addr = 0 ∨ a.width = 0 ∨ a.height = 0 ∨ a.bpp = 0 then
    { fb with available := false, enabled := false }
  else
    let bytesPerPixel := (a.bpp + 7) / 8
    let fb :=
      { fb with
        pitch := a.pitch, width := a.width, height := a.height, bpp := a.bpp
        bytesPerPixel := bytesPerPixel
        redPosition := a.redPosition, redSize := a.redSize
        greenPosition := a.greenPosition, greenSize := a.greenSize
        bluePosition := a.bluePosition, blueSize := a.blueSize
        reservedPosition := a.reservedPosition, reservedSize := a.reservedSize
        available := a.type == 1 && decide (2 ≤ bytesPerPixel) }
    if fb.available then
      let rotate := a.pitch / bytesPerPixel == a.height && a.width != a.height
      refreshPalette
        { fb with
          rotate90Cw := rotate
          logicalWidth := if rotate then a.height else a.width
          logicalHeight := if rotate then a.width else a.height }
    else
      { fb with enabled := false, rotate90Cw := false, logicalWidth := 0, logicalHeight := 0 }

/-- `framebuffer_enable`. -/
def framebufferEnable (fb : Framebuffer) (enabled : Bool) : Framebuffer :=
  { fb with enabled := enabled && fb.available }

/-- `framebuffer_text_rows`. -/
def framebufferTextRows (fb : Framebuffer) : ℕ :=
  if fb.logicalHeight / 10 = 0 then 1 else fb.logicalHeight / 10

/-! ## §2. Pixels. -/

/-- The column and row in memory of the logical pixel `(x, y)`. -/
def physical (fb : Framebuffer) (x y : ℕ) : ℕ × ℕ :=
  if fb.rotate90Cw then (y, sub32 (sub32 fb.width 1) x) else (x, y)

/-- The tests `read_pixel` and `write_pixel` make before they touch the store. -/
def onScreen (fb : Framebuffer) (x y : ℕ) : Bool :=
  fb.enabled && decide (x < fb.logicalWidth) && decide (y < fb.logicalHeight) &&
    decide ((physical fb x y).1 < fb.width) && decide ((physical fb x y).2 < fb.height)

/-- `(py * fb.pitch) + (px * fb.bytes_per_pixel)`, from `fb.base`. -/
def pixelOffset (fb : Framebuffer) (x y : ℕ) : ℕ :=
  mul32 (physical fb x y).2 fb.pitch + mul32 (physical fb x y).1 fb.bytesPerPixel

/-- `read_pixel`: the first four bytes at most. -/
def readPixel (fb : Framebuffer) (m : Bytes) (x y : ℕ) : ℕ :=
  if onScreen fb x y then rdLE m (pixelOffset fb x y) (min fb.bytesPerPixel 4) else 0

/-- `write_pixel`. -/
def writePixel (fb : Framebuffer) (x y color : ℕ) (m : Bytes) : Bytes :=
  if onScreen fb x y then wrLE m (pixelOffset fb x y) fb.bytesPerPixel color else m

/-- `unpack_component`. -/
def unpackComponent (color pos size : ℕ) : ℕ :=
  if size = 0 then 0
  else
    let max := sub32 (2 ^ size % 2 ^ 32) 1
    let v := color / 2 ^ pos &&& max
    add32 (mul32 v 255) (max / 2) / max % 256

/-- `framebuffer_draw_pixel_rgb`. -/
def framebufferDrawPixelRgb (fb : Framebuffer) (x y r g b : ℕ) (m : Bytes) : Bool × Bytes :=
  if fb.enabled then (true, writePixel fb x y (packColor fb r g b) m) else (false, m)

/-- `framebuffer_clear_rgb`. -/
def framebufferClearRgb (fb : Framebuffer) (r g b : ℕ) (m : Bytes) : Bytes :=
  if fb.enabled then
    forUpto fb.logicalHeight (fun y => forUpto fb.logicalWidth fun x =>
      writePixel fb x y (packColor fb r g b)) m
  else m

/-! ## §3. Blits. -/

/-- What a blit must not do: read outside its source buffer. -/
inductive Fault where
  | sourceRead
  deriving Repr, DecidableEq

/-- The byte at index `i` of a source buffer. -/
def srcByte (buf : List UInt8) (i : ℕ) : Except Fault ℕ :=
  match buf[i]? with
  | some b => .ok b.toNat
  | none => .error .sourceRead

/-- The blend of one colour component over the one on screen. -/
def blend (src dst a : ℕ) : ℕ := (src * a + dst * (255 - a)) / 255 % 256

/-- The body of the loops of `framebuffer_blit_rgba8888`, for the source pixel at index
`p`. -/
def blitPixel (fb : Framebuffer) (buf : List UInt8) (x y p : ℕ) (m : Bytes) : Except Fault Bytes := do
  let a ← srcByte buf (p + 3)
  if a = 0 then .ok m
  else
    let p0 ← srcByte buf p
    let p1 ← srcByte buf (p + 1)
    let p2 ← srcByte buf (p + 2)
    if a = 255 then .ok (writePixel fb x y (packColor fb p0 p1 p2) m)
    else
      let dst := readPixel fb m x y
      let dr := unpackComponent dst fb.redPosition fb.redSize
      let dg := unpackComponent dst fb.greenPosition fb.greenSize
      let db := unpackComponent dst fb.bluePosition fb.blueSize
      .ok (writePixel fb x y (packColor fb (blend p0 dr a) (blend p1 dg a) (blend p2 db a)) m)

/-- `framebuffer_blit_rgba8888`, of the pixels from index `rgba` of `buf` on. -/
def framebufferBlitRgba8888 (fb : Framebuffer) (x y width height : ℕ) (buf : List UInt8)
    (rgba strideBytes : ℕ) (m : Bytes) : Except Fault (Bool × Bytes) :=
  if !fb.enabled ∨ width = 0 ∨ height = 0 ∨ fb.bpp ≠ 32 then .ok (false, m)
  else if fb.logicalWidth ≤ x ∨ fb.logicalHeight ≤ y then .ok (false, m)
  else
    let strideBytes := if strideBytes = 0 then mul32 width 4 else strideBytes
    if strideBytes < mul32 width 4 then .ok (false, m)
    else do
      let width := if fb.logicalWidth - x < width then fb.logicalWidth - x else width
      let height := if fb.logicalHeight - y < height then fb.logicalHeight - y else height
      let m ← forUptoM height (fun row => forUptoM width fun col =>
        blitPixel fb buf (add32 x col) (add32 y row)
          (rgba + mul32 row strideBytes + mul32 col 4)) m
      .ok (true, m)

/-- The body of the loops of the two blitters of 24-bit pixels. -/
def blitPixel24 (fb : Framebuffer) (buf : List UInt8) (x y p : ℕ) (m : Bytes) :
    Except Fault Bytes := do
  let p0 ← srcByte buf p
  let p1 ← srcByte buf (p + 1)
  let p2 ← srcByte buf (p + 2)
  .ok (writePixel fb x y (packColor fb p0 p1 p2) m)

/-- `framebuffer_blit_rgb24`. -/
def framebufferBlitRgb24 (fb : Framebuffer) (x y width height : ℕ) (buf : List UInt8)
    (strideBytes : ℕ) (m : Bytes) : Except Fault (Bool × Bytes) :=
  if !fb.enabled ∨ width = 0 ∨ height = 0 then .ok (false, m)
  else if fb.logicalWidth ≤ x ∨ fb.logicalHeight ≤ y then .ok (false, m)
  else
    let width := if fb.logicalWidth - x < width then fb.logicalWidth - x else width
    let height := if fb.logicalHeight - y < height then fb.logicalHeight - y else height
    let strideBytes := if strideBytes = 0 then mul32 width 3 else strideBytes
    if strideBytes < mul32 width 3 then .ok (false, m)
    else do
      let m ← forUptoM height (fun row => forUptoM width fun col =>
        blitPixel24 fb buf (add32 x col) (add32 y row) (mul32 row strideBytes + mul32 col 3)) m
      .ok (true, m)

/-- `framebuffer_blit_rgb24_scaled`. -/
def framebufferBlitRgb24Scaled (fb : Framebuffer) (x y width height : ℕ) (buf : List UInt8)
    (srcWidth srcHeight strideBytes : ℕ) (m : Bytes) : Except Fault (Bool × Bytes) :=
  if !fb.enabled ∨ width = 0 ∨ height = 0 ∨ srcWidth = 0 ∨ srcHeight = 0 then .ok (false, m)
  else if fb.logicalWidth ≤ x ∨ fb.logicalHeight ≤ y then .ok (false, m)
  else
    let width := if fb.logicalWidth - x < width then fb.logicalWidth - x else width
    let height := if fb.logicalHeight - y < height then fb.logicalHeight - y else height
    let strideBytes := if strideBytes = 0 then mul32 srcWidth 3 else strideBytes
    if strideBytes < mul32 srcWidth 3 then .ok (false, m)
    else do
      let m ← forUptoM height (fun row => forUptoM width fun col =>
        blitPixel24 fb buf (add32 x col) (add32 y row)
          (mul32 (mul32 row srcHeight / height) strideBytes +
            mul32 (mul32 col srcWidth / width) 3)) m
      .ok (true, m)

/-! ## §4. Cells. -/

/-- The glyph of a cell: its first byte in the font. -/
def cellGlyph (cell : UInt16) : ℕ :=
  let ch := cell.toNat &&& 0xFF
  ((if ch < 32 ∨ 127 < ch then 63 else ch) - 32) * 8

/-- The foreground colour of a cell. -/
def cellFg (cell : UInt16) : ℕ :=
  let fg := (cell.toNat / 256 &&& 0xFF) &&& 0x0F
  if 15 < fg then 15 else fg

/-- The background colour of a cell. -/
def cellBg (cell : UInt16) : ℕ :=
  let bg := (cell.toNat / 256 &&& 0xFF) / 16 &&& 0x0F
  if 15 < bg then 0 else bg

/-- `glyph_pixel_on`. -/
def glyphPixelOn (glyph x y : ℕ) : Bool :=
  fontPetme128.getD (glyph + x) 0 &&& (2 ^ y % 256) != 0

/-- `framebuffer_draw_cell`. -/
def framebufferDrawCell (fb : Framebuffer) (col row : ℕ) (cell : UInt16) (m : Bytes) : Bytes :=
  if fb.enabled then
    let glyph := cellGlyph cell
    let baseX := mul32 col 8
    let baseY := mul32 row 10
    let fgColor := fb.palette (cellFg cell)
    let bgColor := fb.palette (cellBg cell)
    let m := forUpto 8 (fun y => forUpto 8 fun x =>
      writePixel fb (add32 baseX x) (add32 baseY y)
        (if glyphPixelOn glyph x y then fgColor else bgColor)) m
    forUpto 2 (fun k => forUpto 8 fun x =>
      writePixel fb (add32 baseX x) (add32 baseY (8 + k)) bgColor) m
  else m

/-! ## §5. The text grid. -/

/-- What both presenters compute before their loops. -/
structure GridLayout where
  cols : ℕ
  rows : ℕ
  scale : ℕ
  offsetX : ℕ
  offsetY : ℕ
  deriving Repr, DecidableEq

/-- `logical / src`, or 1 for an empty grid. -/
def gridScale (logical src : ℕ) : ℕ := if 0 < src then logical / src else 1

def gridLayout (fb : Framebuffer) (cols rows : ℕ) : GridLayout :=
  let cols := if fb.logicalWidth < mul32 cols 8 then fb.logicalWidth / 8 else cols
  let rows := if fb.logicalHeight < mul32 rows 8 then fb.logicalHeight / 8 else rows
  let srcWidth := mul32 cols 8
  let srcHeight := mul32 rows 8
  let scaleX := gridScale fb.logicalWidth srcWidth
  let scaleY := gridScale fb.logicalHeight srcHeight
  let scale := if scaleX < scaleY then scaleX else scaleY
  let scale := if scale = 0 then 1 else scale
  { cols := cols
    rows := rows
    scale := scale
    offsetX := sub32 fb.logicalWidth (mul32 srcWidth scale) / 2
    offsetY := sub32 fb.logicalHeight (mul32 srcHeight scale) / 2 }

/-- `row * cols + col`. -/
def GridLayout.index (g : GridLayout) (row col : ℕ) : ℕ := add32 (mul32 row g.cols) col

/-- The colour of the glyph's pixel in column `gx` and row `gy`. -/
def gridColor (fb : Framebuffer) (cell : UInt16) (gx gy : ℕ) : ℕ :=
  if fontPetme128.getD (cellGlyph cell + gy) 0 &&& 2 ^ (7 - gx) != 0 then fb.palette (cellFg cell)
  else fb.palette (cellBg cell)

/-- One cell of the grid, every pixel of its glyph `scale` times wide and high. -/
def drawGridCell (fb : Framebuffer) (g : GridLayout) (row col : ℕ) (cell : UInt16) (m : Bytes) :
    Bytes :=
  let baseX := add32 g.offsetX (mul32 (mul32 col 8) g.scale)
  let baseY := add32 g.offsetY (mul32 (mul32 row 8) g.scale)
  forUpto 8 (fun gy => forUpto 8 fun gx =>
    let px0 := add32 baseX (mul32 gx g.scale)
    let py0 := add32 baseY (mul32 gy g.scale)
    forUpto g.scale fun sy => forUpto g.scale fun sx =>
      writePixel fb (add32 px0 sx) (add32 py0 sy) (gridColor fb cell gx gy)) m

/-- `framebuffer_present_text_grid`. -/
def framebufferPresentTextGrid (fb : Framebuffer) (cells : ℕ → UInt16) (cols rows : ℕ) (m : Bytes) :
    Bytes :=
  if !fb.enabled ∨ cols = 0 ∨ rows = 0 then m
  else
    let g := gridLayout fb cols rows
    forUpto g.rows (fun row => forUpto g.cols fun col =>
      drawGridCell fb g row col (cells (g.index row col))) m

/-- `framebuffer_present_text_grid_dirty`. -/
def framebufferPresentTextGridDirty (fb : Framebuffer) (curr prev : ℕ → UInt16) (cols rows : ℕ)
    (m : Bytes) : Bytes :=
  if !fb.enabled ∨ cols = 0 ∨ rows = 0 then m
  else
    let g := gridLayout fb cols rows
    forUpto g.rows (fun row => forUpto g.cols fun col m =>
      if curr (g.index row col) = prev (g.index row col) then m
      else drawGridCell fb g row col (curr (g.index row col)) m) m

end ExoCore.Display
