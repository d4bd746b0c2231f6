/-
  ExoCore.Display.Desktop — the drawing module BESIDE the other users of the framebuffer.

  The console, the blits and the clears draw on the same pixels as `vga_draw_present`.
  `DeskOp` has all their calls, in any order.

    • The 80 by 25 cells fill a centred area; each of its pixels belongs to one cell,
      so a presentation can be read off cell by cell (`full_at`, `dirty_at`).
    • The run is WATCHED: `shown` keeps the framebuffer bytes of the last presentation.
      A presentation shows the back buffer exactly when it finds the screen
      `Undisturbed`: every cell it would skip still has the bytes it had then.
-/
import ExoCore.Display.Present

namespace ExoCore.Display

open ExoCore.Lib

/-! ## §1. The cell area. -/

/-- How many times larger than 640 by 200 pixels the cells can be drawn. -/
def areaScale (fb : Framebuffer) : ℕ := min (fb.width / 640) (fb.height / 200)

def areaX (fb : Framebuffer) : ℕ := (fb.width - 640 * areaScale fb) / 2

def areaY (fb : Framebuffer) : ℕ := (fb.height - 200 * areaScale fb) / 2

/-- The pixel belongs to the centred area. -/
def InArea (fb : Framebuffer) (x y : ℕ) : Prop :=
  (areaX fb ≤ x ∧ x < areaX fb + 640 * areaScale fb) ∧
    areaY fb ≤ y ∧ y < areaY fb + 200 * areaScale fb

/-- The pixel belongs to one cell of it. -/
def InCell (fb : Framebuffer) (row col x y : ℕ) : Prop :=
  (areaX fb + col * (8 * areaScale fb) ≤ x ∧ x < areaX fb + (col + 1) * (8 * areaScale fb)) ∧
    areaY fb + row * (8 * areaScale fb) ≤ y ∧ y < areaY fb + (row + 1) * (8 * areaScale fb)

variable {x : ℕ}

/-- A place in a row of `n` equal pieces lies in one of them. -/
theorem exists_piece {off : ℕ} (n size : ℕ) (h : off ≤ x) (hx : x < off + n * size) :
    ∃ k, k < n ∧ off + k * size ≤ x ∧ x < off + (k + 1) * size := by
  have hsize : 0 < size := Nat.pos_of_ne_zero fun h0 => by rw [h0, Nat.mul_zero] at hx; omega
  have hdiv : (x - off) / size * size ≤ x - off := Nat.div_mul_le_self _ _
  have hlt : x - off < ((x - off) / size + 1) * size := by
    rw [Nat.succ_mul]
    exact Nat.lt_div_mul_add hsize
  refine ⟨(x - off) / size, ?_, by omega, by omega⟩
  exact (Nat.div_lt_iff_lt_mul hsize).mpr (by omega)

/-- The byte `b` belongs to a pixel of the cell. -/
structure CellByte (fb : Framebuffer) (row col b : ℕ) : Prop where
  row_lt : row < vgaDrawRows
  col_lt : col < vgaDrawCols
  pixel : ∃ x y, InCell fb row col x y ∧ InPixel fb x y b

theorem exists_cell {fb : Framebuffer} {y b : ℕ} (h : InArea fb x y) (hin : InPixel fb x y b) :
    ∃ row col, CellByte fb row col b := by
  obtain ⟨⟨hx, hx'⟩, hy, hy'⟩ := h
  obtain ⟨col, hcol, hcolx⟩ := exists_piece 80 (8 * areaScale fb) hx (by omega)
  obtain ⟨row, hrow, hrowy⟩ := exists_piece 25 (8 * areaScale fb) hy (by omega)
  exact ⟨row, col, hrow, hcol, x, y, ⟨hcolx, hrowy⟩, hin⟩

theorem InCell.inArea {fb : Framebuffer} {row col y : ℕ} (h : InCell fb row col x y)
    (hrow : row < vgaDrawRows) (hcol : col < vgaDrawCols) : InArea fb x y := by
  obtain ⟨⟨hx, hx'⟩, hy, hy'⟩ := h
  have hc : (col + 1) * (8 * areaScale fb) ≤ 80 * (8 * areaScale fb) := Nat.mul_le_mul_right _ hcol
  have hr : (row + 1) * (8 * areaScale fb) ≤ 25 * (8 * areaScale fb) := Nat.mul_le_mul_right _ hrow
  exact ⟨⟨by omega, by omega⟩, by omega, by omega⟩

/-- A framebuffer with room for all cells. -/
structure Roomy (fb : Framebuffer) : Prop extends Flat fb where
  wide : 640 ≤ fb.width
  high : 200 ≤ fb.height

/-- The grid of the cells there. -/
def areaGrid (fb : Framebuffer) : GridLayout := ⟨80, 25, areaScale fb, areaX fb, areaY fb⟩

theorem gridLayout_area {fb : Framebuffer} (hr : Roomy fb) :
    gridLayout fb vgaDrawCols vgaDrawRows = areaGrid fb := by
  obtain ⟨hlw, hlh⟩ := hr.logical
  have hcols : clipped fb.logicalWidth vgaDrawCols = 80 :=
    if_neg (by rw [hlw]; exact not_lt.mpr hr.wide)
  have hrows : clipped fb.logicalHeight vgaDrawRows = 25 :=
    if_neg (by rw [hlh]; exact not_lt.mpr hr.high)
  have hscale : (gridLayout fb vgaDrawCols vgaDrawRows).scale = areaScale fb := by
    rw [gridLayout_scale, hcols, hrows, hlw, hlh]
    exact smallerScale_eq (Nat.div_pos hr.wide (by decide)) (Nat.div_pos hr.high (by decide))
  -- the margin in one direction
  have hmargin : ∀ {k n : ℕ}, k * areaScale fb ≤ n → n < 2 ^ 32 →
      sub32 n (mul32 k (areaScale fb)) / 2 = (n - k * areaScale fb) / 2 := by
    intro k n hk hn
    rw [mul32_of_lt (by omega), sub32_of_le hk hn]
  have hx := hmargin (le_trans (Nat.mul_le_mul_left 640 (min_le_left _ _)) (Nat.mul_div_le _ _))
    hr.width_lt
  have hy := hmargin (le_trans (Nat.mul_le_mul_left 200 (min_le_right _ _)) (Nat.mul_div_le _ _))
    hr.height_lt
  generalize hg : gridLayout fb vgaDrawCols vgaDrawRows = g at hscale
  calc g
      = ⟨clipped fb.logicalWidth vgaDrawCols, clipped fb.logicalHeight vgaDrawRows, g.scale,
          sub32 fb.logicalWidth (mul32 (mul32 (clipped fb.logicalWidth vgaDrawCols) 8) g.scale) / 2,
          sub32 fb.logicalHeight (mul32 (mul32 (clipped fb.logicalHeight vgaDrawRows) 8) g.scale) / 2⟩ := by
        rw [← hg]
        rfl
    _ = ⟨80, 25, areaScale fb, _, _⟩ := by
        rw [hcols, hrows, hscale, hlw, hlh]
        exact congrArg₂ (GridLayout.mk 80 25 (areaScale fb)) hx hy

/-- One direction of a cell: its pixel `x` is pixel `s` of the part `k`. -/
theorem exists_part {off n scale : ℕ} (h : off + n * (8 * scale) ≤ x)
    (hx : x < off + (n + 1) * (8 * scale)) :
    ∃ k s, k < 8 ∧ s < scale ∧ off + (n * (8 * scale) + (k * scale + s)) = x := by
  have hnext : (n + 1) * (8 * scale) = n * (8 * scale) + 8 * scale := Nat.succ_mul _ _
  obtain ⟨k, hk, hlo, hhi⟩ := exists_piece 8 scale h (by omega)
  have hpart : (k + 1) * scale = k * scale + scale := Nat.succ_mul _ _
  exact ⟨k, x - (off + n * (8 * scale)) - k * scale, hk, by omega, by omega⟩

/-- The byte that a cell shows. -/
def shownByte (fb : Framebuffer) (row col : ℕ) (cell : UInt16) (b : ℕ) : UInt8 :=
  (cellStroke fb (areaGrid fb) row col cell b).getD 0

section Area

variable {fb : Framebuffer} {b col row : ℕ}

theorem getD_shownByte {cell : UInt16} {d : UInt8}
    (h : cellStroke fb (areaGrid fb) row col cell b ≠ none) :
    (cellStroke fb (areaGrid fb) row col cell b).getD d = shownByte fb row col cell b := by
  obtain ⟨c, hc⟩ := Option.ne_none_iff_exists'.mp h
  unfold shownByte
  rw [hc]
  rfl

variable (hr : Roomy fb) (hb : CellByte fb row col b)
include hr

theorem fits_area : Fits fb (areaGrid fb) := by
  rw [← gridLayout_area hr]
  exact gridLayout_fits hr.toFlat (by decide) (by decide)

include hb

/-- On the bytes of a cell's pixels, that cell's stroke is the only one. -/
theorem stroke_at :
    (row, col) ∈ positions (areaGrid fb) ∧
      (∀ cell, cellStroke fb (areaGrid fb) row col cell b ≠ none) ∧
      ∀ q ∈ positions (areaGrid fb), q ≠ (row, col) → ∀ cell,
        cellStroke fb (areaGrid fb) q.1 q.2 cell b = none := by
  have hfit := fits_area hr
  obtain ⟨hrow, hcol, x, y, hcell, hin⟩ := hb
  have hdraws : Draws (areaGrid fb) (row, col) x y := by
    obtain ⟨gx, sx, hgx, hsx, hx⟩ := exists_part hcell.1.1 hcell.1.2
    obtain ⟨gy, sy, hgy, hsy, hy⟩ := exists_part hcell.2.1 hcell.2.2
    refine ⟨gy, gx, sy, sx, hgy, hgx, hsy, hsx, ?_, ?_⟩
    · rw [← hx]
      exact (place_eq hfit.width hr.width_lt hcol hgx hsx).1
    · rw [← hy]
      exact (place_eq hfit.height hr.height_lt hrow hgy hsy).1
  have hmem : (row, col) ∈ positions (areaGrid fb) :=
    List.mem_product.mpr ⟨List.mem_range.mpr hrow, List.mem_range.mpr hcol⟩
  refine ⟨hmem, fun cell => (cellStroke_ne_none (q := (row, col))).mpr ⟨x, y, hdraws, hin⟩,
    fun q hq hne cell => ?_⟩
  by_contra hsome
  obtain ⟨x', y', hdraws', hin'⟩ := cellStroke_ne_none.mp hsome
  obtain ⟨rfl, rfl⟩ := inPixel_unique hr.toFlat hin hin'
  exact hne (draws_unique hr.toFlat hfit hq hmem hdraws' hdraws)

omit hr in
theorem cellIndex_area : cellIndex (areaGrid fb) (row, col) = row * vgaDrawCols + col := by
  show add32 (mul32 row 80) col = row * 80 + col
  have h1 : row < 25 := hb.row_lt
  have h2 : col < 80 := hb.col_lt
  rw [mul32_of_lt (by omega), add32_of_lt (by omega)]

/-- What the full presenter leaves on a cell's pixels. -/
theorem full_at (cells : ℕ → UInt16) (m : Bytes) :
    framebufferPresentTextGrid fb cells vgaDrawCols vgaDrawRows m b =
      shownByte fb row col (cells (row * vgaDrawCols + col)) b := by
  obtain ⟨hmem, hsome, hnone⟩ := stroke_at hr hb
  rw [present_paints hr.enabled (gridLayout_area hr) cells m b]
  dsimp only [drawn, strokesAt]
  rw [topmost_single hmem fun q hq hne => hnone q hq hne _, getD_shownByte (hsome _),
    cellIndex_area hb]

/-- What the dirty presenter leaves there. -/
theorem dirty_at (curr prev : ℕ → UInt16) (m : Bytes) :
    framebufferPresentTextGridDirty fb curr prev vgaDrawCols vgaDrawRows m b =
      if curr (row * vgaDrawCols + col) = prev (row * vgaDrawCols + col) then m b
      else shownByte fb row col (curr (row * vgaDrawCols + col)) b := by
  obtain ⟨hmem, hsome, hnone⟩ := stroke_at hr hb
  rw [dirty_paints hr.enabled (gridLayout_area hr) curr prev m b]
  dsimp only
  rw [topmost_single hmem]
  · unfold changedStroke strokesAt
    rw [cellIndex_area hb]
    split
    · rfl
    · exact getD_shownByte (hsome _)
  · intro q hq hne
    unfold changedStroke strokesAt
    rw [hnone q hq hne, ite_self]

end Area

/-! ## §2. The calls. -/

/-- The drawing module, the console and the screen. -/
structure Desk where
  vga : VgaDraw
  con : Console
  scr : Screen

/-- The calls of the others who draw on the framebuffer. -/
inductive Writer where
  | consolePutc (ch : UInt8)
  | consoleWrite (s : List UInt8)
  | consoleClear
  | consoleBackspace
  | consoleScrollUp
  | consoleScrollDown
  | drawPixelRgb (x y r g b : ℕ)
  | clearRgb (r g b : ℕ)
  | blitRgba8888 (x y width height : ℕ) (buf : List UInt8) (rgba strideBytes : ℕ)
  | blitRgb24 (x y width height : ℕ) (buf : List UInt8) (strideBytes : ℕ)
  | blitRgb24Scaled (x y width height : ℕ) (buf : List UInt8) (srcWidth srcHeight strideBytes : ℕ)

/-- The screen with other framebuffer bytes. -/
def Terminal.withMem (t : Terminal) (m : Bytes) : Terminal := { t with scr := { t.scr with mem := m } }

/-- One call of another writer. -/
def Writer.run (t : Terminal) : Writer → Except Fault Terminal
  | .consolePutc ch => .ok (Display.consolePutc t ch)
  | .consoleWrite s => .ok (Display.consoleWrite t s)
  | .consoleClear => .ok (Display.consoleClear t)
  | .consoleBackspace => .ok (Display.consoleBackspace t)
  | .consoleScrollUp => .ok (Display.consoleScrollUp t)
  | .consoleScrollDown => .ok (Display.consoleScrollDown t)
  | .drawPixelRgb x y r g b => .ok (t.withMem (framebufferDrawPixelRgb t.scr.fb x y r g b t.scr.mem).2)
  | .clearRgb r g b => .ok (t.withMem (framebufferClearRgb t.scr.fb r g b t.scr.mem))
  | .blitRgba8888 x y width height buf rgba strideBytes =>
    (framebufferBlitRgba8888 t.scr.fb x y width height buf rgba strideBytes t.scr.mem).map
      fun r => t.withMem r.2
  | .blitRgb24 x y width height buf strideBytes =>
    (framebufferBlitRgb24 t.scr.fb x y width height buf strideBytes t.scr.mem).map
      fun r => t.withMem r.2
  | .blitRgb24Scaled x y width height buf srcWidth srcHeight strideBytes =>
    (framebufferBlitRgb24Scaled t.scr.fb x y width height buf srcWidth srcHeight strideBytes
      t.scr.mem).map fun r => t.withMem r.2

inductive DeskOp where
  | draw (op : VgaOp)
  | write (w : Writer)

/-- One call that returns. -/
inductive DeskStep : Desk → DeskOp → Desk → Prop
  | draw {s : Desk} {op : VgaOp} {g : Gfx} (h : vgaStep vgaDrawPresent ⟨s.vga, s.scr⟩ op g) :
      DeskStep s (.draw op) ⟨g.vga, s.con, g.scr⟩
  | write {s : Desk} {w : Writer} {t : Terminal} (h : w.run ⟨s.con, s.scr⟩ = .ok t) :
      DeskStep s (.write w) ⟨s.vga, t.con, t.scr⟩

theorem consoleEmitChar_fb (t : Terminal) (ch : UInt8) : (consoleEmitChar t ch).scr.fb = t.scr.fb := by
  unfold consoleEmitChar
  dsimp only
  split
  · split <;> rfl
  · rw [(drawScreen_keeps _).2]
    split <;> rfl

theorem foldl_consoleEmitChar_fb (s : List UInt8) (t : Terminal) :
    (s.foldl consoleEmitChar t).scr.fb = t.scr.fb := by
  induction s generalizing t with
  | nil => rfl
  | cons ch s ih => rw [List.foldl_cons, ih, consoleEmitChar_fb]

/-- No other writer changes the configuration of the framebuffer. -/
theorem Writer.run_fb {t u : Terminal} {w : Writer} (h : w.run t = .ok u) : u.scr.fb = t.scr.fb := by
  cases w with
  | consolePutc ch =>
    cases h
    exact (drawScreen_keeps _).2.trans (consoleEmitChar_fb t ch)
  | consoleWrite s =>
    cases h
    unfold Display.consoleWrite
    split
    · rfl
    · exact (drawScreen_keeps _).2.trans (foldl_consoleEmitChar_fb s t)
  | consoleClear =>
    obtain rfl := Except.ok.inj h
    unfold Display.consoleClear
    rw [(drawScreen_keeps _).2]
  | consoleBackspace =>
    cases h
    unfold Display.consoleBackspace
    dsimp only
    rw [(drawScreen_keeps _).2]
    split <;> rfl
  | consoleScrollUp =>
    cases h
    unfold Display.consoleScrollUp
    split
    · exact (drawScreen_keeps _).2
    · rfl
  | consoleScrollDown =>
    cases h
    unfold Display.consoleScrollDown
    split
    · exact (drawScreen_keeps _).2
    · rfl
  | drawPixelRgb x y r g b =>
    cases h
    rfl
  | clearRgb r g b =>
    cases h
    rfl
  | blitRgba8888 x y width height buf rgba strideBytes =>
    obtain ⟨r, -, rfl⟩ := map_ok.mp h
    rfl
  | blitRgb24 x y width height buf strideBytes =>
    obtain ⟨r, -, rfl⟩ := map_ok.mp h
    rfl
  | blitRgb24Scaled x y width height buf srcWidth srcHeight strideBytes =>
    obtain ⟨r, -, rfl⟩ := map_ok.mp h
    rfl

/-! ## §3. Watched runs. -/

/-- The pixels of the area are those of a full presentation of the back buffer. -/
def ShowsBack (fb : Framebuffer) (s : Desk) : Prop :=
  ∀ x y, InArea fb x y → ∀ b, InPixel fb x y b → ∀ m,
    s.scr.mem b = framebufferPresentTextGrid fb s.vga.backBuffer vgaDrawCols vgaDrawRows m b

/-- The desk, with the framebuffer bytes as the last `vga_draw_present` left them. -/
structure Watched extends Desk where
  shown : Bytes

/-- One call in a watched run. -/
inductive WatchStep : Watched → DeskOp → Watched → Prop
  | present {s : Watched} {t : Desk} (h : DeskStep s.toDesk (.draw .present) t) :
      WatchStep s (.draw .present) ⟨t, t.scr.mem⟩
  | other {s : Watched} {op : DeskOp} {t : Desk} (hop : op ≠ .draw .present)
      (h : DeskStep s.toDesk op t) : WatchStep s op ⟨t, s.shown⟩

/-- Nothing to be skipped, or every cell that is to be skipped has on the screen the bytes
it had after the last presentation. -/
def Undisturbed (fb : Framebuffer) (s : Watched) : Prop :=
  s.vga.prevValid = false ∨ ∀ row col, row < vgaDrawRows → col < vgaDrawCols →
    s.vga.backBuffer (row * vgaDrawCols + col) = s.vga.prevBuffer (row * vgaDrawCols + col) →
    ∀ x y, InCell fb row col x y → ∀ b, InPixel fb x y b → s.scr.mem b = s.shown b

/-- A call of a run whose presentations all find the screen undisturbed. -/
def GuardedStep (fb : Framebuffer) (s : Watched) (op : DeskOp) (t : Watched) : Prop :=
  WatchStep s op t ∧ (op = .draw .present → Undisturbed fb s)

/-- What guarded runs keep: the last presentation showed `prev_buffer`. -/
structure Watching (fb : Framebuffer) (s : Watched) : Prop where
  config : s.scr.fb = fb
  initialised : s.vga.initialised = true
  prev : s.vga.prevValid = true → s.vga.prevCols = vgaDrawCols ∧ s.vga.prevRows = vgaDrawRows ∧
    ∀ row col b, CellByte fb row col b →
      s.shown b = shownByte fb row col (s.vga.prevBuffer (row * vgaDrawCols + col)) b

section Watched

variable {fb : Framebuffer} {s t : Watched}

section

variable (hr : Roomy fb)
include hr

/-- A presentation on the framebuffer. -/
theorem Watching.presents (h : Watching fb s) :
    vgaDrawPresent ⟨s.vga, s.scr⟩ = .ok
      { vga := { s.vga with
          prevBuffer := s.vga.backBuffer
          prevValid := true
          prevCols := vgaDrawCols
          prevRows := vgaDrawRows }
        scr := { s.scr with mem := drawChanged s.vga s.scr.fb s.scr.mem } } := by
  unfold vgaDrawPresent presentBy
  dsimp only
  rw [if_neg (by rw [h.initialised]; decide), if_pos (by rw [h.config]; exact hr.enabled)]

theorem Watching.exists_present (h : Watching fb s) :
    ∃ t, WatchStep s (.draw .present) t :=
  ⟨_, .present (.draw (vgaStep_present.mpr (h.presents hr)))⟩

theorem Watching.present_eq (h : Watching fb s)
    (hstep : WatchStep s (.draw .present) t) :
    t.scr = { s.scr with mem := drawChanged s.vga s.scr.fb s.scr.mem } ∧ t.shown = t.scr.mem ∧
      t.vga = { s.vga with
        prevBuffer := s.vga.backBuffer
        prevValid := true
        prevCols := vgaDrawCols
        prevRows := vgaDrawRows } := by
  cases hstep with
  | other hop _ => exact absurd rfl hop
  | present hdesk =>
    cases hdesk with
    | draw hvga =>
      have hok := vgaStep_present.mp hvga
      rw [h.presents hr] at hok
      cases hok
      exact ⟨rfl, rfl, rfl⟩

/-- **One presentation**: it shows the back buffer exactly when it found the screen
undisturbed. -/
theorem Watching.present_iff (h : Watching fb s)
    (hstep : WatchStep s (.draw .present) t) : ShowsBack fb t.toDesk ↔ Undisturbed fb s := by
  obtain ⟨hscr, -, hvga⟩ := h.present_eq hr hstep
  unfold ShowsBack
  rw [hscr, hvga]
  dsimp only
  rw [h.config]
  by_cases hvalid : s.vga.prevValid = true
  · obtain ⟨hcols, hrows, hprev⟩ := h.prev hvalid
    have hdirty : drawChanged s.vga fb s.scr.mem = framebufferPresentTextGridDirty fb
        s.vga.backBuffer s.vga.prevBuffer vgaDrawCols vgaDrawRows s.scr.mem := by
      unfold drawChanged
      rw [hvalid, hcols, hrows]
      exact if_neg (by simp)
    rw [hdirty]
    constructor
    · intro hshows
      refine .inr fun row col hrow hcol hsame x y hcell b hin => ?_
      have hb := hshows x y (hcell.inArea hrow hcol) b hin s.scr.mem
      have hc : CellByte fb row col b := ⟨hrow, hcol, x, y, hcell, hin⟩
      rw [dirty_at hr hc, if_pos hsame, full_at hr hc, hsame] at hb
      rw [hb, hprev row col b hc]
    · intro hund x y harea b hin m
      obtain ⟨row, col, hc⟩ := exists_cell harea hin
      rw [dirty_at hr hc, full_at hr hc]
      split
      · rename_i hsame
        rcases hund with hfalse | hund
        · rw [hvalid] at hfalse
          cases hfalse
        · obtain ⟨x', y', hcell, hin'⟩ := hc.pixel
          rw [hund row col hc.row_lt hc.col_lt hsame x' y' hcell b hin', hprev row col b hc, hsame]
      · rfl
  · have hfalse : s.vga.prevValid = false := Bool.not_eq_true _ ▸ hvalid
    have hfull : drawChanged s.vga fb s.scr.mem = framebufferPresentTextGrid fb s.vga.backBuffer
        vgaDrawCols vgaDrawRows s.scr.mem := by
      unfold drawChanged
      rw [hfalse]
      exact if_pos (.inl rfl)
    rw [hfull]
    refine iff_of_true (fun x y harea b hin m => ?_) (.inl hfalse)
    obtain ⟨row, col, hc⟩ := exists_cell harea hin
    rw [full_at hr hc, full_at hr hc]

/-- One guarded call. -/
theorem Watching.step {op : DeskOp} (h : Watching fb s)
    (hstep : GuardedStep fb s op t) : Watching fb t := by
  obtain ⟨hwatch, hguard⟩ := hstep
  by_cases hop : op = .draw .present
  · subst hop
    have hshows := (h.present_iff hr hwatch).mpr (hguard rfl)
    obtain ⟨hscr, hshown, hvga⟩ := h.present_eq hr hwatch
    refine ⟨?_, ?_, fun _ => ⟨?_, ?_, ?_⟩⟩
    · rw [hscr]
      exact h.config
    · rw [hvga]
      exact h.initialised
    · rw [hvga]
    · rw [hvga]
    · intro row col b hc
      obtain ⟨x, y, hcell, hin⟩ := hc.pixel
      have hprev : t.vga.prevBuffer = t.vga.backBuffer := by rw [hvga]
      rw [hshown, hprev, hshows x y (hcell.inArea hc.row_lt hc.col_lt) b hin t.scr.mem, full_at hr hc]
  · cases hwatch with
    | present _ => exact absurd rfl hop
    | other _ hdesk =>
      cases hdesk with
      | write hrun => exact ⟨(Writer.run_fb hrun).trans h.config, h.initialised, h.prev⟩
      | draw hvga =>
        obtain ⟨hscr, hdrawn⟩ := vgaStep_cases hvga fun heq => hop (by rw [heq])
        refine ⟨(congrArg Screen.fb hscr).trans h.config, ?_, fun hvalid => ?_⟩
        · rcases hdrawn with hdrawn | hfresh
          · exact hdrawn.initialised.trans h.initialised
          · exact hfresh.initialised
        · rcases hdrawn with hdrawn | hfresh
          · dsimp only
            rw [hdrawn.prevBuffer, hdrawn.prevCols, hdrawn.prevRows]
            exact h.prev (hdrawn.prevValid.symm.trans hvalid)
          · exact absurd (hfresh.prevValid.symm.trans hvalid) Bool.false_ne_true

end

/-- **Presenting beside other writers**: after `vga_draw_init`, in every run of drawing
calls, console output, blits and clears whose presentations found the screen undisturbed,
the next presentation shows the back buffer IF AND ONLY IF it finds the screen undisturbed
too. -/
theorem present_shows_back (hf : Flat fb) (hw : 640 ≤ fb.width) (hh : 200 ≤ fb.height)
    {v : VgaDraw} {s t u : Watched} {ops : List DeskOp}
    (hfb : s.scr.fb = fb) (hinit : vgaDrawInit fb v = .ok s.vga)
    (hrun : Trace (GuardedStep fb) s ops t) (hpresent : WatchStep t (.draw .present) u) :
    ShowsBack fb u.toDesk ↔ Undisturbed fb t := by
  have hfresh := vgaDrawInit_fresh hinit
  have hstart : Watching fb s := by
    refine ⟨hfb, hfresh.initialised, fun hvalid => ?_⟩
    rw [hfresh.prevValid] at hvalid
    cases hvalid
  have hr : Roomy fb := ⟨hf, hw, hh⟩
  have hend : Watching fb t := hrun.inv (Watching fb) hstart fun h hstep => h.step hr hstep
  exact hend.present_iff hr hpresent

end Watched

/-! ## §4. A disturbed screen. -/

theorem vgaDrawInit_boot : vgaDrawInit (highColor 640 200)
    ⟨fun _ => 0, fun _ => 0, false, false, false, 0, 0, false⟩ = .ok bootVga := by
  rw [vgaDrawInit_eq]
  rfl

/-- The desk at boot, on a black screen of 640 by 200 pixels. -/
def bootDesk : Watched :=
  { vga := bootVga
    con := (Terminal.powerOn (fun _ => 0) fun _ => 0).con
    scr := blackScreen
    shown := fun _ => 0 }

theorem roomy_640_200 : Roomy (highColor 640 200) :=
  ⟨flat_highColor_640_200, by decide +kernel, by decide +kernel⟩

theorem watching_boot : Watching (highColor 640 200) bootDesk := ⟨rfl, rfl, fun h => by cases h⟩

/-- A letter drawn between two presentations: the second one repaints its cell alone. -/
theorem present_shows_back_letter :
    ∃ t u, Trace (GuardedStep (highColor 640 200)) bootDesk
        [.draw .present, .draw .beginDraw, .draw (.setCell 3 2 65 7)] t ∧
      WatchStep t (.draw .present) u ∧ t.vga.prevValid = true ∧
      u.vga.backBuffer = Function.update bootVga.backBuffer 163 (packCell 65 7) ∧
      ShowsBack (highColor 640 200) u.toDesk := by
  have hr := roomy_640_200
  obtain ⟨s, hfirst⟩ := watching_boot.exists_present hr
  obtain ⟨-, hshown, hvga⟩ := watching_boot.present_eq hr hfirst
  have hwatch := watching_boot.step hr ⟨hfirst, fun _ => .inl rfl⟩
  have hbegin : WatchStep s (.draw .beginDraw)
      { s with vga := { s.vga with active := true } } := by
    refine .other (fun h => by cases h) (.draw (g := ⟨_, s.scr⟩) ⟨0, fun _ _ => ?_⟩)
    show (vgaDrawBegin s.scr.fb s.vga).map _ = _
    unfold vgaDrawBegin
    rw [if_pos hwatch.initialised]
    rfl
  have hletter : WatchStep { s with vga := { s.vga with active := true } }
      (.draw (.setCell 3 2 65 7))
      { s with vga := { s.vga with
          backBuffer := Function.update s.vga.backBuffer 163 (packCell 65 7)
          active := true } } :=
    .other (fun h => by cases h) (.draw (g := ⟨_, s.scr⟩) ⟨0, fun _ _ => rfl⟩)
  have hrun : Trace (GuardedStep (highColor 640 200)) bootDesk
      [.draw .present, .draw .beginDraw, .draw (.setCell 3 2 65 7)] _ :=
    .snoc (.snoc (.snoc .nil ⟨hfirst, fun _ => .inl rfl⟩) ⟨hbegin, fun h => by cases h⟩)
      ⟨hletter, fun h => by cases h⟩
  have hwatch' := (hwatch.step hr ⟨hbegin, fun h => by cases h⟩).step hr
    ⟨hletter, fun h => by cases h⟩
  obtain ⟨u, hlast⟩ := hwatch'.exists_present hr
  refine ⟨_, u, hrun, hlast, by dsimp only; rw [hvga], ?_,
    (present_shows_back hr.toFlat hr.wide hr.high rfl vgaDrawInit_boot hrun hlast).mpr (.inr ?_)⟩
  · rw [(hwatch'.present_eq hr hlast).2.2]
    dsimp only
    rw [hvga]
    rfl
  · intro row col _ _ _ x y _ b _
    dsimp only
    rw [hshown]

/-- One white pixel, in the corner. -/
def whitePixel : Writer := .blitRgb24 0 0 1 1 [255, 255, 255] 0

theorem whitePixel_step {s : Watched} (hfb : s.scr.fb = highColor 640 200) :
    WatchStep s (.write whitePixel)
      ⟨⟨s.vga, s.con, { s.scr with mem := writePixel (highColor 640 200) 0 0 0xFFFF s.scr.mem }⟩,
        s.shown⟩ := by
  refine .other (fun h => by cases h)
    (.write (t := Terminal.withMem ⟨s.con, s.scr⟩ (writePixel (highColor 640 200) 0 0 0xFFFF s.scr.mem)) ?_)
  show (framebufferBlitRgb24 s.scr.fb 0 0 1 1 [255, 255, 255] 0 s.scr.mem).map _ = _
  rw [hfb]
  rfl

/-- A blank cell of the boot screen is black. -/
theorem shownByte_boot :
    shownByte (highColor 640 200) 0 0 (bootVga.backBuffer (0 * vgaDrawCols + 0)) 0 = 0 := by
  have hin : InPixel (highColor 640 200) 0 0 0 := by decide +kernel
  have hcell : bootVga.backBuffer (0 * vgaDrawCols + 0) = packCell 32 (vgaAttr 15 0) := rfl
  have hcolor := cellStroke_at flat_highColor_640_200
    (g := areaGrid (highColor 640 200)) (q := (0, 0))
    (packCell 32 (vgaAttr 15 0)) ((highColor 640 200).palette 0) hin
    fun gx gy _ hgy => by rw [gridColor_space _ gx (by decide) hgy]; rfl
  have hblack : colorByte ((highColor 640 200).palette 0) (pixelOffset (highColor 640 200) 0 0) 0 = 0 := by
    decide +kernel
  unfold shownByte
  rw [hcell]
  rcases hcolor with hnone | hsome
  · rw [hnone]
    rfl
  · rw [hsome, hblack]
    rfl

/-- **A presentation after a blit**: the drawing module presents blank cells, a blit makes
the first pixel white, and presenting the same cells again leaves it white. -/
theorem present_after_blit :
    vgaDrawInit (highColor 640 200) ⟨fun _ => 0, fun _ => 0, false, false, false, 0, 0, false⟩ =
        .ok bootDesk.vga ∧
      ∃ t u, Trace WatchStep bootDesk [.draw .present, .write whitePixel] t ∧
        WatchStep t (.draw .present) u ∧ ¬ ShowsBack (highColor 640 200) u.toDesk := by
  have hr := roomy_640_200
  have hin : InPixel (highColor 640 200) 0 0 0 := by decide +kernel
  have hcell : InCell (highColor 640 200) 0 0 0 0 := by
    unfold InCell
    decide +kernel
  refine ⟨vgaDrawInit_boot, ?_⟩
  -- the first presentation leaves the first byte black
  obtain ⟨s, hfirst⟩ := watching_boot.exists_present hr
  obtain ⟨-, hshown, hvga⟩ := watching_boot.present_eq hr hfirst
  have hshows := (watching_boot.present_iff hr hfirst).mpr (.inl rfl)
  have hwatch := watching_boot.step hr ⟨hfirst, fun _ => .inl rfl⟩
  have hblack : s.shown 0 = 0 := by
    rw [hshown, hshows 0 0 (hcell.inArea (by decide) (by decide)) 0 hin s.scr.mem,
      full_at hr ⟨by decide, by decide, 0, 0, hcell, hin⟩, hvga]
    exact shownByte_boot
  -- the blit makes it white
  have hblit := whitePixel_step hwatch.config
  have hwatch' := hwatch.step hr ⟨hblit, fun h => by cases h⟩
  have hwhite : writePixel (highColor 640 200) 0 0 0xFFFF s.scr.mem 0 = 255 := by
    rw [writePixel_paints]
    unfold pixelStroke
    rw [if_pos hin]
    exact (show colorByte 0xFFFF (pixelOffset (highColor 640 200) 0 0) 0 = 255 by decide +kernel)
  obtain ⟨u, hlast⟩ := hwatch'.exists_present hr
  refine ⟨_, u, .snoc (.snoc .nil hfirst) hblit, hlast, ?_⟩
  rw [hwatch'.present_iff hr hlast]
  rintro (hvalid | hsame)
  · dsimp only at hvalid
    rw [hvga] at hvalid
    cases hvalid
  · have hbytes := hsame 0 0 (by decide) (by decide) (by dsimp only; rw [hvga]) 0 0 hcell 0 hin
    dsimp only at hbytes
    rw [hwhite, hblack] at hbytes
    cases hbytes

end ExoCore.Display
