/-
  ExoCore.Display.Grid — the two presenters of the text grid, AS PAINTING.

  `framebuffer_present_text_grid` paints one stroke for each cell, in row order, and
  `framebuffer_present_text_grid_dirty` only the strokes of the cells that changed.
  On a framebuffer whose rows do not overlap every byte belongs to one pixel, so the
  question is one about pixels:

    • `present_paints`, `dirty_paints` — the two loops as the topmost of their strokes,
    • `inPixel_unique`                 — a byte belongs to one pixel,
    • `separated_of_fits`              — the cells of a grid whose width and height in
      pixels fit a 32-bit word never share a pixel,
    • `grid_repaint_iff`               — repainting the changed cells is the same as
      repainting all of them, exactly when no pixel belongs to two cells of different
      index (or all colours look the same).
-/
import ExoCore.Display.Framebuffer
import ExoCore.Lib.Paint
import Mathlib.Tactic.Linarith

namespace ExoCore.Display

open ExoCore.Lib List

/-! ## §1. Configurations. -/

/-- What the framebuffer module can have become: any calls of `framebuffer_configure`
and `framebuffer_enable`. -/
inductive Configured : Framebuffer → Prop
  | zero : Configured .zero
  | configure {fb : Framebuffer} (h : Configured fb) (a : Mode) : Configured (framebufferConfigure fb a)
  | enable {fb : Framebuffer} (h : Configured fb) (on : Bool) : Configured (framebufferEnable fb on)

/-- What an available framebuffer knows about itself. -/
structure Known (fb : Framebuffer) : Prop where
  width : 0 < fb.width
  height : 0 < fb.height
  bytes : fb.bytesPerPixel = (fb.bpp + 7) / 8
  depth : 2 ≤ fb.bytesPerPixel
  logicalWidth : fb.logicalWidth = if fb.rotate90Cw then fb.height else fb.width
  logicalHeight : fb.logicalHeight = if fb.rotate90Cw then fb.width else fb.height

variable {fb : Framebuffer} {a b cols n rows x y : ℕ} {g : GridLayout} {q : ℕ × ℕ} {cell : UInt16}

theorem configure_known {a : Mode}
    (h : (framebufferConfigure fb a).available = true) : Known (framebufferConfigure fb a) := by
  unfold framebufferConfigure at h ⊢
  split
  · rename_i hbad
    rw [if_pos hbad] at h
    cases h
  · rename_i hgood
    rw [if_neg hgood] at h
    simp only [not_or] at hgood
    dsimp only at h ⊢
    split
    · rename_i havail
      simp only [Bool.and_eq_true, decide_eq_true_eq] at havail
      exact ⟨Nat.pos_of_ne_zero hgood.2.1, Nat.pos_of_ne_zero hgood.2.2.1, rfl, havail.2, rfl, rfl⟩
    · rename_i havail
      rw [if_neg havail] at h
      exact absurd h havail

theorem configure_enabled {a : Mode}
    (h : (framebufferConfigure fb a).enabled = true) : (framebufferConfigure fb a).available = true := by
  unfold framebufferConfigure at h ⊢
  split
  · rename_i hbad
    rw [if_pos hbad] at h
    cases h
  · rename_i hgood
    rw [if_neg hgood] at h
    dsimp only at h ⊢
    split
    · rename_i havail
      exact havail
    · rename_i havail
      rw [if_neg havail] at h
      cases h

theorem Configured.inv (h : Configured fb) :
    (fb.enabled = true → fb.available = true) ∧ (fb.available = true → Known fb) := by
  induction h with
  | zero => exact ⟨fun h => h, fun h => by cases h⟩
  | configure _ a _ => exact ⟨configure_enabled, configure_known⟩
  | @enable fb _ on ih =>
    refine ⟨fun hen => (Bool.and_eq_true _ _ ▸ hen).2, fun hav => ?_⟩
    obtain ⟨h1, h2, h3, h4, h5, h6⟩ := ih.2 hav
    exact ⟨h1, h2, h3, h4, h5, h6⟩

/-- An enabled framebuffer that is not rotated, whose pixels are at most four bytes and
whose rows neither overlap nor leave the 32-bit range. -/
structure Flat (fb : Framebuffer) : Prop where
  configured : Configured fb
  enabled : fb.enabled = true
  upright : fb.rotate90Cw = false
  bpp : fb.bpp ≤ 32
  pitch : fb.width * fb.bytesPerPixel ≤ fb.pitch
  store : fb.pitch * fb.height < 2 ^ 32

section Flat

variable {fb : Framebuffer} (hf : Flat fb)
include hf

theorem Flat.known : Known fb := hf.configured.inv.2 (hf.configured.inv.1 hf.enabled)

theorem Flat.logical : fb.logicalWidth = fb.width ∧ fb.logicalHeight = fb.height := by
  have hk := hf.known
  have h1 := hk.logicalWidth
  have h2 := hk.logicalHeight
  rw [hf.upright] at h1 h2
  exact ⟨h1, h2⟩

/-- A row is shorter than `2^32` bytes. -/
theorem Flat.pitch_lt : fb.pitch < 2 ^ 32 :=
  lt_of_le_of_lt (Nat.le_mul_of_pos_right _ hf.known.height) hf.store

theorem Flat.width_lt : fb.width < 2 ^ 32 := by
  have hmul : fb.width * 1 ≤ fb.width * fb.bytesPerPixel :=
    Nat.mul_le_mul_left _ (le_trans (by decide) hf.known.depth)
  have hp := hf.pitch
  have hlt := hf.pitch_lt
  omega

theorem Flat.height_lt : fb.height < 2 ^ 32 := by
  have hmul : 1 * fb.height ≤ fb.pitch * fb.height := by
    refine Nat.mul_le_mul_right _ ?_
    have hw : 1 * 1 ≤ fb.width * fb.bytesPerPixel :=
      Nat.mul_le_mul hf.known.width (le_trans (by decide) hf.known.depth)
    have hp := hf.pitch
    omega
  have hlt := hf.store
  omega

theorem Flat.onScreen_iff {x y : ℕ} : onScreen fb x y = true ↔ x < fb.width ∧ y < fb.height := by
  obtain ⟨hw, hh⟩ := hf.logical
  unfold onScreen physical
  rw [hf.upright, hf.enabled, hw, hh]
  simp only [Bool.true_and, Bool.and_eq_true, decide_eq_true_eq, Bool.false_eq_true, if_false]
  tauto

/-- On screen the products do not wrap. -/
theorem Flat.pixelOffset_eq {x y : ℕ} (h : onScreen fb x y = true) :
    pixelOffset fb x y = y * fb.pitch + x * fb.bytesPerPixel := by
  obtain ⟨hx, hy⟩ := hf.onScreen_iff.mp h
  have hrow : y * fb.pitch < 2 ^ 32 := by
    refine lt_of_le_of_lt ?_ hf.store
    rw [Nat.mul_comm fb.pitch]
    exact Nat.mul_le_mul_right _ (le_of_lt hy)
  have hcol : x * fb.bytesPerPixel < 2 ^ 32 :=
    lt_of_le_of_lt (le_trans (Nat.mul_le_mul_right _ (le_of_lt hx)) hf.pitch) hf.pitch_lt
  unfold pixelOffset physical
  rw [hf.upright]
  simp only [Bool.false_eq_true, if_false]
  rw [mul32_of_lt hrow, mul32_of_lt hcol]

end Flat

/-! ## §2. Pixels and bytes. -/

/-- Byte `b` of the store belongs to the pixel `(x, y)`. -/
def InPixel (fb : Framebuffer) (x y b : ℕ) : Prop :=
  onScreen fb x y = true ∧ pixelOffset fb x y ≤ b ∧ b < pixelOffset fb x y + fb.bytesPerPixel

instance (fb : Framebuffer) (x y b : ℕ) : Decidable (InPixel fb x y b) :=
  inferInstanceAs (Decidable (_ ∧ _ ∧ _))

/-- Intervals of one length at two multiples of it meet only when they are the same. -/
theorem eq_of_same_block {a' : ℕ} (h : a * n ≤ b) (hlt : b < a * n + n) (h' : a' * n ≤ b)
    (hlt' : b < a' * n + n) : a = a' := by
  rcases Nat.lt_trichotomy a a' with hlt₀ | heq | hlt₀
  · have hmul : (a + 1) * n ≤ a' * n := Nat.mul_le_mul_right n hlt₀
    rw [Nat.succ_mul] at hmul
    omega
  · exact heq
  · have hmul : (a' + 1) * n ≤ a * n := Nat.mul_le_mul_right n hlt₀
    rw [Nat.succ_mul] at hmul
    omega

/-- **A byte belongs to one pixel.** -/
theorem inPixel_unique (hf : Flat fb) {x' y' : ℕ} (h : InPixel fb x y b)
    (h' : InPixel fb x' y' b) : x = x' ∧ y = y' := by
  obtain ⟨hs, hlo, hhi⟩ := h
  obtain ⟨hs', hlo', hhi'⟩ := h'
  rw [hf.pixelOffset_eq hs] at hlo hhi
  rw [hf.pixelOffset_eq hs'] at hlo' hhi'
  -- a pixel ends inside its row
  have hend : ∀ {x y}, onScreen fb x y = true → x * fb.bytesPerPixel + fb.bytesPerPixel ≤ fb.pitch := by
    intro x y hs
    have hmul : (x + 1) * fb.bytesPerPixel ≤ fb.width * fb.bytesPerPixel :=
      Nat.mul_le_mul_right _ (hf.onScreen_iff.mp hs).1
    rw [Nat.succ_mul] at hmul
    exact le_trans hmul hf.pitch
  have he := hend hs
  have he' := hend hs'
  obtain rfl : y = y' := eq_of_same_block (b := b) (n := fb.pitch) (by omega) (by omega) (by omega)
    (by omega)
  refine ⟨?_, rfl⟩
  exact eq_of_same_block (b := b - y * fb.pitch) (n := fb.bytesPerPixel) (by omega) (by omega)
    (by omega) (by omega)

/-- The byte that `write_pixel` stores at `b` for a pixel that starts at `off`. -/
def colorByte (color off b : ℕ) : UInt8 := UInt8.ofNat (color / 256 ^ (b - off))

/-- The stroke of one pixel. -/
def pixelStroke (fb : Framebuffer) (x y color b : ℕ) : Option UInt8 :=
  if InPixel fb x y b then some (colorByte color (pixelOffset fb x y) b) else none

theorem writePixel_paints (fb : Framebuffer) (x y color : ℕ) :
    Paints (writePixel fb x y color) (pixelStroke fb x y color) := by
  intro m b
  unfold writePixel pixelStroke
  by_cases hs : onScreen fb x y = true
  · rw [if_pos hs]
    unfold wrLE
    by_cases hb : pixelOffset fb x y ≤ b ∧ b < pixelOffset fb x y + fb.bytesPerPixel
    · have hin : InPixel fb x y b := ⟨hs, hb⟩
      rw [if_pos hb, if_pos hin]
      rfl
    · have hout : ¬ InPixel fb x y b := fun h => hb h.2
      rw [if_neg hb, if_neg hout]
      rfl
  · have hout : ¬ InPixel fb x y b := fun h => hs h.1
    rw [if_neg hs, if_neg hout]
    rfl

/-! ## §3. Cells. -/

/-- The horizontal place of the pixel `sx` of column `gx` of the glyph in column `col`. -/
def gridX (g : GridLayout) (col gx sx : ℕ) : ℕ :=
  add32 (add32 (add32 g.offsetX (mul32 (mul32 col 8) g.scale)) (mul32 gx g.scale)) sx

/-- The vertical place of the pixel `sy` of row `gy` of the glyph in row `row`. -/
def gridY (g : GridLayout) (row gy sy : ℕ) : ℕ :=
  add32 (add32 (add32 g.offsetY (mul32 (mul32 row 8) g.scale)) (mul32 gy g.scale)) sy

/-- The stroke of one cell. -/
def cellStroke (fb : Framebuffer) (g : GridLayout) (row col : ℕ) (cell : UInt16) (b : ℕ) :
    Option UInt8 :=
  topmost (List.range 8) fun gy => topmost (List.range 8) fun gx =>
    topmost (List.range g.scale) fun sy => topmost (List.range g.scale) fun sx =>
      pixelStroke fb (gridX g col gx sx) (gridY g row gy sy) (gridColor fb cell gx gy) b

theorem drawGridCell_paints (fb : Framebuffer) (g : GridLayout) (row col : ℕ) (cell : UInt16) :
    Paints (drawGridCell fb g row col cell) (cellStroke fb g row col cell) := by
  refine Paints.forUpto fun gy _ => Paints.forUpto fun gx _ => ?_
  exact Paints.forUpto fun sy _ => Paints.forUpto fun sx _ => writePixel_paints _ _ _ _

/-- The cell at `q` (row, column) is drawn over the pixel `(x, y)`. -/
def Draws (g : GridLayout) (q : ℕ × ℕ) (x y : ℕ) : Prop :=
  ∃ gy gx sy sx, gy < 8 ∧ gx < 8 ∧ sy < g.scale ∧ sx < g.scale ∧
    gridX g q.2 gx sx = x ∧ gridY g q.1 gy sy = y

/-- A cell's stroke is there exactly on the bytes of the pixels it is drawn over. -/
theorem cellStroke_ne_none :
    cellStroke fb g q.1 q.2 cell b ≠ none ↔ ∃ x y, Draws g q x y ∧ InPixel fb x y b := by
  have hnone : ∀ x y color, pixelStroke fb x y color b = none ↔ ¬ InPixel fb x y b := by
    intro x y color
    unfold pixelStroke
    split
    · rename_i hin
      exact ⟨fun h => (by cases h), fun h => absurd hin h⟩
    · rename_i hout
      exact ⟨fun _ => hout, fun _ => rfl⟩
  unfold cellStroke
  simp only [ne_eq, topmost_eq_none, hnone, mem_range]
  constructor
  · intro h
    by_contra hno
    refine h fun gy hgy gx hgx sy hsy sx hsx hin => hno ?_
    exact ⟨_, _, ⟨gy, gx, sy, sx, hgy, hgx, hsy, hsx, rfl, rfl⟩, hin⟩
  · rintro ⟨x, y, ⟨gy, gx, sy, sx, hgy, hgx, hsy, hsx, rfl, rfl⟩, hin⟩ h
    exact h gy hgy gx hgx sy hsy sx hsx hin

/-- A stroke whose pixels all show `c` at the byte shows `c` there, or nothing. -/
theorem cellStroke_const
    {c : UInt8} (h : ∀ gx gy x y, gx < 8 → gy < 8 → InPixel fb x y b →
      colorByte (gridColor fb cell gx gy) (pixelOffset fb x y) b = c) :
    cellStroke fb g q.1 q.2 cell b = none ∨ cellStroke fb g q.1 q.2 cell b = some c := by
  have hpixel : ∀ gx gy, gx < 8 → gy < 8 → ∀ x y,
      pixelStroke fb x y (gridColor fb cell gx gy) b = none ∨
        pixelStroke fb x y (gridColor fb cell gx gy) b = some c := by
    intro gx gy hgx hgy x y
    unfold pixelStroke
    split
    · rename_i hin
      rw [h gx gy x y hgx hgy hin]
      exact .inr rfl
    · exact .inl rfl
  -- the same for each of the four loops around the pixel
  have hloop : ∀ {n : ℕ} {s : ℕ → Option UInt8}, (∀ i, i < n → s i = none ∨ s i = some c) →
      topmost (List.range n) s = none ∨ topmost (List.range n) s = some c := by
    intro n s hs
    by_cases hall : ∀ i ∈ List.range n, s i = none
    · exact .inl (topmost_eq_none.mpr hall)
    · refine .inr (topmost_const (fun i hi => hs i (mem_range.mp hi)) ?_)
      by_contra hno
      exact hall fun i hi => by_contra fun hne => hno ⟨i, hi, hne⟩
  exact hloop fun gy hgy => hloop fun gx hgx => hloop fun sy _ => hloop fun sx _ =>
    hpixel gx gy hgx hgy _ _

/-! ## §4. The presenters. -/

/-- The cells of the grid, in the order they are drawn. -/
def positions (g : GridLayout) : List (ℕ × ℕ) := List.range g.rows ×ˢ List.range g.cols

/-- The index a cell is read from. -/
def cellIndex (g : GridLayout) (q : ℕ × ℕ) : ℕ := g.index q.1 q.2

/-- What the layout computes for one direction: the number of cells after clipping. -/
def clipped (logical n : ℕ) : ℕ := if logical < mul32 n 8 then logical / 8 else n

theorem gridLayout_empty (fb : Framebuffer) (h : cols = 0 ∨ rows = 0) :
    positions (gridLayout fb cols rows) = [] := by
  have hzero : ∀ logical, clipped logical 0 = 0 := fun _ => if_neg (by unfold mul32; omega)
  show List.range (clipped fb.logicalHeight rows) ×ˢ List.range (clipped fb.logicalWidth cols) = []
  rcases h with rfl | rfl
  · rw [hzero, range_zero, product_nil]
  · rw [hzero, range_zero, nil_product]

/-- The strokes of the cells at the byte `b`. -/
def strokesAt (fb : Framebuffer) (g : GridLayout) (b : ℕ) (q : ℕ × ℕ) (cell : UInt16) :
    Option UInt8 := cellStroke fb g q.1 q.2 cell b

section Presenters

variable (hen : fb.enabled = true) (hg : gridLayout fb cols rows = g)
include hen hg

theorem present_paints (cells : ℕ → UInt16) :
    Paints (framebufferPresentTextGrid fb cells cols rows) fun b =>
      drawn (cellIndex g) (strokesAt fb g b) (positions g) cells := by
  subst hg
  intro m b
  unfold framebufferPresentTextGrid
  by_cases hempty : cols = 0 ∨ rows = 0
  · rw [if_pos (.inr hempty)]
    dsimp only
    rw [gridLayout_empty fb hempty]
    rfl
  · rw [if_neg (by rw [hen]; simpa using hempty)]
    exact Paints.nested (fun row col _ _ => drawGridCell_paints fb _ row col _) m b

theorem dirty_paints (curr prev : ℕ → UInt16) :
    Paints (framebufferPresentTextGridDirty fb curr prev cols rows) fun b =>
      topmost (positions g) (changedStroke (cellIndex g) (strokesAt fb g b) curr prev) := by
  subst hg
  intro m b
  unfold framebufferPresentTextGridDirty
  by_cases hempty : cols = 0 ∨ rows = 0
  · rw [if_pos (.inr hempty)]
    dsimp only
    rw [gridLayout_empty fb hempty]
    rfl
  · rw [if_neg (by rw [hen]; simpa using hempty)]
    refine Paints.nested (s := fun q b => changedStroke _ (strokesAt fb _ b) curr prev q)
      (fun row col _ _ => ?_) m b
    -- a cell that did not change is skipped
    exact (drawGridCell_paints fb _ row col _).skipIf _

end Presenters

/-! ## §5. Grids that fit. -/

/-- Cells drawn over one pixel of the screen are read from one index. -/
def Separated (fb : Framebuffer) (cols rows : ℕ) : Prop :=
  ∀ q ∈ positions (gridLayout fb cols rows), ∀ q' ∈ positions (gridLayout fb cols rows), ∀ x y,
    onScreen fb x y = true → Draws (gridLayout fb cols rows) q x y →
    Draws (gridLayout fb cols rows) q' x y →
    cellIndex (gridLayout fb cols rows) q = cellIndex (gridLayout fb cols rows) q'

section Direction

variable {logical src scale : ℕ}

theorem clipped_fits (hlog : logical < 2 ^ 32) (h : n * 8 < 2 ^ 32) :
    mul32 (clipped logical n) 8 = clipped logical n * 8 ∧ clipped logical n * 8 ≤ logical := by
  have hle : clipped logical n * 8 ≤ logical := by
    unfold clipped
    rw [mul32_of_lt h]
    split <;> omega
  exact ⟨mul32_of_lt (by omega), hle⟩

/-- A scale that is at most `logical / src` keeps the drawing inside, and its margin. -/
theorem scaled_fits (hlog : logical < 2 ^ 32) (h : scale ≤ gridScale logical src) :
    sub32 logical (mul32 src scale) / 2 + src * scale ≤ logical := by
  have hle : src * scale ≤ logical := by
    unfold gridScale at h
    split at h
    · exact le_trans (Nat.mul_le_mul_left src h) (Nat.mul_div_le logical src)
    · rename_i hsrc
      rw [Nat.eq_zero_of_not_pos hsrc, Nat.zero_mul]
      exact Nat.zero_le _
  rw [mul32_of_lt (by omega), sub32_of_le hle hlog]
  omega

theorem gridScale_pos (h : src ≤ logical) : 0 < gridScale logical src := by
  unfold gridScale
  split
  · rename_i hsrc
    exact Nat.div_pos h hsrc
  · exact Nat.one_pos

end Direction

/-- The smaller of the two scales, and at least one. -/
def smallerScale (a b : ℕ) : ℕ := if (if a < b then a else b) = 0 then 1 else if a < b then a else b

theorem smallerScale_eq (ha : 0 < a) (hb : 0 < b) : smallerScale a b = min a b := by
  unfold smallerScale
  by_cases h : a < b
  · rw [if_pos h, if_neg (by omega)]
    omega
  · rw [if_neg h, if_neg (by omega)]
    omega

theorem gridLayout_scale (fb : Framebuffer) (cols rows : ℕ) :
    (gridLayout fb cols rows).scale =
      smallerScale (gridScale fb.logicalWidth (mul32 (clipped fb.logicalWidth cols) 8))
        (gridScale fb.logicalHeight (mul32 (clipped fb.logicalHeight rows) 8)) := rfl

/-- The layout of a grid that fits: no product or difference has wrapped. -/
structure Fits (fb : Framebuffer) (g : GridLayout) : Prop where
  width : g.offsetX + g.cols * 8 * g.scale ≤ fb.width
  height : g.offsetY + g.rows * 8 * g.scale ≤ fb.height

theorem gridLayout_fits (hf : Flat fb) (hcols : cols * 8 < 2 ^ 32)
    (hrows : rows * 8 < 2 ^ 32) : Fits fb (gridLayout fb cols rows) := by
  obtain ⟨hw, hh⟩ := hf.logical
  have hwlt := hw.trans_lt hf.width_lt
  have hhlt := hh.trans_lt hf.height_lt
  obtain ⟨hsw, hc⟩ := clipped_fits hwlt hcols
  obtain ⟨hsh, hr⟩ := clipped_fits hhlt hrows
  rw [← hsw] at hc
  rw [← hsh] at hr
  have hscale := smallerScale_eq (gridScale_pos hc) (gridScale_pos hr)
  rw [← gridLayout_scale] at hscale
  constructor
  · show _ + clipped fb.logicalWidth cols * 8 * (gridLayout fb cols rows).scale ≤ fb.width
    rw [← hsw, ← hw]
    exact scaled_fits hwlt (hscale.le.trans (min_le_left ..))
  · show _ + clipped fb.logicalHeight rows * 8 * (gridLayout fb cols rows).scale ≤ fb.height
    rw [← hsh, ← hh]
    exact scaled_fits hhlt (hscale.le.trans (min_le_right ..))

/-- One direction of a fitting grid: where the pixel `s` of the part `k` of cell `n` is. -/
theorem place_eq {off total scale k s limit : ℕ} (hfit : off + total * 8 * scale ≤ limit)
    (hlimit : limit < 2 ^ 32) (hn : n < total) (hk : k < 8) (hs : s < scale) :
    add32 (add32 (add32 off (mul32 (mul32 n 8) scale)) (mul32 k scale)) s =
        off + (n * (8 * scale) + (k * scale + s)) ∧
      k * scale + s < 8 * scale ∧ off + (n * (8 * scale) + (k * scale + s)) < limit := by
  have hcell : (n + 1) * (8 * scale) ≤ total * (8 * scale) := Nat.mul_le_mul_right _ hn
  have hpart : (k + 1) * scale ≤ 8 * scale := Nat.mul_le_mul_right _ hk
  have htotal : total * 8 * scale = total * (8 * scale) := Nat.mul_assoc _ _ _
  have hprod : n * 8 * scale = n * (8 * scale) := Nat.mul_assoc _ _ _
  rw [Nat.succ_mul] at hcell hpart
  have hn8 : n * 8 * 1 ≤ n * 8 * scale := Nat.mul_le_mul_left _ (by omega)
  refine ⟨?_, by omega, by omega⟩
  rw [mul32_of_lt (a := n) (by omega), mul32_of_lt (a := n * 8) (by omega),
    mul32_of_lt (a := k) (by omega), add32_of_lt (a := off) (by omega),
    add32_of_lt (a := off + n * 8 * scale) (by omega), add32_of_lt (by omega)]
  omega

/-- **The cells of a grid that fits share no pixel.** -/
theorem draws_unique (hf : Flat fb) (hfit : Fits fb g)
    {q' : ℕ × ℕ} (hq : q ∈ positions g) (hq' : q' ∈ positions g) (h : Draws g q x y)
    (h' : Draws g q' x y) : q = q' := by
  obtain ⟨hrow, hcol⟩ := mem_product.mp hq
  obtain ⟨hrow', hcol'⟩ := mem_product.mp hq'
  obtain ⟨gy, gx, sy, sx, hgy, hgx, hsy, hsx, hx, hy⟩ := h
  obtain ⟨gy', gx', sy', sx', hgy', hgx', hsy', hsx', hx', hy'⟩ := h'
  obtain ⟨hpx, hkx, -⟩ := place_eq hfit.width hf.width_lt (mem_range.mp hcol) hgx hsx
  obtain ⟨hpx', hkx', -⟩ := place_eq hfit.width hf.width_lt (mem_range.mp hcol') hgx' hsx'
  obtain ⟨hpy, hky, -⟩ := place_eq hfit.height hf.height_lt (mem_range.mp hrow) hgy hsy
  obtain ⟨hpy', hky', -⟩ := place_eq hfit.height hf.height_lt (mem_range.mp hrow') hgy' hsy'
  unfold gridX at hx hx'
  unfold gridY at hy hy'
  rw [hpx] at hx
  rw [hpx'] at hx'
  rw [hpy] at hy
  rw [hpy'] at hy'
  refine Prod.ext ?_ ?_
  · exact eq_of_same_block (b := y - g.offsetY) (n := 8 * g.scale) (by omega) (by omega) (by omega)
      (by omega)
  · exact eq_of_same_block (b := x - g.offsetX) (n := 8 * g.scale) (by omega) (by omega) (by omega)
      (by omega)

theorem separated_of_fits (hf : Flat fb)
    (hcols : cols * 8 < 2 ^ 32) (hrows : rows * 8 < 2 ^ 32) : Separated fb cols rows := by
  intro q hq q' hq' x y _ h h'
  rw [draws_unique hf (gridLayout_fits hf hcols hrows) hq hq' h h']

/-! ## §6. Repainting the changed cells. -/

/-- All colours of the palette are stored as the same bytes. -/
def Monochrome (fb : Framebuffer) : Prop :=
  ∀ a b k, a < 16 → b < 16 → k < fb.bytesPerPixel →
    UInt8.ofNat (fb.palette a / 256 ^ k) = UInt8.ofNat (fb.palette b / 256 ^ k)

/-- A cell is drawn in colours of the palette. -/
theorem gridColor_palette (fb : Framebuffer) (cell : UInt16) (gx gy : ℕ) :
    ∃ a, a < 16 ∧ gridColor fb cell gx gy = fb.palette a := by
  unfold gridColor
  split
  · refine ⟨cellFg cell, ?_, rfl⟩
    unfold cellFg
    dsimp only
    split <;> omega
  · refine ⟨cellBg cell, ?_, rfl⟩
    unfold cellBg
    dsimp only
    split <;> omega

/-- A blank on the background colour `a`. -/
def blankCell (a : ℕ) : UInt16 := UInt16.ofNat (32 + 4096 * a)

/-- A space shows its background. -/
theorem gridColor_space (fb : Framebuffer) {gy : ℕ} (gx : ℕ)
    (hglyph : cellGlyph cell = 0) (hgy : gy < 8) :
    gridColor fb cell gx gy = fb.palette (cellBg cell) := by
  have hfont : ∀ gy, gy < 8 → fontPetme128.getD (0 + gy) 0 = 0 := by decide
  unfold gridColor
  rw [hglyph, hfont gy hgy, Nat.zero_and]
  rfl

theorem gridColor_blank (fb : Framebuffer) {gy : ℕ} (gx : ℕ) (ha : a < 16) (hgy : gy < 8) :
    gridColor fb (blankCell a) gx gy = fb.palette a := by
  have hcell : ∀ a, a < 16 → cellGlyph (blankCell a) = 0 ∧ cellBg (blankCell a) = a := by decide
  obtain ⟨hglyph, hbg⟩ := hcell a ha
  rw [gridColor_space fb gx hglyph hgy, hbg]

/-- The cells' strokes at a byte of the pixel `(x, y)`. -/
theorem cellStroke_at (hf : Flat fb)
    (cell : UInt16) (color : ℕ) (hin : InPixel fb x y b)
    (h : ∀ gx gy, gx < 8 → gy < 8 → colorByte (gridColor fb cell gx gy) (pixelOffset fb x y) b =
      colorByte color (pixelOffset fb x y) b) :
    cellStroke fb g q.1 q.2 cell b = none ∨
      cellStroke fb g q.1 q.2 cell b = some (colorByte color (pixelOffset fb x y) b) := by
  refine cellStroke_const fun gx gy x' y' hgx hgy hin' => ?_
  obtain ⟨rfl, rfl⟩ := inPixel_unique hf hin' hin
  exact h gx gy hgx hgy

/-- The dirty presenter after the full one, for any arrays and any pixels. -/
def RepaintExact (fb : Framebuffer) (cols rows : ℕ) : Prop :=
  ∀ (m : Bytes) (prev curr : ℕ → UInt16),
    framebufferPresentTextGridDirty fb curr prev cols rows
        (framebufferPresentTextGrid fb prev cols rows m) =
      framebufferPresentTextGrid fb curr cols rows (framebufferPresentTextGrid fb prev cols rows m)

/-- One byte of the two presentations, as strokes. -/
theorem repaint_byte (hen : fb.enabled = true) (hg : gridLayout fb cols rows = g) (m : Bytes)
    (prev curr : ℕ → UInt16) (b : ℕ) :
    framebufferPresentTextGridDirty fb curr prev cols rows
        (framebufferPresentTextGrid fb prev cols rows m) b =
      framebufferPresentTextGrid fb curr cols rows (framebufferPresentTextGrid fb prev cols rows m) b ↔
    Repaints (cellIndex g) (strokesAt fb g b) (positions g) curr prev (m b) := by
  rw [dirty_paints hen hg, present_paints hen hg curr, present_paints hen hg prev]
  rfl

/-- **Repainting the changed cells** is repainting all cells, for every array and every
content of the store, exactly when no pixel belongs to cells of two indices, or when all
colours look the same. -/
theorem grid_repaint_iff (hf : Flat fb) (cols rows : ℕ) :
    RepaintExact fb cols rows ↔ Separated fb cols rows ∨ Monochrome fb := by
  have hbyte := repaint_byte hf.enabled (rfl : gridLayout fb cols rows = _)
  unfold Separated
  generalize gridLayout fb cols rows = g at hbyte ⊢
  have hcov : ∀ b, ∀ i ∈ positions g, ∀ v w, strokesAt fb g b i v = none →
      strokesAt fb g b i w = none := by
    intro b i _ v w h
    by_contra hne
    exact cellStroke_ne_none.mpr (cellStroke_ne_none.mp hne) h
  constructor
  · intro hexact
    by_cases hmono : Monochrome fb
    · exact .inr hmono
    · -- two colours that differ in byte `k`, and two cells of different index over one pixel
      refine .inl fun q hq q' hq' x y hs hd hd' => by_contra fun hidx => hmono ?_
      intro a a' k ha ha' hk
      by_contra hne
      have hin : InPixel fb x y (pixelOffset fb x y + k) := ⟨hs, by omega, by omega⟩
      have hcolor : ∀ color, colorByte color (pixelOffset fb x y) (pixelOffset fb x y + k) =
          UInt8.ofNat (color / 256 ^ k) := by
        intro color
        unfold colorByte
        rw [Nat.add_sub_cancel_left]
      have hblank : ∀ a, a < 16 → ∀ i ∈ positions g,
          strokesAt fb g (pixelOffset fb x y + k) i (blankCell a) = none ∨
          strokesAt fb g (pixelOffset fb x y + k) i (blankCell a) =
            some (colorByte (fb.palette a) (pixelOffset fb x y) (pixelOffset fb x y + k)) := by
        intro a ha i _
        refine cellStroke_at hf _ _ hin fun gx gy _ hgy => ?_
        rw [gridColor_blank fb gx ha hgy]
      obtain ⟨curr, prev, hdiff⟩ := repaint_fails (c := (0 : UInt8)) (hcov _)
        (by rw [hcolor, hcolor]; exact hne) (hblank a ha) (hblank a' ha') hq hq'
        (cellStroke_ne_none.mpr ⟨x, y, hd, hin⟩) (cellStroke_ne_none.mpr ⟨x, y, hd', hin⟩) hidx
      exact hdiff ((hbyte (fun _ => 0) prev curr _).mp (congrFun (hexact (fun _ => 0) prev curr) _))
  · rintro (hsep | hmono) m prev curr
    · funext b
      refine (hbyte m prev curr b).mpr (repaint_of_sameKey (hcov b) ?_ curr prev (m b))
      intro i hi j hj v hiv hjv
      obtain ⟨x, y, hd, hin⟩ := cellStroke_ne_none.mp hiv
      obtain ⟨x', y', hd', hin'⟩ := cellStroke_ne_none.mp hjv
      obtain ⟨rfl, rfl⟩ := inPixel_unique hf hin' hin
      exact hsep i hi j hj x' y' hin.1 hd hd'
    · funext b
      refine (hbyte m prev curr b).mpr ?_
      by_cases hpix : ∃ x y, InPixel fb x y b
      · obtain ⟨x, y, hin⟩ := hpix
        refine repaint_of_oneColor (hcov b) (d := colorByte (fb.palette 0) (pixelOffset fb x y) b)
          (fun i _ v => cellStroke_at hf _ _ hin ?_) curr prev (m b)
        intro gx gy _ _
        obtain ⟨a, ha, hcolor⟩ := gridColor_palette fb v gx gy
        rw [hcolor]
        have hlo := hin.2.1
        have hhi := hin.2.2
        exact hmono a 0 _ ha (by decide) (by omega)
      · -- a byte of no pixel is never drawn over
        refine repaint_of_oneColor (hcov b) (d := (0 : UInt8))
          (fun i _ v => .inl (by_contra fun hne => hpix ?_)) curr prev (m b)
        obtain ⟨x, y, -, hin⟩ := cellStroke_ne_none.mp hne
        exact ⟨x, y, hin⟩

end ExoCore.Display
