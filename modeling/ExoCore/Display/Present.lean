/-
  ExoCore.Display.Present — what `vga_draw_present` SHOWS.

  The presentation repaints the cells that differ from `prev_buffer`.  That is right as
  long as the screen still shows `prev_buffer`:

    • ALONE on the framebuffer, the module shows what a full repaint at every
      presentation would show (`Shown.present_eq_full`): the screen is a full drawing
      of `prev_buffer`, and repainting the changed cells is exact because no pixel
      belongs to two cells (`grid_repaint_iff`).
    • BESIDE the console, blits and clears, nobody tells the module that its pixels are
      gone: that is `ExoCore.Display.Desktop`.
-/
import ExoCore.Display.Grid
import ExoCore.Display.Scrollback
import ExoCore.Display.VgaDraw

namespace ExoCore.Display

open ExoCore.Lib List

/-! ## §1. Sessions without another writer. -/

/-- A call that returns, with the given presenter. -/
def vgaStep (present : Gfx → Except VgaFault Gfx) (s : Gfx) (op : VgaOp) (t : Gfx) : Prop :=
  Returns (fun fuel => op.exec present fuel s) t

variable {op : VgaOp} {s t : Gfx} {fb : Framebuffer}

theorem exec_of_ne (h : op ≠ .present) (present present' : Gfx → Except VgaFault Gfx)
    (fuel : ℕ) (s : Gfx) : op.exec present fuel s = op.exec present' fuel s := by
  cases op with
  | present => exact absurd rfl h
  | _ => simp only [VgaOp.exec]

theorem vgaStep_present {present : Gfx → Except VgaFault Gfx} :
    vgaStep present s .present t ↔ present s = .ok t := by
  constructor
  · rintro ⟨n, hn⟩
    exact hn n le_rfl
  · exact fun h => ⟨0, fun _ _ => h⟩

theorem vgaStep_cases {present : Gfx → Except VgaFault Gfx}
    (h : vgaStep present s op t) (hne : op ≠ .present) :
    t.scr = s.scr ∧ (OnlyDrawn s.vga t.vga ∨ Fresh t.vga) := by
  obtain ⟨n, hn⟩ := h
  exact (exec_cases (hn n le_rfl)).resolve_left fun h => hne h.1

/-- The screen shows `prev_buffer`, in full. -/
structure Shown (fb : Framebuffer) (s : Gfx) : Prop where
  config : s.scr.fb = fb
  prev : s.vga.prevValid = true → s.vga.prevCols = vgaDrawCols ∧ s.vga.prevRows = vgaDrawRows ∧
    ∃ m, s.scr.mem = framebufferPresentTextGrid fb s.vga.prevBuffer vgaDrawCols vgaDrawRows m

theorem Shown.drawn (h : Shown fb s) (hscr : t.scr = s.scr)
    (hvga : OnlyDrawn s.vga t.vga ∨ Fresh t.vga) : Shown fb t := by
  refine ⟨hscr ▸ h.config, fun hvalid => ?_⟩
  rcases hvga with hvga | hvga
  · rw [hscr, hvga.prevBuffer, hvga.prevCols, hvga.prevRows]
    exact h.prev (hvga.prevValid ▸ hvalid)
  · rw [hvga.prevValid] at hvalid
    cases hvalid

/-- **Repainting the changed cells is repainting all of them.** -/
theorem Shown.present_eq_full (hf : Flat fb) (h : Shown fb s) :
    vgaDrawPresent s = vgaDrawPresentFull s := by
  have hexact : RepaintExact fb vgaDrawCols vgaDrawRows :=
    (grid_repaint_iff hf _ _).mpr (.inl (separated_of_fits hf (by decide) (by decide)))
  have hdraw : drawChanged s.vga s.scr.fb s.scr.mem = drawFull s.vga s.scr.fb s.scr.mem := by
    unfold drawChanged drawFull
    split
    · rfl
    · rename_i hsame
      simp only [not_or, Bool.not_eq_true', Bool.not_eq_false] at hsame
      obtain ⟨-, -, m, hm⟩ := h.prev hsame.1
      rw [hm, h.config]
      exact hexact m s.vga.prevBuffer s.vga.backBuffer
  unfold vgaDrawPresent vgaDrawPresentFull presentBy
  rw [hdraw]

theorem Shown.present (hf : Flat fb) (h : Shown fb s)
    (ht : vgaDrawPresentFull s = .ok t) : Shown fb t := by
  unfold vgaDrawPresentFull presentBy at ht
  rw [h.config, hf.enabled, if_pos rfl] at ht
  split at ht
  · cases ht
    exact h
  · cases ht
    exact ⟨h.config, fun _ => ⟨rfl, rfl, s.scr.mem, rfl⟩⟩

/-- One call: what the code does is what the full presenter does. -/
theorem Shown.step (hf : Flat fb) (h : Shown fb s)
    (hstep : vgaStep vgaDrawPresent s op t) :
    vgaStep vgaDrawPresentFull s op t ∧ Shown fb t := by
  by_cases hne : op = .present
  · subst hne
    have hfull := (h.present_eq_full hf).symm.trans (vgaStep_present.mp hstep)
    exact ⟨vgaStep_present.mpr hfull, h.present hf hfull⟩
  · obtain ⟨hscr, hvga⟩ := vgaStep_cases hstep hne
    obtain ⟨n, hn⟩ := hstep
    refine ⟨⟨n, fun k hk => ?_⟩, h.drawn hscr hvga⟩
    show op.exec vgaDrawPresentFull k s = .ok t
    rw [← hn k hk]
    exact exec_of_ne hne _ _ k s

/-- **The dirty presenter against the full one**: for any arrays of `cols` by `rows`
cells it leaves the same pixels IF AND ONLY IF no visible pixel is drawn by cells of two
different indices, or the palette has one colour only.  No pixel is, when `cols * 8` and
`rows * 8` fit 32 bits; so a run of drawing calls whose presentations repaint the changed
cells is a run in which they repaint all cells. -/
theorem dirty_present_exact {fb : Framebuffer} (hf : Flat fb) (cols rows : ℕ) :
    (RepaintExact fb cols rows ↔ Separated fb cols rows ∨ Monochrome fb) ∧
      (cols * 8 < 2 ^ 32 → rows * 8 < 2 ^ 32 → Separated fb cols rows) ∧
      ∀ (s t : Gfx) (ops : List VgaOp), s.scr.fb = fb → s.vga.prevValid = false →
        Trace (vgaStep vgaDrawPresent) s ops t → Trace (vgaStep vgaDrawPresentFull) s ops t := by
  refine ⟨grid_repaint_iff hf cols rows, separated_of_fits hf, ?_⟩
  intro s t ops hfb hvalid hrun
  have hstart : Shown fb s := ⟨hfb, fun h => by rw [hvalid] at h; cases h⟩
  -- the two runs go through the same states
  obtain ⟨u, hu, heq, -⟩ := Trace.simulate (fun a b => a = b ∧ Shown fb a) hrun ⟨rfl, hstart⟩
    fun {a b e c} hR hstep => by
      obtain ⟨rfl, hshown⟩ := hR
      obtain ⟨hfull, hshown'⟩ := hshown.step hf hstep
      exact ⟨b, hfull, rfl, hshown'⟩
  rw [heq]
  exact hu

/-- A 16-bit mode without padding. -/
def highColor (width height : ℕ) : Framebuffer :=
  framebufferEnable (framebufferConfigure .zero
    ⟨0xE0000000, width * 2, width, height, 16, 1, 11, 5, 5, 6, 0, 5, 0, 0⟩) true

theorem flat_highColor_8_8 : Flat (highColor 8 8) := by
  refine ⟨.enable (.configure .zero _) true, ?_, ?_, ?_, ?_, ?_⟩ <;> decide +kernel

theorem flat_highColor_640_200 : Flat (highColor 640 200) := by
  refine ⟨.enable (.configure .zero _) true, ?_, ?_, ?_, ?_, ?_⟩ <;> decide +kernel

/-- The module after `vga_draw_init` at boot: blank cells, white on black. -/
def bootVga : VgaDraw :=
  { backBuffer := filled (fun _ => 0) 0 2000 (packCell 32 (vgaAttr 15 0))
    prevBuffer := filled (fun _ => 0) 0 2000 (packCell 32 (vgaAttr 15 0))
    active := false
    initialised := true
    prevValid := false
    prevCols := 0
    prevRows := 0
    frontBuffer := false }

/-- A black screen of 640 by 200 pixels. -/
def blackScreen : Screen := ⟨highColor 640 200, fun _ => 0, fun _ => 0, true, false⟩

/-- A letter drawn between two presentations. -/
theorem dirty_present_exact_letter :
    Separated (highColor 640 200) 80 25 ∧ RepaintExact (highColor 640 200) 80 25 ∧
      ∃ t, Trace (vgaStep vgaDrawPresentFull) ⟨bootVga, blackScreen⟩
          [.present, .beginDraw, .setCell 3 2 65 7, .present] t ∧
        t.vga.prevValid = true ∧
        t.vga.prevBuffer = Function.update bootVga.backBuffer 163 (packCell 65 7) := by
  obtain ⟨hiff, hsep, hsession⟩ := dirty_present_exact flat_highColor_640_200 80 25
  have hseparated := hsep (by decide) (by decide)
  have hrun : ∃ t, Trace (vgaStep vgaDrawPresent) ⟨bootVga, blackScreen⟩
      [.present, .beginDraw, .setCell 3 2 65 7, .present] t ∧
      t.vga.prevValid = true ∧
      t.vga.prevBuffer = Function.update bootVga.backBuffer 163 (packCell 65 7) :=
    ⟨_, .snoc (.snoc (.snoc (.snoc .nil ⟨0, fun _ _ => rfl⟩) ⟨0, fun _ _ => rfl⟩)
      ⟨0, fun _ _ => rfl⟩) ⟨0, fun _ _ => rfl⟩, rfl, rfl⟩
  obtain ⟨t, htrace, hvalid, hletter⟩ := hrun
  exact ⟨hseparated, hiff.mpr (.inl hseparated), t, hsession _ t _ rfl rfl htrace, hvalid, hletter⟩

/-- Black cells, the first one white. -/
def firstWhite : ℕ → UInt16 := Function.update (fun _ => blankCell 0) 0 (blankCell 15)

/-- The layout of one row whose width in pixels wraps to 8. -/
theorem gridLayout_wrapped : gridLayout (highColor 8 8) (2 ^ 29 + 1) 1 = ⟨2 ^ 29 + 1, 1, 1, 0, 0⟩ := by
  decide +kernel

theorem positions_snoc (n scale x y : ℕ) :
    positions ⟨n + 1, 1, scale, x, y⟩ = positions ⟨n, 1, scale, x, y⟩ ++ [(0, n)] := by
  simp [positions, SProd.sprod, List.product, range_succ]

/-- A blank cell over the first pixel of the wrapped row. -/
theorem wrapped_stroke {col a : ℕ} (ha : a < 16) (hcol : mul32 col 8 = 0) :
    cellStroke (highColor 8 8) ⟨2 ^ 29 + 1, 1, 1, 0, 0⟩ 0 col (blankCell a) 0 =
      some (UInt8.ofNat ((highColor 8 8).palette a)) := by
  have hin : InPixel (highColor 8 8) 0 0 0 := by decide +kernel
  have hdraws : Draws ⟨2 ^ 29 + 1, 1, 1, 0, 0⟩ (0, col) 0 0 := by
    refine ⟨0, 0, 0, 0, by decide, by decide, Nat.one_pos, Nat.one_pos, ?_, rfl⟩
    unfold gridX
    rw [hcol]
    rfl
  have hcolor := cellStroke_at flat_highColor_8_8 (g := ⟨2 ^ 29 + 1, 1, 1, 0, 0⟩) (q := (0, col))
    (blankCell a) ((highColor 8 8).palette a) hin
    fun gx gy _ hgy => by rw [gridColor_blank _ gx ha hgy]
  have hsome := hcolor.resolve_left (cellStroke_ne_none.mpr ⟨0, 0, hdraws, hin⟩)
  have hbyte : colorByte ((highColor 8 8).palette a) (pixelOffset (highColor 8 8) 0 0) 0 =
      UInt8.ofNat ((highColor 8 8).palette a) := by
    unfold colorByte
    rw [Nat.zero_sub, pow_zero, Nat.div_one]
  exact hsome.trans (congrArg some hbyte)

/-- **A grid whose width in pixels wraps**: 2^29 + 1 columns on a screen of 8 by 8 pixels.
The last cell is drawn over the first one; a change of the first cell is repainted over
the last cell, which a full repaint leaves on top. -/
theorem dirty_present_wraps :
    Flat (highColor 8 8) ∧
      framebufferPresentTextGridDirty (highColor 8 8) firstWhite (fun _ => blankCell 0) (2 ^ 29 + 1) 1
          (framebufferPresentTextGrid (highColor 8 8) (fun _ => blankCell 0) (2 ^ 29 + 1) 1 fun _ => 0) 0 ≠
        framebufferPresentTextGrid (highColor 8 8) firstWhite (2 ^ 29 + 1) 1
          (framebufferPresentTextGrid (highColor 8 8) (fun _ => blankCell 0) (2 ^ 29 + 1) 1 fun _ => 0) 0 := by
  refine ⟨flat_highColor_8_8, ?_⟩
  rw [ne_eq, repaint_byte (by decide +kernel) gridLayout_wrapped]
  have hfirst : ∀ q ∈ positions ⟨2 ^ 29 + 1, 1, 1, 0, 0⟩,
      cellIndex ⟨2 ^ 29 + 1, 1, 1, 0, 0⟩ q = 0 → q = (0, 0) := by
    rintro ⟨row, col⟩ hq hindex
    obtain ⟨hrow, hcol⟩ := mem_product.mp hq
    have hrow' : row < 1 := mem_range.mp hrow
    have hcol' : col < 2 ^ 29 + 1 := mem_range.mp hcol
    unfold cellIndex GridLayout.index add32 mul32 at hindex
    dsimp only at hindex
    obtain rfl : row = 0 := by omega
    refine Prod.ext rfl ?_
    show col = 0
    omega
  -- only the first cell has changed
  have hdirty : topmost (positions ⟨2 ^ 29 + 1, 1, 1, 0, 0⟩)
      (changedStroke (cellIndex ⟨2 ^ 29 + 1, 1, 1, 0, 0⟩)
        (strokesAt (highColor 8 8) ⟨2 ^ 29 + 1, 1, 1, 0, 0⟩ 0) firstWhite fun _ => blankCell 0) =
      some 255 := by
    have hmem : (0, 0) ∈ positions ⟨2 ^ 29 + 1, 1, 1, 0, 0⟩ :=
      mem_product.mpr ⟨mem_range.mpr (by decide), mem_range.mpr (by decide)⟩
    rw [topmost_single hmem]
    · show (if blankCell 15 = blankCell 0 then none else cellStroke (highColor 8 8)
        ⟨2 ^ 29 + 1, 1, 1, 0, 0⟩ 0 0 (blankCell 15) 0) = some 255
      rw [if_neg (by decide), wrapped_stroke (by decide) rfl]
      decide +kernel
    · intro q hq hne
      have hindex : cellIndex ⟨2 ^ 29 + 1, 1, 1, 0, 0⟩ q ≠ 0 := fun h => hne (hfirst q hq h)
      unfold changedStroke firstWhite
      rw [Function.update_of_ne hindex, if_pos rfl]
  -- but the last one is drawn over it
  have hfull : drawn (cellIndex ⟨2 ^ 29 + 1, 1, 1, 0, 0⟩)
      (strokesAt (highColor 8 8) ⟨2 ^ 29 + 1, 1, 1, 0, 0⟩ 0)
      (positions ⟨2 ^ 29 + 1, 1, 1, 0, 0⟩) firstWhite = some 0 := by
    have hindex : cellIndex ⟨2 ^ 29 + 1, 1, 1, 0, 0⟩ (0, 2 ^ 29) ≠ 0 := by decide +kernel
    unfold drawn strokesAt firstWhite
    rw [positions_snoc, topmost_append, topmost_cons, topmost_nil, Option.none_or]
    rw [Function.update_of_ne hindex, wrapped_stroke (by decide) (by decide +kernel)]
    decide +kernel
  unfold Repaints
  rw [hdirty, hfull]
  decide

end ExoCore.Display
