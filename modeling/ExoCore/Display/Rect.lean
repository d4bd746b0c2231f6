/-
  ExoCore.Display.Rect — the filled rectangles of `vga_draw_rect`.

  What a drawing call should do to the back buffer is said by a set of points:
  `plotted buf cell S` has `cell` at the points of `S` that lie on the grid.

  • `fillRow_eq`                  — a row of cells, stored as a plot.
  • `vgaDrawRect_fill_iff`        — a filled rectangle is right unless `x + w` or
                                    `y + h` wraps.
-/
import ExoCore.Display.VgaDraw

namespace ExoCore.Display

open ExoCore.Lib

/-! ## §1. Plots. -/

/-- The back buffer with `cell` at the points of `S` on the grid. -/
noncomputable def plotted (buf : ℕ → UInt16) (cell : UInt16) (S : ℤ → ℤ → Prop) : ℕ → UInt16 :=
  open Classical in
  fun i => if i < vgaDrawRows * vgaDrawCols ∧ S (i % 80 : ℕ) (i / 80 : ℕ) then cell else buf i

variable {buf : ℕ → UInt16} {cell : UInt16} {S T : ℤ → ℤ → Prop}

theorem plotted_or : plotted (plotted buf cell S) cell T = plotted buf cell fun a b => S a b ∨ T a b := by
  funext i
  unfold plotted
  grind

/-- Only the points on the grid count. -/
theorem plotted_congr (h : ∀ a b, 0 ≤ a → a < 80 → 0 ≤ b → b < 25 → (S a b ↔ T a b)) :
    plotted buf cell S = plotted buf cell T := by
  funext i
  have hi : i < vgaDrawRows * vgaDrawCols → i < 2000 := id
  unfold plotted
  grind

theorem plotted_none (h : ∀ a b, 0 ≤ a → a < 80 → 0 ≤ b → b < 25 → ¬S a b) :
    plotted buf cell S = buf := by
  funext i
  have hi : i < vgaDrawRows * vgaDrawCols → i < 2000 := id
  exact if_neg fun hS => h _ _ (by omega) (by omega) (by omega) (by have := hi hS.1; omega) hS.2

theorem forUpto_plotted (n : ℕ) (S : ℕ → ℤ → ℤ → Prop) :
    forUpto n (fun i buf => plotted buf cell (S i)) buf =
      plotted buf cell fun a b => ∃ i < n, S i a b := by
  induction n with
  | zero => exact (plotted_none (by simp)).symm
  | succ n ih =>
    rw [forUpto_succ, ih, plotted_or]
    exact plotted_congr fun a b _ _ _ _ => by grind

theorem filled_eq_plotted {x y w : ℕ} (hx : x + w ≤ 80) (hy : y < 25) :
    filled buf (y * 80 + x) w cell =
      plotted buf cell fun a b => (x : ℤ) ≤ a ∧ a < x + w ∧ b = y := by
  funext i
  unfold filled plotted vgaDrawRows vgaDrawCols
  by_cases h : y * 80 + x ≤ i ∧ i < y * 80 + x + w
  · rw [if_pos h, if_pos (by omega)]
  · rw [if_neg h, if_neg (by omega)]

/-- Up to the end of the grid the index does not wrap. -/
theorem cellAt_eq {x y : ℤ} (hx : 0 ≤ x) (hx' : x ≤ 80) (hy : 0 ≤ y) (hy' : y ≤ 25) :
    cellAt x y = y.toNat * 80 + x.toNat := by
  unfold cellAt add32 mul32 vgaDrawCols
  omega

/-- A row of a rectangle on the grid. -/
theorem fillRow_eq {x y w : ℤ} (hx : 0 ≤ x) (hxw : x + w ≤ 80) (hw : 0 ≤ w) (hy : 0 ≤ y) (hy' : y < 25) :
    fillCells buf (cellAt x y) w.toNat cell =
      .ok (plotted buf cell fun a b => x ≤ a ∧ a < x + w ∧ b = y) := by
  rw [cellAt_eq hx (by omega) hy hy'.le]
  lift x to ℕ using hx
  lift y to ℕ using hy
  lift w to ℕ using hw
  have hle : y * 80 + x + w ≤ vgaDrawRows * vgaDrawCols := by
    simp only [vgaDrawRows, vgaDrawCols]
    omega
  simp only [Int.toNat_natCast]
  rw [fillCells_eq buf cell hle, filled_eq_plotted (by omega) (by omega)]

/-! ## §2. Clipping. -/

/-- A 32-bit signed word. -/
def IsInt (x : ℤ) : Prop := -2 ^ 31 ≤ x ∧ x < 2 ^ 31

instance (x : ℤ) : Decidable (IsInt x) := inferInstanceAs (Decidable (_ ∧ _))

/-- Some cell of the rectangle is on the screen. -/
def Visible (x y w h : ℤ) : Prop := 0 < w ∧ 0 < h ∧ x < 80 ∧ y < 25 ∧ 0 < x + w ∧ 0 < y + h

variable {v : VgaDraw} {x y w h : ℤ} {ch attr : UInt8} {fill : Bool}

/-- The two steps of the clipping at zero. -/
theorem clip_start (x : ℤ) : (if x < 0 then 0 else x) = max x 0 := by
  split <;> omega

theorem clip_size (hx : IsInt x) (hw : IsInt w) (hpos : 0 < w) :
    (if x < 0 then toInt (w + x) else w) = x + w - max x 0 := by
  unfold IsInt at hx hw
  split
  · rw [toInt_of_range (by omega) (by omega)]
    omega
  · omega

/-- The clipping at the far side, when its sum does not wrap. -/
theorem clip_far {n : ℤ} (hx : x < n) (hn : 0 ≤ n) (hn' : n ≤ 80) (hpos : 0 < x + w) (hfit : x + w < 2 ^ 31) :
    (if n < toInt (max x 0 + (x + w - max x 0)) then toInt (n - max x 0) else x + w - max x 0) =
      min (x + w) n - max x 0 := by
  rw [toInt_of_range (by omega) (by omega)]
  split
  · rw [toInt_of_range (by omega) (by omega)]
    omega
  · omega

theorem vgaDrawRect_hidden (hx : IsInt x) (hy : IsInt y) (hw : IsInt w) (hh : IsInt h)
    (hhid : ¬Visible x y w h) : vgaDrawRect v x y w h ch attr fill = .ok v := by
  unfold Visible at hhid
  unfold vgaDrawRect vgaDrawCols vgaDrawRows
  split
  · rfl
  · simp only [clip_start, clip_size hx hw (by omega), clip_size hy hh (by omega)]
    exact if_pos (by omega)

/-- The clipped rectangle of a call that draws. -/
theorem vgaDrawRect_visible (hv : v.active) (hx : IsInt x) (hy : IsInt y) (hw : IsInt w)
    (hh : IsInt h) (hvis : Visible x y w h) :
    vgaDrawRect v x y w h ch attr fill = v.draw (rectCells v.backBuffer (max x 0) (max y 0)
      (if 80 < toInt (max x 0 + (x + w - max x 0)) then toInt (80 - max x 0) else x + w - max x 0)
      (if 25 < toInt (max y 0 + (y + h - max y 0)) then toInt (25 - max y 0) else y + h - max y 0)
      (packCell ch attr) fill) := by
  unfold Visible at hvis
  unfold vgaDrawRect vgaDrawCols vgaDrawRows
  rw [if_neg (by simp [hv]; omega)]
  simp only [clip_start, clip_size hx hw (by omega), clip_size hy hh (by omega)]
  exact if_neg (by omega)

/-- The far corner can be computed. -/
def CornerFits (x y w h : ℤ) : Prop := Visible x y w h → x + w < 2 ^ 31 ∧ y + h < 2 ^ 31

theorem vgaDrawRect_clipped (hv : v.active) (hx : IsInt x) (hy : IsInt y) (hw : IsInt w)
    (hh : IsInt h) (hvis : Visible x y w h) (hfit : CornerFits x y w h) :
    vgaDrawRect v x y w h ch attr fill = v.draw (rectCells v.backBuffer (max x 0) (max y 0)
      (min (x + w) 80 - max x 0) (min (y + h) 25 - max y 0) (packCell ch attr) fill) := by
  rw [vgaDrawRect_visible hv hx hy hw hh hvis]
  obtain ⟨hxw, hyh⟩ := hfit hvis
  unfold Visible at hvis
  rw [clip_far (by omega) (by omega) (by omega) (by omega) hxw,
    clip_far (by omega) (by omega) (by omega) (by omega) hyh]

/-! ## §3. Filling. -/

/-- The points of a rectangle. -/
def inRect (x y w h : ℤ) (a b : ℤ) : Prop := x ≤ a ∧ a < x + w ∧ y ≤ b ∧ b < y + h

theorem fillRows_eq (hx : 0 ≤ x) (hxw : x + w ≤ 80) (hw : 0 ≤ w) (hy : 0 ≤ y) (hh : 0 ≤ h) (hyh : y + h ≤ 25) :
    rectCells buf x y w h cell true = .ok (plotted buf cell (inRect x y w h)) := by
  have hrow : ∀ (i : ℕ) t, i < h.toNat → fillCells t (cellAt x (y + i)) w.toNat cell =
      .ok (plotted t cell fun a b => x ≤ a ∧ a < x + w ∧ b = y + i) := by
    intro i t hi
    exact fillRow_eq hx hxw hw (by omega) (by omega)
  refine (forUptoM_eq_ok _ hrow buf).trans (congrArg _ ?_)
  rw [forUpto_plotted]
  refine plotted_congr fun a b _ _ _ _ => ⟨?_, fun hin => ⟨(b - y).toNat, ?_⟩⟩ <;> unfold inRect at * <;> omega

theorem storeCell_ok {i : ℕ} {buf' : ℕ → UInt16} (h : storeCell buf i cell = .ok buf') :
    i < 2000 := by
  unfold storeCell at h
  split at h
  · assumption
  · cases h

/-- `fill_cells` leaves the buffer when it is asked to. -/
theorem fillCells_ok {start count : ℕ} {buf' : ℕ → UInt16}
    (h : fillCells buf start count cell = .ok buf') (hpos : 0 < count) : start + count ≤ 2000 := by
  obtain ⟨b, hblocks, htail⟩ := bind_ok.mp h
  by_cases hrem : count % 4 = 0
  · obtain ⟨u, u', hu⟩ := forUptoM_turn (i := count / 4 - 1) hblocks (by omega)
    obtain ⟨w, w', hw⟩ := forUptoM_turn (i := 3) hu (by omega)
    have hlt := storeCell_ok hw
    omega
  · obtain ⟨u, u', hu⟩ := forUptoM_turn (i := count % 4 - 1) htail (by omega)
    have hlt := storeCell_ok hu
    omega

/-- Where the sum of the far clipping wraps, nothing is cut off. -/
theorem clip_wraps {n : ℤ} (hx : x < n) (hn : n ≤ 80) (hw : IsInt w) (hwrap : 2 ^ 31 ≤ x + w) :
    (if n < toInt (max x 0 + (x + w - max x 0)) then toInt (n - max x 0) else x + w - max x 0) = w := by
  unfold IsInt at hw
  have hmax := toInt_eq (max x 0 + (x + w - max x 0))
  split at hmax <;> split <;> omega

theorem clip_pos {n : ℤ} (hx : x < n) (hn : 0 < n) (hn' : n ≤ 80) (hw : IsInt w) (hpos : 0 < w)
    (hxw : 0 < x + w) : 0 <
      if n < toInt (max x 0 + (x + w - max x 0)) then toInt (n - max x 0) else x + w - max x 0 := by
  rcases lt_or_ge (x + w) (2 ^ 31) with hlt | hge
  · rw [clip_far hx hn.le hn' hxw hlt]
    omega
  · rwa [clip_wraps hx hn' hw hge]

theorem vgaDrawRect_fill_ok {v' : VgaDraw} (hv : v.active) (hx : IsInt x) (hy : IsInt y)
    (hw : IsInt w) (hh : IsInt h) (hvis : Visible x y w h)
    (hok : vgaDrawRect v x y w h ch attr true = .ok v') : x + w < 2 ^ 31 ∧ y + h < 2 ^ 31 := by
  rw [vgaDrawRect_visible hv hx hy hw hh hvis] at hok
  unfold Visible at hvis
  unfold IsInt at hw hh
  obtain ⟨buf, hrows, -⟩ := map_ok.mp hok
  by_contra hwrap
  by_cases hyh : y + h < 2 ^ 31
  · -- the first row is filled past the end
    rw [clip_wraps (by omega) (by omega) hw (by omega),
      clip_far (by omega) (by omega) (by omega) (by omega) hyh] at hrows
    obtain ⟨u, u', hu⟩ := forUptoM_turn (i := 0) hrows (by omega)
    have hle := fillCells_ok hu (by omega)
    omega
  · -- the row below the last one is filled
    rw [clip_wraps (n := 25) (by omega) (by omega) hh (by omega)] at hrows
    obtain ⟨u, u', hu⟩ := forUptoM_turn (i := (25 - max y 0).toNat) hrows (by omega)
    have hpos := clip_pos (n := 80) (by omega) (by omega) (by omega) hw (by omega) hvis.2.2.2.2.1
    rw [cellAt_eq (by omega) (by omega) (by omega) (by omega)] at hu
    have hle := fillCells_ok hu (by omega)
    omega

/-- **FILLED RECTANGLES TOUCH EXACTLY THEIR VISIBLE CELLS, UNLESS THEIR FAR CORNER
WRAPS.** -/
theorem vgaDrawRect_fill_iff (v : VgaDraw) (hv : v.active) (x y w h : ℤ) (hx : IsInt x)
    (hy : IsInt y) (hw : IsInt w) (hh : IsInt h) (ch attr : UInt8) :
    vgaDrawRect v x y w h ch attr true =
        .ok { v with backBuffer := plotted v.backBuffer (packCell ch attr) (inRect x y w h) } ↔
      CornerFits x y w h := by
  constructor
  · intro hok hvis
    exact vgaDrawRect_fill_ok hv hx hy hw hh hvis hok
  · intro hfit
    by_cases hvis : Visible x y w h
    · rw [vgaDrawRect_clipped hv hx hy hw hh hvis hfit]
      unfold Visible at hvis
      rw [fillRows_eq (by omega) (by omega) (by omega) (by omega) (by omega) (by omega)]
      refine congrArg (fun buf => Except.ok { v with backBuffer := buf }) (plotted_congr ?_)
      intro a b ha ha' hb hb'
      unfold inRect
      omega
    · rw [vgaDrawRect_hidden hx hy hw hh hvis, plotted_none]
      intro a b ha ha' hb hb' hin
      unfold inRect at hin
      unfold Visible at hvis
      omega

/-- A drawing session on a blank grid. -/
def blankSession : VgaDraw :=
  { backBuffer := fun _ => 0, prevBuffer := fun _ => 0, active := true, initialised := true,
    prevValid := false, prevCols := 0, prevRows := 0, frontBuffer := true }

theorem vgaDrawRect_fill_corner :
    vgaDrawRect blankSession (-5) (-5) 10 10 65 7 true = .ok { blankSession with
      backBuffer := plotted (fun _ => 0) (packCell 65 7) (inRect (-5) (-5) 10 10) } :=
  (vgaDrawRect_fill_iff blankSession rfl (-5) (-5) 10 10 (by decide) (by decide) (by decide)
    (by decide) 65 7).mpr fun _ => by omega

/-- One column in, the widest rectangle is not clipped: it is filled past the buffer. -/
theorem vgaDrawRect_fill_widest :
    ¬∃ v', vgaDrawRect blankSession 1 0 (2 ^ 31 - 1) 1 65 7 true = .ok v' := by
  rintro ⟨v', hok⟩
  have hfit := vgaDrawRect_fill_ok rfl (by decide) (by decide) (by decide) (by decide)
    (by unfold Visible; omega) hok
  omega

end ExoCore.Display
