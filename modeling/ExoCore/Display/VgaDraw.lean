/-
  ExoCore.Display.VgaDraw — the drawing module of `kernel/vga_draw.c`.

  Two arrays of 80 by 25 cells: what is being drawn, and what was last presented.  A
  store into the back buffer is CHECKED (`VgaFault.backBuffer` outside its 2000 cells);
  `vga_draw_line` loops until its end point is met and takes fuel.  The arithmetic of
  the arguments is that of 32-bit signed words.

  Presenting on the framebuffer repaints only the cells that differ from the previous
  presentation (`vgaDrawPresent`).  `vgaDrawPresentFull` is what it stands for: the
  same call that always repaints every cell.

  The lock on VGA text memory is left out; `front_buffer` is null until
  `vga_draw_init` runs without a framebuffer.
-/
import ExoCore.Display.Console
import ExoCore.Lib.Run
import Mathlib.Tactic.IntervalCases

namespace ExoCore.Display

open ExoCore.Lib Function

/-! ## §1. State. -/

/-- `VGA_DRAW_COLS`. -/
def vgaDrawCols : ℕ := 80

/-- `VGA_DRAW_ROWS`. -/
def vgaDrawRows : ℕ := 25

/-- The static data of `vga_draw.c`. -/
structure VgaDraw where
  backBuffer : ℕ → UInt16
  prevBuffer : ℕ → UInt16
  active : Bool
  initialised : Bool
  prevValid : Bool
  prevCols : ℕ
  prevRows : ℕ
  /-- Whether `front_buffer` points to VGA text memory. -/
  frontBuffer : Bool

/-- The drawing module and the screen. -/
structure Gfx where
  vga : VgaDraw
  scr : Screen

inductive VgaFault where
  /-- A store outside the back buffer. -/
  | backBuffer
  /-- A presentation through a null `front_buffer`. -/
  | frontBuffer
  /-- The fuel of `vga_draw_line` is used up. -/
  | outOfFuel
  deriving Repr, DecidableEq

/-! ## §2. Cells. -/

/-- `pack_cell`. -/
def packCell (ch attr : UInt8) : UInt16 := UInt16.ofNat (attr.toNat * 256 + ch.toNat)

/-- `back_buffer[i] = cell`. -/
def storeCell (buf : ℕ → UInt16) (i : ℕ) (cell : UInt16) : Except VgaFault (ℕ → UInt16) :=
  if i < vgaDrawRows * vgaDrawCols then .ok (update buf i cell) else .error .backBuffer

/-- The four cells of a 64-bit store at index `i`. -/
def store64 (buf : ℕ → UInt16) (i pattern : ℕ) : Except VgaFault (ℕ → UInt16) :=
  forUptoM 4 (fun k buf => storeCell buf (i + k) (UInt16.ofNat (pattern / 65536 ^ k))) buf

/-- `fill_cells`, of the cells from index `start` on. -/
def fillCells (buf : ℕ → UInt16) (start count : ℕ) (cell : UInt16) :
    Except VgaFault (ℕ → UInt16) := do
  let pattern := cell.toNat
  let pattern := pattern ||| pattern * 2 ^ 16
  let pattern := (pattern ||| pattern * 2 ^ 32) % 2 ^ 64
  let blocks := count / 4
  let buf ← forUptoM blocks (fun i buf => store64 buf (start + i * 4) pattern) buf
  forUptoM (count % 4) (fun i buf => storeCell buf (start + blocks * 4 + i) cell) buf

/-- The result of a function that only draws into the back buffer. -/
def VgaDraw.draw (v : VgaDraw) (buf : Except VgaFault (ℕ → UInt16)) : Except VgaFault VgaDraw :=
  buf.map fun buf => { v with backBuffer := buf }

/-! ## §3. Drawing. -/

/-- `vga_draw_init`. -/
def vgaDrawInit (fb : Framebuffer) (v : VgaDraw) : Except VgaFault VgaDraw := do
  let clearCell := packCell 32 (vgaAttr 15 0)
  let back ← fillCells v.backBuffer 0 (vgaDrawRows * vgaDrawCols) clearCell
  let prev ← fillCells v.prevBuffer 0 (vgaDrawRows * vgaDrawCols) clearCell
  .ok
    { backBuffer := back
      prevBuffer := prev
      active := false
      initialised := true
      prevValid := false
      prevCols := 0
      prevRows := 0
      frontBuffer := if fb.enabled then v.frontBuffer else true }

/-- `vga_draw_begin`. -/
def vgaDrawBegin (fb : Framebuffer) (v : VgaDraw) : Except VgaFault VgaDraw :=
  (if v.initialised then .ok v else vgaDrawInit fb v).map fun v => { v with active := true }

/-- `vga_draw_end`. -/
def vgaDrawEnd (v : VgaDraw) : VgaDraw := { v with active := false }

/-- `vga_draw_clear`. -/
def vgaDrawClear (v : VgaDraw) (ch attr : UInt8) : Except VgaFault VgaDraw :=
  if v.active then
    v.draw (fillCells v.backBuffer 0 (vgaDrawRows * vgaDrawCols) (packCell ch attr))
  else .ok v

/-- The test that a point lies on the grid. -/
def onGrid (x y : ℤ) : Bool :=
  decide (0 ≤ x) && decide (x < vgaDrawCols) && decide (0 ≤ y) && decide (y < vgaDrawRows)

/-- `vga_draw_set_cell`. -/
def vgaDrawSetCell (v : VgaDraw) (x y : ℤ) (ch attr : UInt8) : Except VgaFault VgaDraw :=
  if v.active && onGrid x y then
    v.draw (storeCell v.backBuffer (y.toNat * vgaDrawCols + x.toNat) (packCell ch attr))
  else .ok v

/-- The loop of `vga_draw_line`. -/
def lineLoop (x1 y1 dx dy sx sy : ℤ) (cell : UInt16) :
    ℕ → ℤ → ℤ → ℤ → (ℕ → UInt16) → Except VgaFault (ℕ → UInt16)
  | 0, _, _, _, _ => .error .outOfFuel
  | fuel + 1, x0, y0, err, buf => do
    let buf ← if onGrid x0 y0 then storeCell buf (y0.toNat * vgaDrawCols + x0.toNat) cell
      else .ok buf
    if x0 = x1 ∧ y0 = y1 then .ok buf
    else
      let e2 := toInt (err * 2)
      let right := toInt (-dy) < e2
      let down := e2 < dx
      let err := if right then toInt (err - dy) else err
      let err := if down then toInt (err + dx) else err
      lineLoop x1 y1 dx dy sx sy cell fuel (if right then toInt (x0 + sx) else x0)
        (if down then toInt (y0 + sy) else y0) err buf

/-- `vga_draw_line`. -/
def vgaDrawLine (fuel : ℕ) (v : VgaDraw) (x0 y0 x1 y1 : ℤ) (ch attr : UInt8) :
    Except VgaFault VgaDraw :=
  if v.active then
    let dx := if x0 < x1 then toInt (x1 - x0) else toInt (x0 - x1)
    let sx := if x0 < x1 then 1 else -1
    let dy := if y0 < y1 then toInt (y1 - y0) else toInt (y0 - y1)
    let sy := if y0 < y1 then 1 else -1
    v.draw (lineLoop x1 y1 dx dy sx sy (packCell ch attr) fuel x0 y0 (toInt (dx - dy)) v.backBuffer)
  else .ok v

/-- `(uint32_t)y * VGA_DRAW_COLS + (uint32_t)x`. -/
def cellAt (x y : ℤ) : ℕ := add32 (mul32 (y % 2 ^ 32).toNat vgaDrawCols) (x % 2 ^ 32).toNat

/-- The part of `vga_draw_rect` after the clipping. -/
def rectCells (buf : ℕ → UInt16) (x y w h : ℤ) (cell : UInt16) (fill : Bool) :
    Except VgaFault (ℕ → UInt16) :=
  if fill then
    forUptoM h.toNat (fun row buf => fillCells buf (cellAt x (y + row)) w.toNat cell) buf
  else do
    let buf ← fillCells buf (cellAt x y) w.toNat cell
    if 1 < h then do
      let buf ← fillCells buf (cellAt x (y + h - 1)) w.toNat cell
      -- `for (row = y + 1; row < y + h - 1; ++row)`, where the bound is a signed word
      forUptoM (toInt (y + h - 1) - (y + 1)).toNat (fun k buf => do
        let line := cellAt x (y + 1 + k)
        let buf ← storeCell buf line cell
        if 1 < w then storeCell buf (line + (w - 1).toNat) cell else .ok buf) buf
    else .ok buf

/-- `vga_draw_rect`. -/
def vgaDrawRect (v : VgaDraw) (x y w h : ℤ) (ch attr : UInt8) (fill : Bool) :
    Except VgaFault VgaDraw :=
  if !v.active ∨ w ≤ 0 ∨ h ≤ 0 ∨ (vgaDrawCols : ℤ) ≤ x ∨ (vgaDrawRows : ℤ) ≤ y then .ok v
  else
    let w := if x < 0 then toInt (w + x) else w
    let x := if x < 0 then 0 else x
    let h := if y < 0 then toInt (h + y) else h
    let y := if y < 0 then 0 else y
    if w ≤ 0 ∨ h ≤ 0 then .ok v
    else
      let w := if (vgaDrawCols : ℤ) < toInt (x + w) then toInt (vgaDrawCols - x) else w
      let h := if (vgaDrawRows : ℤ) < toInt (y + h) then toInt (vgaDrawRows - y) else h
      v.draw (rectCells v.backBuffer x y w h (packCell ch attr) fill)

/-! ## §4. Presenting. -/

/-- The copy of the back buffer to VGA text memory. -/
def copyFront (back : ℕ → UInt16) (video : Bytes) : Bytes :=
  forUpto (vgaDrawRows * vgaDrawCols) (fun i video =>
    let cell := (back i).toNat
    update (update video (2 * i) (UInt8.ofNat cell)) (2 * i + 1)
      (UInt8.ofNat (cell / 256))) video

/-- A presentation that draws on the framebuffer as `draw` does. -/
def presentBy (draw : VgaDraw → Framebuffer → Bytes → Bytes) (s : Gfx) : Except VgaFault Gfx :=
  if !s.vga.initialised then .ok s
  else if s.scr.fb.enabled then
    .ok
      { vga := { s.vga with
          prevBuffer := s.vga.backBuffer
          prevValid := true
          prevCols := vgaDrawCols
          prevRows := vgaDrawRows }
        scr := { s.scr with mem := draw s.vga s.scr.fb s.scr.mem } }
  else if s.vga.frontBuffer then
    .ok { s with scr := { s.scr with video := copyFront s.vga.backBuffer s.scr.video } }
  else .error .frontBuffer

/-- The full path of `vga_draw_present`. -/
def drawFull (v : VgaDraw) (fb : Framebuffer) (m : Bytes) : Bytes :=
  framebufferPresentTextGrid fb v.backBuffer vgaDrawCols vgaDrawRows m

/-- The choice that `vga_draw_present` makes. -/
def drawChanged (v : VgaDraw) (fb : Framebuffer) (m : Bytes) : Bytes :=
  if !v.prevValid ∨ v.prevCols ≠ vgaDrawCols ∨ v.prevRows ≠ vgaDrawRows then
    framebufferPresentTextGrid fb v.backBuffer vgaDrawCols vgaDrawRows m
  else framebufferPresentTextGridDirty fb v.backBuffer v.prevBuffer vgaDrawCols vgaDrawRows m

/-- `vga_draw_present`. -/
def vgaDrawPresent (s : Gfx) : Except VgaFault Gfx := presentBy drawChanged s

/-- A presentation that always takes the full path. -/
def vgaDrawPresentFull (s : Gfx) : Except VgaFault Gfx := presentBy drawFull s

/-! ## §5. Calls. -/

/-- The calls of the module. -/
inductive VgaOp where
  | init
  | beginDraw
  | endDraw
  | clear (ch attr : UInt8)
  | setCell (x y : ℤ) (ch attr : UInt8)
  | line (x0 y0 x1 y1 : ℤ) (ch attr : UInt8)
  | rect (x y w h : ℤ) (ch attr : UInt8) (fill : Bool)
  | present

/-- One call, with the given presenter. -/
def VgaOp.exec (present : Gfx → Except VgaFault Gfx) (fuel : ℕ) (s : Gfx) :
    VgaOp → Except VgaFault Gfx
  | .init => (vgaDrawInit s.scr.fb s.vga).map fun v => { s with vga := v }
  | .beginDraw => (vgaDrawBegin s.scr.fb s.vga).map fun v => { s with vga := v }
  | .endDraw => .ok { s with vga := vgaDrawEnd s.vga }
  | .clear ch attr => (vgaDrawClear s.vga ch attr).map fun v => { s with vga := v }
  | .setCell x y ch attr => (vgaDrawSetCell s.vga x y ch attr).map fun v => { s with vga := v }
  | .line x0 y0 x1 y1 ch attr =>
    (vgaDrawLine fuel s.vga x0 y0 x1 y1 ch attr).map fun v => { s with vga := v }
  | .rect x y w h ch attr fill =>
    (vgaDrawRect s.vga x y w h ch attr fill).map fun v => { s with vga := v }
  | .present => present s

/-! ## §6. Filling. -/

/-- The cells from `start` on, `count` of them, replaced. -/
def filled (buf : ℕ → UInt16) (start count : ℕ) (cell : UInt16) : ℕ → UInt16 := fun i =>
  if start ≤ i ∧ i < start + count then cell else buf i

section

variable (buf : ℕ → UInt16)

theorem filled_zero (start : ℕ) (cell : UInt16) : filled buf start 0 cell = buf := by
  funext i
  exact if_neg (by omega)

theorem filled_filled (start n k : ℕ) (cell : UInt16) :
    filled (filled buf start n cell) (start + n) k cell = filled buf start (n + k) cell := by
  funext i
  unfold filled
  by_cases h : start + n ≤ i ∧ i < start + n + k
  · rw [if_pos h, if_pos (by omega)]
  · rw [if_neg h]
    by_cases h' : start ≤ i ∧ i < start + n
    · rw [if_pos h', if_pos (by omega)]
    · rw [if_neg h', if_neg (by omega)]

theorem update_eq_filled (i : ℕ) (cell : UInt16) :
    update buf i cell = filled buf i 1 cell := by
  funext j
  rw [update_apply]
  unfold filled
  by_cases h : j = i
  · rw [if_pos h, if_pos (by omega)]
  · rw [if_neg h, if_neg (by omega)]

/-- A loop that fills piece by piece, each piece `k` cells long. -/
theorem forUpto_filled (start n k : ℕ) (cell : UInt16) :
    forUpto n (fun i buf => filled buf (start + i * k) k cell) buf = filled buf start (n * k) cell := by
  induction n with
  | zero => rw [Nat.zero_mul, filled_zero, forUpto_zero]
  | succ n ih => rw [forUpto_succ, ih, filled_filled, Nat.succ_mul]

end

theorem storeCell_filled {buf : ℕ → UInt16} {i : ℕ} {cell : UInt16}
    (h : i < vgaDrawRows * vgaDrawCols) : storeCell buf i cell = .ok (filled buf i 1 cell) := by
  unfold storeCell
  rw [if_pos h, update_eq_filled]

/-- The 64-bit pattern holds the cell four times. -/
theorem pattern_cell (cell : UInt16) {k : ℕ} (hk : k < 4) :
    UInt16.ofNat (((cell.toNat ||| cell.toNat * 2 ^ 16) |||
      (cell.toNat ||| cell.toNat * 2 ^ 16) * 2 ^ 32) % 2 ^ 64 / 65536 ^ k) = cell := by
  have hlt : cell.toNat < 2 ^ 16 := cell.toNat_lt
  have htwo : cell.toNat ||| cell.toNat * 2 ^ 16 = cell.toNat * 65537 := by
    rw [Nat.or_comm, Nat.mul_comm, ← Nat.two_pow_add_eq_or_of_lt hlt]
    omega
  have hfour : cell.toNat * 65537 ||| cell.toNat * 65537 * 2 ^ 32 =
      cell.toNat * 65537 * (2 ^ 32 + 1) := by
    have hlt' : cell.toNat * 65537 < 2 ^ 32 := by omega
    rw [Nat.or_comm, Nat.mul_comm (cell.toNat * 65537) (2 ^ 32), ← Nat.two_pow_add_eq_or_of_lt hlt']
    omega
  -- four digits to the base 65536
  have hdigits : cell.toNat * 65537 * (2 ^ 32 + 1) % 2 ^ 64 =
      cell.toNat + 65536 * (cell.toNat + 65536 * (cell.toNat + 65536 * cell.toNat)) := by omega
  have hdiv : ∀ r, (cell.toNat + 65536 * r) / 65536 = r := by omega
  rw [htwo, hfour, hdigits]
  refine UInt16.toNat_inj.mp ?_
  rw [UInt16.toNat_ofNat']
  interval_cases k <;>
    simp only [pow_succ, pow_zero, one_mul, ← Nat.div_div_eq_div_mul, hdiv, Nat.div_one] <;> omega

/-- **`fill_cells` fills exactly the cells it is asked to**, when they lie in the buffer. -/
theorem fillCells_eq (buf : ℕ → UInt16) {start count : ℕ} (cell : UInt16)
    (h : start + count ≤ vgaDrawRows * vgaDrawCols) :
    fillCells buf start count cell = .ok (filled buf start count cell) := by
  have hdiv : count / 4 * 4 + count % 4 = count := Nat.div_add_mod' count 4
  unfold fillCells
  dsimp only
  have hblock : ∀ i t, i < count / 4 → store64 t (start + i * 4)
      (((cell.toNat ||| cell.toNat * 2 ^ 16) ||| (cell.toNat ||| cell.toNat * 2 ^ 16) * 2 ^ 32) % 2 ^ 64) =
        .ok (filled t (start + i * 4) 4 cell) := by
    intro i t hi
    unfold store64
    rw [forUptoM_eq_ok fun k t => filled t (start + i * 4 + k * 1) 1 cell]
    · rw [forUpto_filled]
    · intro k t hk
      rw [pattern_cell cell hk, storeCell_filled (by omega), Nat.mul_one]
  have htail : ∀ i t, i < count % 4 → storeCell t (start + count / 4 * 4 + i) cell =
      .ok (filled t (start + count / 4 * 4 + i * 1) 1 cell) := by
    intro i t hi
    rw [storeCell_filled (by omega), Nat.mul_one]
  rw [forUptoM_eq_ok _ hblock, forUpto_filled]
  show forUptoM _ _ _ = _
  rw [forUptoM_eq_ok _ htail, forUpto_filled, filled_filled, Nat.mul_one, hdiv]

/-! ## §7. What a call can do. -/

/-- Nothing but the back buffer and the flag `active` has changed. -/
structure OnlyDrawn (v v' : VgaDraw) : Prop where
  prevBuffer : v'.prevBuffer = v.prevBuffer
  initialised : v'.initialised = v.initialised
  prevValid : v'.prevValid = v.prevValid
  prevCols : v'.prevCols = v.prevCols
  prevRows : v'.prevRows = v.prevRows

theorem OnlyDrawn.refl (v : VgaDraw) : OnlyDrawn v v := ⟨rfl, rfl, rfl, rfl, rfl⟩

theorem draw_onlyDrawn {v v' : VgaDraw} {buf : Except VgaFault (ℕ → UInt16)}
    (h : v.draw buf = .ok v') : OnlyDrawn v v' := by
  obtain ⟨b, -, rfl⟩ := map_ok.mp h
  exact ⟨rfl, rfl, rfl, rfl, rfl⟩

/-- A drawing call draws when its test passes and does nothing otherwise. -/
theorem guarded_onlyDrawn {v v' : VgaDraw} {buf : Except VgaFault (ℕ → UInt16)} {p : Prop}
    [Decidable p] (h : (if p then v.draw buf else .ok v) = .ok v') : OnlyDrawn v v' := by
  split at h
  · exact draw_onlyDrawn h
  · cases h
    exact .refl _

/-- A freshly initialised module. -/
structure Fresh (v : VgaDraw) : Prop where
  initialised : v.initialised = true
  prevValid : v.prevValid = false

theorem vgaDrawInit_eq (fb : Framebuffer) (v : VgaDraw) : vgaDrawInit fb v = .ok
    { backBuffer := filled v.backBuffer 0 (vgaDrawRows * vgaDrawCols) (packCell 32 (vgaAttr 15 0))
      prevBuffer := filled v.prevBuffer 0 (vgaDrawRows * vgaDrawCols) (packCell 32 (vgaAttr 15 0))
      active := false
      initialised := true
      prevValid := false
      prevCols := 0
      prevRows := 0
      frontBuffer := if fb.enabled then v.frontBuffer else true } := by
  unfold vgaDrawInit
  dsimp only
  rw [fillCells_eq _ _ (by decide), fillCells_eq _ _ (by decide)]
  rfl

theorem vgaDrawInit_fresh {fb : Framebuffer} {v v' : VgaDraw} (h : vgaDrawInit fb v = .ok v') :
    Fresh v' := by
  rw [vgaDrawInit_eq] at h
  cases h
  exact ⟨rfl, rfl⟩

/-- **What a call other than a presentation can do**: draw into the back buffer, or
initialise the module.  The screen is untouched. -/
theorem exec_cases {present : Gfx → Except VgaFault Gfx} {fuel : ℕ} {s t : Gfx} {op : VgaOp}
    (h : op.exec present fuel s = .ok t) :
    (op = .present ∧ present s = .ok t) ∨ (t.scr = s.scr ∧ (OnlyDrawn s.vga t.vga ∨ Fresh t.vga)) := by
  cases op with
  | present => exact .inl ⟨rfl, h⟩
  | init =>
    simp only [VgaOp.exec] at h
    obtain ⟨v, hv, rfl⟩ := map_ok.mp h
    exact .inr ⟨rfl, .inr (vgaDrawInit_fresh hv)⟩
  | beginDraw =>
    obtain ⟨v, hv, rfl⟩ := map_ok.mp h
    obtain ⟨w, hw, rfl⟩ := map_ok.mp hv
    refine .inr ⟨rfl, ?_⟩
    split at hw
    · cases hw
      exact .inl ⟨rfl, rfl, rfl, rfl, rfl⟩
    · have hfresh := vgaDrawInit_fresh hw
      exact .inr ⟨hfresh.initialised, hfresh.prevValid⟩
  | endDraw =>
    cases h
    exact .inr ⟨rfl, .inl ⟨rfl, rfl, rfl, rfl, rfl⟩⟩
  | clear ch attr =>
    obtain ⟨v, hv, rfl⟩ := map_ok.mp h
    exact .inr ⟨rfl, .inl (guarded_onlyDrawn hv)⟩
  | setCell x y ch attr =>
    obtain ⟨v, hv, rfl⟩ := map_ok.mp h
    exact .inr ⟨rfl, .inl (guarded_onlyDrawn hv)⟩
  | line x0 y0 x1 y1 ch attr =>
    obtain ⟨v, hv, rfl⟩ := map_ok.mp h
    exact .inr ⟨rfl, .inl (guarded_onlyDrawn hv)⟩
  | rect x y w height ch attr fill =>
    obtain ⟨v, hv, rfl⟩ := map_ok.mp h
    refine .inr ⟨rfl, .inl ?_⟩
    unfold vgaDrawRect at hv
    split at hv
    · cases hv
      exact .refl _
    · dsimp only at hv
      generalize (if x < 0 then toInt (w + x) else w) = w' at hv
      generalize (if y < 0 then toInt (height + y) else height) = height' at hv
      split at hv
      · cases hv
        exact .refl _
      · exact draw_onlyDrawn hv

end ExoCore.Display
