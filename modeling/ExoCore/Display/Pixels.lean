/-
  ExoCore.Display.Pixels — `read_pixel` after `write_pixel`.

  In the upright layout a pixel owns its bytes, so what is written is read back and
  nothing else changes.  In the layout that `framebuffer_configure` takes for rotated,
  `py = width - 1 - x` runs over the LOGICAL width, which is the other side of the
  screen: some logical pixels have no place in memory, and a write to them is lost.

  • `roundTrip_of_flat`   — the upright layout.
  • `exists_offScreen`    — every rotated layout has a pixel that is lost.
-/
import ExoCore.Display.Grid

namespace ExoCore.Display

open ExoCore.Lib

/-! ## §1. Write and read. -/

variable {fb : Framebuffer} {x y x' y' c : ℕ} {m : Bytes}

/-- What `framebuffer_configure` takes for a rotated screen. -/
theorem Configured.rotated (h : Configured fb) (hav : fb.available = true)
    (hrot : fb.rotate90Cw = true) :
    fb.pitch / fb.bytesPerPixel = fb.height ∧ fb.width ≠ fb.height := by
  induction h with
  | zero => cases hav
  | configure _ a _ =>
    unfold framebufferConfigure at hav hrot ⊢
    grind [refreshPalette]
  | enable _ on ih => exact ih hav hrot

/-- `read_pixel` and `write_pixel` as a store of logical pixels. -/
structure RoundTrip (fb : Framebuffer) : Prop where
  same : ∀ m x y c, x < fb.logicalWidth → y < fb.logicalHeight →
    readPixel fb (writePixel fb x y c m) x y = c % 2 ^ (8 * fb.bytesPerPixel)
  other : ∀ m x y x' y' c, x < fb.logicalWidth → y < fb.logicalHeight → x' < fb.logicalWidth →
    y' < fb.logicalHeight → (x', y') ≠ (x, y) →
    readPixel fb (writePixel fb x y c m) x' y' = readPixel fb m x' y'
  inside : ∀ m x y c b, x < fb.logicalWidth → y < fb.logicalHeight → fb.pitch * fb.height ≤ b →
    writePixel fb x y c m b = m b

/-- A write leaves the bytes of every other pixel alone. -/
theorem writePixel_outside {b : ℕ} (h : ¬InPixel fb x y b) : writePixel fb x y c m b = m b := by
  rw [writePixel_paints fb x y c, pixelStroke, if_neg h]
  rfl

theorem Flat.inPixel_lt (hf : Flat fb) {b : ℕ} (h : InPixel fb x y b) : b < fb.pitch * fb.height := by
  obtain ⟨hs, -, hhi⟩ := h
  obtain ⟨hx, hy⟩ := hf.onScreen_iff.mp hs
  have hpitch := hf.pitch
  have hrow : (y + 1) * fb.pitch ≤ fb.height * fb.pitch := Nat.mul_le_mul_right _ hy
  have hcol : (x + 1) * fb.bytesPerPixel ≤ fb.width * fb.bytesPerPixel := Nat.mul_le_mul_right _ hx
  rw [hf.pixelOffset_eq hs] at hhi
  rw [Nat.succ_mul] at hrow hcol
  rw [Nat.mul_comm]
  omega

theorem Flat.bytes_le (hf : Flat fb) : fb.bytesPerPixel ≤ 4 := by
  have hbytes := hf.known.bytes
  have hbpp := hf.bpp
  omega

theorem roundTrip_of_flat (hf : Flat fb) : RoundTrip fb := by
  have hscreen : ∀ {x y}, x < fb.logicalWidth → y < fb.logicalHeight → onScreen fb x y = true := by
    intro x y hx hy
    rw [hf.logical.1] at hx
    rw [hf.logical.2] at hy
    exact hf.onScreen_iff.mpr ⟨hx, hy⟩
  have hmin : min fb.bytesPerPixel 4 = fb.bytesPerPixel := min_eq_left hf.bytes_le
  refine ⟨fun m x y c hx hy => ?_, fun m x y x' y' c hx hy hx' hy' hne => ?_,
    fun m x y c b hx hy hb => ?_⟩
  · rw [readPixel, writePixel, if_pos (hscreen hx hy), if_pos (hscreen hx hy), hmin, rdLE_wrLE, pow_mul]
    rfl
  · rw [readPixel, readPixel, if_pos (hscreen hx' hy'), if_pos (hscreen hx' hy'), hmin]
    refine rdLE_congr _ _ fun b hlo hhi => writePixel_outside fun hin => hne ?_
    obtain ⟨rfl, rfl⟩ := inPixel_unique hf hin ⟨hscreen hx' hy', hlo, hhi⟩
    rfl
  · refine writePixel_outside fun hin => ?_
    have hlt := hf.inPixel_lt hin
    omega

/-- A rotated layout has a logical pixel without a place in memory. -/
theorem exists_offScreen (hk : Known fb) (hrot : fb.rotate90Cw = true) (hne : fb.width ≠ fb.height)
    (hw : fb.width < 2 ^ 32) (hh : fb.height < 2 ^ 32) :
    ∃ x, x < fb.logicalWidth ∧ 0 < fb.logicalHeight ∧ onScreen fb x 0 = false := by
  have hlw := hk.logicalWidth
  have hlh := hk.logicalHeight
  have hpos := hk.width
  have hpos' := hk.height
  rw [hrot, if_pos rfl] at hlw hlh
  have hoff : ∀ x, fb.height ≤ sub32 (sub32 fb.width 1) x → onScreen fb x 0 = false := by
    intro x hle
    have hrow : decide ((physical fb x 0).2 < fb.height) = false := by
      simpa [physical, hrot] using hle
    rw [onScreen, hrow, Bool.and_false]
  rcases Nat.lt_or_gt_of_ne hne with hlt | hgt
  · -- taller than wide: `width - 1 - width` wraps
    refine ⟨fb.width, by omega, by omega, hoff _ ?_⟩
    unfold sub32
    omega
  · refine ⟨0, by omega, by omega, hoff _ ?_⟩
    unfold sub32
    omega

theorem not_roundTrip_of_offScreen (hk : Known fb) (hx : x < fb.logicalWidth)
    (hy : y < fb.logicalHeight) (hs : onScreen fb x y = false) : ¬RoundTrip fb := by
  intro h
  have hread := h.same (fun _ => 0) x y 1 hx hy
  have hdepth := hk.depth
  rw [readPixel, if_neg (by simp [hs]), Nat.mod_eq_of_lt (Nat.one_lt_two_pow (by omega))] at hread
  omega

/-- **PIXELS ROUND-TRIP EXACTLY IN THE UPRIGHT LAYOUT.** -/
theorem roundTrip_iff (fb : Framebuffer) (hc : Configured fb) (hen : fb.enabled = true)
    (hbytes : fb.bytesPerPixel ≤ 4) (hstore : fb.pitch * fb.height < 2 ^ 32)
    (hpitch : fb.rotate90Cw = false → fb.width * fb.bytesPerPixel ≤ fb.pitch)
    (hwidth : fb.width < 2 ^ 32) : RoundTrip fb ↔ fb.rotate90Cw = false := by
  have hav := hc.inv.1 hen
  have hk := hc.inv.2 hav
  constructor
  · intro h
    by_contra hrot
    rw [Bool.not_eq_false] at hrot
    obtain ⟨hstride, hne⟩ := hc.rotated hav hrot
    have hpos := hk.height
    have hheight : fb.height < 2 ^ 32 := by
      have hdiv := Nat.div_le_self fb.pitch fb.bytesPerPixel
      have hmul : 1 * fb.height ≤ fb.pitch * fb.height := Nat.mul_le_mul_right _ (by omega)
      omega
    obtain ⟨x, hx, hy, hs⟩ := exists_offScreen hk hrot hne hwidth hheight
    exact not_roundTrip_of_offScreen hk hx hy hs h
  · intro hrot
    have hb := hk.bytes
    exact roundTrip_of_flat ⟨hc, hen, hrot, by omega, hpitch hrot, hstore⟩

/-! ## §2. Two screens. -/

/-- 1024 by 768 pixels of 32 bits, with rows of `pitch` bytes. -/
def sampleMode (pitch : ℕ) : Mode :=
  { addr := 0xE0000000, pitch := pitch, width := 1024, height := 768, bpp := 32, type := 1,
    redPosition := 16, redSize := 8, greenPosition := 8, greenSize := 8, bluePosition := 0,
    blueSize := 8, reservedPosition := 24, reservedSize := 8 }

/-- The upright screen. -/
def sampleScreen : Framebuffer := framebufferEnable (framebufferConfigure .zero (sampleMode 4096)) true

theorem sampleScreen_flat : Flat sampleScreen :=
  ⟨.enable (.configure .zero _) true, rfl, rfl, by decide, by decide, by decide⟩

theorem roundTrip_upright : RoundTrip sampleScreen :=
  (roundTrip_iff _ sampleScreen_flat.configured rfl (by decide) (by decide) (fun _ => by decide)
    (by decide)).mpr rfl

/-- With rows of 768 pixels the screen counts as rotated, and the left column is lost. -/
theorem not_roundTrip_rotated :
    ¬RoundTrip (framebufferEnable (framebufferConfigure .zero (sampleMode 3072)) true) :=
  not_roundTrip_of_offScreen (x := 0) (y := 0)
    ((Configured.enable (.configure .zero (sampleMode 3072)) true).inv.2 rfl) (by decide) (by decide)
    (by decide)

end ExoCore.Display
