/-
  ExoCore.Draw.Circle — `circle` of `mpymod/vga_draw/init.py`.

  A script is Python over unbounded integers: a call of a shape is the list of the calls of
  `pixel` and `line` it makes.  The midpoint walk keeps a DECISION variable only; what it
  stands for is the invariant `Tracks`.

  Main result: `circle_tracks` — every pair the walk visits lies within one cell of the
  circle; the outline is the octants of these pairs, closed under the eight symmetries.
-/
import Mathlib.Tactic.Linarith
import Mathlib.Tactic.Ring

namespace ExoCore.Draw

/-! ## §1. The calls a script makes. -/

/-- Character and colours of a drawing call. -/
structure Pen where
  ch : Char
  fg : ℤ
  bg : ℤ

/-- A call of `pixel` or `line`. -/
inductive Call
  | pixel (x y : ℤ) (pen : Pen)
  | line (x0 y0 x1 y1 : ℤ) (pen : Pen)

/-- `_clamp_color`: `value` is what `int(value)` gives, if it does not raise. -/
def clampColor (value : Option ℤ) : ℤ :=
  let numeric := value.getD 15
  if numeric < 0 then 0 else if 15 < numeric then 15 else numeric

/-- `_safe_char`: `text` is `str(value)`, empty for `None`. -/
def safeChar (text : List Char) (default : Char) : Char := text.headD default

def mkPen (char : List Char) (default : Char) (fg bg : Option ℤ) : Pen :=
  ⟨safeChar char default, clampColor fg, clampColor bg⟩

/-! ## §2. The circle. -/

/-- The variables of the loop of `circle`. -/
structure Midpoint where
  x : ℤ
  y : ℤ
  decision : ℤ

/-- The variables before the loop. -/
def Midpoint.start (radius : ℤ) : Midpoint := ⟨radius, 0, 1 - radius⟩

/-- The end of the loop's body. -/
def Midpoint.next (s : Midpoint) : Midpoint :=
  let y := s.y + 1
  if s.decision ≤ 0 then ⟨s.x, y, s.decision + 2 * y + 1⟩
  else ⟨s.x - 1, y, s.decision + 2 * y - 2 * (s.x - 1) + 1⟩

theorem Midpoint.next_y (s : Midpoint) : s.next.y = s.y + 1 := by
  unfold Midpoint.next
  split <;> rfl

theorem Midpoint.next_x_le (s : Midpoint) : s.next.x ≤ s.x := by
  unfold Midpoint.next
  split <;> simp

/-- The pairs `while x >= y` comes by, in order. -/
def visits (s : Midpoint) : List Midpoint :=
  if s.y ≤ s.x then s :: visits s.next else []
termination_by (s.x + 1 - s.y).toNat
decreasing_by
  have hy := s.next_y
  have hx := s.next_x_le
  omega

/-- The eight offsets of the pixels drawn at `(x, y)`. -/
def octants (x y : ℤ) : List (ℤ × ℤ) :=
  [(x, y), (-x, y), (x, -y), (-x, -y), (y, x), (-y, x), (y, -x), (-y, -x)]

/-- `_horizontal_span`. -/
def horizontalSpan (cx : ℤ) (pen : Pen) (spanY spanX : ℤ) : Call :=
  .line (cx - spanX) spanY (cx + spanX) spanY pen

/-- The calls of one turn. -/
def circleTurn (cx cy : ℤ) (pen : Pen) (fill : Bool) (s : Midpoint) : List Call :=
  if fill then
    [horizontalSpan cx pen (cy + s.y) s.x, horizontalSpan cx pen (cy - s.y) s.x,
      horizontalSpan cx pen (cy + s.x) s.y, horizontalSpan cx pen (cy - s.x) s.y]
  else (octants s.x s.y).map fun p => .pixel (cx + p.1) (cy + p.2) pen

def circle (cx cy radius : ℤ) (char : List Char) (fg bg : Option ℤ) (fill : Bool) : List Call :=
  (visits (.start radius)).flatMap (circleTurn cx cy (mkPen char 'o' fg bg) fill)

/-- **What the decision variable stands for**, and the bounds it keeps up to the diagonal. -/
structure Tracks (r : ℤ) (s : Midpoint) : Prop where
  decision : s.decision = s.x * s.x - s.x + (s.y + 1) * (s.y + 1) - r * r
  lower : s.y ≤ s.x → s.x * s.x - s.x ≤ r * r - s.y * s.y
  upper : r * r - s.y * s.y ≤ s.x * s.x + s.x
  nonneg : 0 ≤ s.y

theorem Tracks.start {r : ℤ} (hr : 0 ≤ r) : Tracks r (.start r) :=
  ⟨by simp only [Midpoint.start]; ring, fun _ => by simp only [Midpoint.start]; omega,
    by simp only [Midpoint.start]; omega, le_rfl⟩

theorem Tracks.next {r : ℤ} {s : Midpoint} (h : Tracks r s) (hs : s.y ≤ s.x) :
    Tracks r s.next := by
  have hd := h.decision
  have hlow := h.lower hs
  have hup := h.upper
  have hy := h.nonneg
  unfold Midpoint.next
  split
  · constructor <;> dsimp only
    · linarith
    · intro _
      linarith
    · nlinarith
    · omega
  · constructor <;> dsimp only
    · linarith
    · -- near the diagonal the bound is needed only while the walk goes on: `y + 2 ≤ x`
      intro hdiag
      nlinarith
    · nlinarith
    · omega

/-- **The walk**: turn `k` is at height `y + k`, and every turn tracks the circle. -/
theorem visits_get {r : ℤ} {s t : Midpoint} (h : Tracks r s) {k : ℕ}
    (hk : (visits s)[k]? = some t) : Tracks r t ∧ t.y = s.y + k ∧ t.y ≤ t.x := by
  induction k generalizing s with
  | zero =>
    rw [visits] at hk
    split at hk
    · cases hk
      exact ⟨h, by simp, ‹_›⟩
    · simp at hk
  | succ k ih =>
    rw [visits] at hk
    split at hk
    · obtain ⟨ht, hty, htx⟩ := ih (h.next ‹_›) hk
      refine ⟨ht, ?_, htx⟩
      rw [hty, s.next_y]
      omega
    · simp at hk

theorem mem_octants {x y : ℤ} {p : ℤ × ℤ} :
    p ∈ octants x y ↔ |p.1| = |x| ∧ |p.2| = |y| ∨ |p.1| = |y| ∧ |p.2| = |x| := by
  obtain ⟨a, b⟩ := p
  simp only [octants, List.mem_cons, List.not_mem_nil, or_false, Prod.mk.injEq, abs_eq_abs]
  grind

theorem mem_octants_symm {x y : ℤ} {p q : ℤ × ℤ} (hp : p ∈ octants x y)
    (hq : q ∈ octants p.1 p.2) : q ∈ octants x y := by
  rw [mem_octants] at hp hq ⊢
  obtain ⟨h1, h2⟩ | ⟨h1, h2⟩ := hp
  · rwa [h1, h2] at hq
  · rw [h1, h2] at hq
    exact hq.symm

theorem octants_max_min {x y : ℤ} {p : ℤ × ℤ} (hp : p ∈ octants x y) (hy : 0 ≤ y) (hx : y ≤ x) :
    max |p.1| |p.2| = x ∧ min |p.1| |p.2| = y := by
  have hax : |x| = x := abs_of_nonneg (hy.trans hx)
  have hay : |y| = y := abs_of_nonneg hy
  obtain ⟨h1, h2⟩ | ⟨h1, h2⟩ := mem_octants.mp hp
  · rw [h1, h2, hax, hay]
    exact ⟨max_eq_left hx, min_eq_right hx⟩
  · rw [h1, h2, hax, hay]
    exact ⟨max_eq_right hx, min_eq_left hx⟩

/-- The pair `(x, y)` is within one cell of the circle. -/
def WithinCell (r x y : ℤ) : Prop :=
  x * x - x ≤ r * r - y * y ∧ r * r - y * y ≤ x * x + x

/-- The outline has the pixel at the offset `p` of the centre. -/
def Outlined (cx cy : ℤ) (calls : List Call) (p : ℤ × ℤ) : Prop :=
  ∃ pen, Call.pixel (cx + p.1) (cy + p.2) pen ∈ calls

theorem outlined_iff (cx cy r : ℤ) (char : List Char) (fg bg : Option ℤ) (p : ℤ × ℤ) :
    Outlined cx cy (circle cx cy r char fg bg false) p ↔
      ∃ s ∈ visits (.start r), p ∈ octants s.x s.y := by
  simp only [Outlined, circle, circleTurn, List.mem_flatMap, List.mem_map, Call.pixel.injEq,
    Bool.false_eq_true, if_false]
  constructor
  · intro ⟨_, s, hs, q, hq, hx, hy, _⟩
    have hqp : q = p := Prod.ext (by omega) (by omega)
    exact ⟨s, hs, hqp ▸ hq⟩
  · intro ⟨s, hs, hp⟩
    exact ⟨_, s, hs, p, hp, rfl, rfl, rfl⟩

/-- **The midpoint circle**: the walk starts at `(r, 0)`, climbs by one, and stays within one
cell of the circle.  The outline is the octants of the pairs visited and nothing else: every
pixel is within one cell of the circle, and the eight symmetries keep the outline. -/
theorem circle_tracks (r : ℤ) (hr : 0 ≤ r) (cx cy : ℤ) (char : List Char) (fg bg : Option ℤ) :
    (visits (.start r))[0]? = some (.start r) ∧
    (∀ (k : ℕ) (s : Midpoint), (visits (.start r))[k]? = some s → s.y = k ∧ s.y ≤ s.x ∧
      s.x * s.x - s.x ≤ r * r - s.y * s.y ∧ r * r - s.y * s.y ≤ s.x * s.x + s.x) ∧
    (∀ p, Outlined cx cy (circle cx cy r char fg bg false) p ↔
      ∃ s ∈ visits (.start r), p ∈ octants s.x s.y) ∧
    (∀ p, Outlined cx cy (circle cx cy r char fg bg false) p →
      WithinCell r (max |p.1| |p.2|) (min |p.1| |p.2|)) ∧
    ∀ p q, Outlined cx cy (circle cx cy r char fg bg false) p → q ∈ octants p.1 p.2 →
      Outlined cx cy (circle cx cy r char fg bg false) q := by
  have hiff := outlined_iff cx cy r char fg bg
  refine ⟨?_, ?_, hiff, ?_, ?_⟩
  · rw [visits, if_pos (show (Midpoint.start r).y ≤ (Midpoint.start r).x from hr)]
    rfl
  · intro k s hk
    obtain ⟨ht, hy, hx⟩ := visits_get (.start hr) hk
    exact ⟨by rw [hy]; simp [Midpoint.start], hx, ht.lower hx, ht.upper⟩
  · intro p hp
    obtain ⟨s, hs, hps⟩ := (hiff p).mp hp
    obtain ⟨k, hk⟩ := List.mem_iff_getElem?.mp hs
    obtain ⟨ht, -, hx⟩ := visits_get (.start hr) hk
    obtain ⟨hmax, hmin⟩ := octants_max_min hps ht.nonneg hx
    rw [hmax, hmin]
    exact ⟨ht.lower hx, ht.upper⟩
  · intro p q hp hq
    obtain ⟨s, hs, hps⟩ := (hiff p).mp hp
    exact (hiff q).mpr ⟨s, hs, mem_octants_symm hps hq⟩

/-- A radius of three, around the origin: `(2, 2)` is the last pair, `(3, 3)` is not drawn. -/
theorem circle_tracks_three :
    visits (.start 3) = [⟨3, 0, -2⟩, ⟨3, 1, 1⟩, ⟨2, 2, 2⟩] ∧
      Outlined 0 0 (circle 0 0 3 [] none none false) (-1, 3) ∧
      ¬ Outlined 0 0 (circle 0 0 3 [] none none false) (3, 3) := by
  have hvisits : visits (.start 3) = [⟨3, 0, -2⟩, ⟨3, 1, 1⟩, ⟨2, 2, 2⟩] := by
    simp [visits, Midpoint.start, Midpoint.next]
  obtain ⟨-, -, hiff, hcell, -⟩ := circle_tracks 3 (by decide) 0 0 [] none none
  refine ⟨hvisits, (hiff _).mpr ?_, fun h => ?_⟩
  · rw [hvisits]
    exact ⟨⟨3, 1, 1⟩, by simp, by decide⟩
  · have := (hcell _ h).1
    revert this
    decide

end ExoCore.Draw
