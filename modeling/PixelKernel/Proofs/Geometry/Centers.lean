import PixelKernel.Geometry.Rect
import PixelKernel.Proofs.Number.Whole

/-! # Pixels of one unit

A rectangle with whole corners that is divided into pixels of one unit has its pixel centers where
the plane has them: the corners and the size that they are computed from leave no trace.
-/

namespace PixelKernel

open Scalar (half)

/-- Middle of a pixel of the plane. -/
def Point.middle (column row : ℤ) : Point Float :=
  ⟨Float.ofInt column + half, Float.ofInt row + half⟩

namespace Rect

/-- The corners are these whole numbers, of a magnitude below `2 ^ 50`. -/
structure Whole (r : Rect Float) (c : Rect ℤ) : Prop where
  x0 : Denotes r.x0 c.x0
  y0 : Denotes r.y0 c.y0
  x1 : Denotes r.x1 c.x1
  y1 : Denotes r.y1 c.y1
  near : (|c.x0| < 2 ^ 50 ∧ |c.x1| < 2 ^ 50) ∧ |c.y0| < 2 ^ 50 ∧ |c.y1| < 2 ^ 50

/-- Columns of one unit between the corners. -/
def columns (c : Rect ℤ) : Nat := (c.x1 - c.x0).toNat

def rows (c : Rect ℤ) : Nat := (c.y1 - c.y0).toNat

/-- The pixel in a column and a row. -/
def pixel (column row : ℤ) : Rect ℤ := ⟨column, row, column + 1, row + 1⟩

/-- No pixel of the rectangle is outside the other one. -/
structure Inside (d c : Rect ℤ) : Prop where
  left : c.x0 ≤ d.x0
  top : c.y0 ≤ d.y0
  right : d.x1 ≤ c.x1
  bottom : d.y1 ≤ c.y1

end Rect

section

variable {x x0 x1 : Float} {a b : ℤ} {i n : Nat}

theorem denotes_middle (near : |a| < 2 ^ 52) : Denotes (Float.ofInt a + half) (a + 1 / 2) := by
  have few := abs_lt.1 near
  exact (denotes_ofInt (by omega)).add denotes_half (halves_middle near)

/-- Middles of pixels are no zeros, so their numbers tell the coordinates. -/
theorem eq_middle (h : Denotes x (a + 1 / 2)) (near : |a| < 2 ^ 52) :
    x = Float.ofInt a + half := by
  refine h.eq (denotes_middle near) fun zero => ?_
  have odd : (2 * a + 1 : ℚ) = 0 := by linarith
  have odd : 2 * a + 1 = 0 := by exact_mod_cast odd
  omega

/-- How far the middle of a column is from the left, when there is one column for each unit. -/
theorem counted_of_width {width : Float} (whole : Denotes width n) (inside : i < n)
    (few : n < 2 ^ 52) :
    Denotes ((Scalar.ofNat i + half) * (width / Scalar.ofNat (Nat.max n 1))) (i + 1 / 2) := by
  have least : Nat.max n 1 = n := Nat.max_eq_left (by omega)
  have count : Denotes (Scalar.ofNat n) n := denotes_ofNat (by omega)
  have some_ : (n : ℚ) ≠ 0 := by
    rw [Nat.cast_ne_zero]
    omega
  have unit : width / Scalar.ofNat (Nat.max n 1) = Scalar.one := by
    rw [least, whole.eq count some_, count.div_self some_]
  have halves : Halves (i + 1 / 2) := by
    rw [← Int.cast_natCast]
    exact halves_middle (by rw [abs_lt]; omega)
  have product := ((denotes_ofNat (n := i) (by omega)).add denotes_half halves).mul denotes_one
  rw [mul_one] at product
  rw [unit]
  exact product halves

/-- The middle of a column that is one unit wide. -/
theorem middle_of_columns (left : Denotes x0 a) (right : Denotes x1 b)
    (near : |a| < 2 ^ 50 ∧ |b| < 2 ^ 50) (size : n = (b - a).toNat) (inside : i < n) :
    x0 + (Scalar.ofNat i + half) * ((x1 - x0) / Scalar.ofNat (Nat.max n 1)) =
      Float.ofInt (a + i) + half := by
  rw [abs_lt, abs_lt] at near
  have length : b - a = n := by omega
  have whole : Denotes (x1 - x0) n := by
    have width := right.sub left
    rw [← Int.cast_sub, length] at width
    exact_mod_cast width (halves_int (by rw [abs_le]; omega))
  have near : |a + (i : ℤ)| < 2 ^ 52 := by
    rw [abs_lt]
    omega
  have moved := left.add (counted_of_width whole inside (by omega))
  rw [← add_assoc, ← Int.cast_natCast, ← Int.cast_add] at moved
  exact eq_middle (moved (halves_middle near)) near

/-- The middle of a column that is counted from the left. -/
theorem middle_of_count (left : Denotes x0 a) (near : |a| < 2 ^ 50) (few : i < 2 ^ 51) :
    x0 + Scalar.ofNat i + half = Float.ofInt (a + i) + half := by
  rw [abs_lt] at near
  have near : |a + (i : ℤ)| < 2 ^ 52 := by
    rw [abs_lt]
    omega
  have column : Denotes (x0 + Scalar.ofNat i) (a + i : ℤ) := by
    have sum := left.add (denotes_ofNat (n := i) (by omega))
    rw [← Int.cast_natCast, ← Int.cast_add] at sum
    exact sum (halves_int near.le)
  exact eq_middle (column.add denotes_half (halves_middle near)) near

end

namespace Rect.Whole

variable {r : Rect Float} {c : Rect ℤ} {i j : Nat}

theorem isFinite (h : r.Whole c) : r.isFinite = true := by
  simp only [Rect.isFinite, h.x0.finite, h.y0.finite, h.x1.finite, h.y1.finite, Bool.and_true]

/-- Pixel centers are those of the plane. -/
theorem pixelCenter_eq (h : r.Whole c) (column : i < c.columns) (row : j < c.rows) :
    r.pixelCenter c.columns c.rows i j = .middle (c.x0 + i) (c.y0 + j) :=
  congrArg₂ Point.mk (middle_of_columns h.x0 h.x1 h.near.1 rfl column)
    (middle_of_columns h.y0 h.y1 h.near.2 rfl row)

theorem ofNat {a b c d : Nat} (few : (a < 2 ^ 50 ∧ c < 2 ^ 50) ∧ b < 2 ^ 50 ∧ d < 2 ^ 50) :
    (⟨Float.ofNat a, Float.ofNat b, Float.ofNat c, Float.ofNat d⟩ : Rect Float).Whole
      ⟨a, b, c, d⟩ := by
  have denotes {n : Nat} (few : n < 2 ^ 50) : Denotes (Float.ofNat n) ((n : ℤ) : ℚ) :=
    Int.cast_natCast (R := ℚ) n ▸ denotes_ofNat (by omega)
  refine ⟨denotes few.1.1, denotes few.2.1, denotes few.1.2, denotes few.2.2, ?_⟩
  simp only [abs_lt]
  omega

/-- The center of a single pixel. -/
theorem center_pixel {column row : ℤ} (h : r.Whole (.pixel column row)) :
    r.pixelCenter 1 1 0 0 = .middle column row := by
  have size : (Rect.pixel column row).columns = 1 ∧ (Rect.pixel column row).rows = 1 := by
    simp [columns, rows, pixel]
  have center := h.pixelCenter_eq (i := 0) (j := 0) (by omega) (by omega)
  rw [size.1, size.2] at center
  simpa [pixel] using center

end Rect.Whole

end PixelKernel
