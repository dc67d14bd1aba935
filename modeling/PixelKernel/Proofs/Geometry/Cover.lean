import PixelKernel.Proofs.Geometry.Composition

/-! # Extents in exact arithmetic

An extent covers points. What covers a point before an operation on extents covers it afterwards,
where a map that can be inverted takes the point along.
-/

namespace PixelKernel

/-! ## Scalars -/

section

variable {a b c : Rat}

theorem atMost_iff_le : Scalar.atMost a b = true ↔ a ≤ b := decide_eq_true_iff

theorem less_iff_lt : Scalar.less a b = true ↔ a < b := decide_eq_true_iff

theorem isNaN_eq_false : Scalar.isNaN a = false := by
  simp [Scalar.isNaN, atMost_iff_le]

@[simp] theorem min_eq_min : Scalar.min a b = min a b := by
  simp only [Scalar.min, isNaN_eq_false, Bool.false_eq_true, if_false, less_iff_lt]
  split
  · next lt => exact (min_eq_right lt.le).symm
  · next ge => exact (min_eq_left (not_lt.1 ge)).symm

@[simp] theorem max_eq_max : Scalar.max a b = max a b := by
  simp only [Scalar.max, isNaN_eq_false, Bool.false_eq_true, if_false, less_iff_lt]
  split
  · next lt => exact (max_eq_right lt.le).symm
  · next ge => exact (max_eq_left (not_lt.1 ge)).symm

theorem abs_eq_abs : Scalar.abs a = |a| := by
  have zero : (Scalar.zero : Rat) = 0 := rfl
  simp only [Scalar.abs, less_iff_lt, zero]
  split
  · next neg => exact (abs_of_neg neg).symm
  · next nonneg => exact (abs_of_nonneg (not_lt.1 nonneg)).symm

/-- A multiple of what lies in a span is bounded by the multiples of the ends. -/
theorem mul_le_of_span {lo hi v : Rat} (low : lo ≤ v) (high : v ≤ hi) (k : Rat) :
    min (k * lo) (k * hi) ≤ k * v ∧ k * v ≤ max (k * lo) (k * hi) := by
  rcases le_total 0 k with nonneg | nonpos
  · exact ⟨min_le_of_left_le (mul_le_mul_of_nonneg_left low nonneg),
      le_max_of_le_right (mul_le_mul_of_nonneg_left high nonneg)⟩
  · exact ⟨min_le_of_right_le (mul_le_mul_of_nonpos_left high nonpos),
      le_max_of_le_left (mul_le_mul_of_nonpos_left low nonpos)⟩

end

/-! ## Rectangles -/

namespace Rect

variable {r a b : Rect Rat} {p : Point Rat}

/-- The point lies in the rectangle or on its edge. -/
structure Holds (r : Rect Rat) (p : Point Rat) : Prop where
  left : r.x0 ≤ p.x
  right : p.x ≤ r.x1
  top : r.y0 ≤ p.y
  bottom : p.y ≤ r.y1

/-- The extent that stands for the whole plane covers every point. -/
def Covers (r : Rect Rat) (p : Point Rat) : Prop := r = plane ∨ r.Holds p

theorem isInfinite_plane : (plane : Rect Rat).isInfinite = true := by
  decide +kernel

theorem covers_plane : plane.Covers p := .inl rfl

theorem Covers.holds (h : r.Covers p) (finite : ¬r.isInfinite = true) : r.Holds p :=
  h.resolve_left fun plane => finite (plane ▸ isInfinite_plane)

theorem holds_of_contains (h : r.contains p = true) : r.Holds p := by
  simp only [contains, Bool.and_eq_true, atMost_iff_le, less_iff_lt] at h
  obtain ⟨⟨⟨left, right⟩, top⟩, bottom⟩ := h
  exact ⟨left, right.le, top, bottom.le⟩

theorem Covers.intersect (first : a.Covers p) (second : b.Covers p) : (a.intersect b).Covers p := by
  unfold Rect.intersect
  split
  · exact second
  · next finite =>
    split
    · exact first
    · next finite' =>
      have first := first.holds finite
      have second := second.holds finite'
      refine .inr ⟨?_, ?_, ?_, ?_⟩
      · simpa using ⟨first.left, second.left⟩
      · simp [first.right, second.right]
      · simpa using ⟨first.top, second.top⟩
      · simp [first.bottom, second.bottom]

end Rect

/-! ## Maps -/

namespace Affine

variable {t inverse : Affine Rat} {r : Rect Rat} {p q : Point Rat}

theorem determinant_ne_zero (h : t.inverse? = some inverse) : t.determinant ≠ 0 := by
  intro zero
  unfold inverse? at h
  split at h
  · cases h
  next regular =>
    have nonneg : 0 ≤ epsilon * t.weight := by
      have weight : 0 ≤ t.weight :=
        add_nonneg (add_nonneg (add_nonneg (mul_self_nonneg _) (mul_self_nonneg _))
          (mul_self_nonneg _)) (mul_self_nonneg _)
      have epsilon : 0 ≤ (epsilon : Rat) := by decide +kernel
      exact mul_nonneg epsilon weight
    have small : Scalar.atMost (Scalar.abs t.determinant) (epsilon * t.weight) = true := by
      rw [atMost_iff_le, abs_eq_abs, zero, abs_zero]
      exact nonneg
    simp [isSingular, small] at regular

/-- The inverse leads back to where the map leads from. -/
theorem apply_inverse (h : t.inverse? = some inverse) (p : Point Rat) :
    t.apply (inverse.apply p) = p := by
  rw [inverse?_eq_some h]
  exact apply_reciprocalInverse (determinant_ne_zero h) p

theorem inverse_apply (h : t.inverse? = some inverse) (p : Point Rat) :
    inverse.apply (t.apply p) = p := by
  rw [inverse?_eq_some h]
  exact reciprocalInverse_apply (determinant_ne_zero h) p

/-- The image of a point of a rectangle lies in the rectangle around the image. -/
theorem holds_boundingBox (h : r.Holds q) (t : Affine Rat) : (t.boundingBox r).Holds (t.apply q) := by
  obtain ⟨ax, ax'⟩ := mul_le_of_span h.left h.right t.a
  obtain ⟨cy, cy'⟩ := mul_le_of_span h.top h.bottom t.c
  obtain ⟨bx, bx'⟩ := mul_le_of_span h.left h.right t.b
  obtain ⟨dy, dy'⟩ := mul_le_of_span h.top h.bottom t.d
  constructor
  all_goals simp only [boundingBox, Rect.hull, Rect.ofCorners, apply, min_eq_min, max_eq_max,
    min_add_add_left, min_add_add_right, max_add_add_left, max_add_add_right]
  · exact add_le_add_left (add_le_add ax cy) t.e
  · exact add_le_add_left (add_le_add ax' cy') t.e
  · exact add_le_add_left (add_le_add bx dy) t.f
  · exact add_le_add_left (add_le_add bx' dy') t.f

theorem covers_mapExtent (h : t.inverse? = some inverse) (below : r.Covers (inverse.apply p)) :
    (t.mapExtent r).Covers p := by
  unfold mapExtent
  split
  · exact Rect.covers_plane
  · next finite =>
    have moved := holds_boundingBox (below.holds finite) t
    rw [apply_inverse h] at moved
    exact .inr moved

end Affine
end PixelKernel
