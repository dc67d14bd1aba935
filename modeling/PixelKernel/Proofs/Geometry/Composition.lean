import PixelKernel.Geometry.Affine
import Mathlib.Algebra.Field.Rat
import Mathlib.Tactic.LinearCombination
import Mathlib.Tactic.Ring

/-! # Composed maps in exact arithmetic

Composed maps act one after the other and their determinants multiply, so what is composed of maps
that can be inverted can be inverted. Dividing by a determinant and multiplying by its reciprocal
give the same inverse, which undoes the map on both sides.
-/

namespace PixelKernel.Affine

variable {t inverse : Affine Rat}

theorem one_eq : (Scalar.one : Rat) = 1 := rfl

theorem zero_eq : (Scalar.zero : Rat) = 0 := rfl

/-! ## Composition -/

theorem apply_identity (p : Point Rat) : identity.apply p = p := by
  simp [apply, identity, one_eq, zero_eq]

theorem after_identity (t : Affine Rat) : t.after identity = t := by
  simp [after, identity, one_eq, zero_eq]

theorem apply_after (t s : Affine Rat) (p : Point Rat) :
    (t.after s).apply p = t.apply (s.apply p) := by
  simp only [apply, after, Point.mk.injEq]
  constructor <;> ring

theorem determinant_identity : (identity : Affine Rat).determinant = 1 := by
  simp [determinant, identity, one_eq, zero_eq]

theorem determinant_after (t s : Affine Rat) :
    (t.after s).determinant = t.determinant * s.determinant := by
  simp only [determinant, after]
  ring

/-! ## Inversion -/

section

variable (regular : t.determinant ≠ 0)

include regular

theorem after_reciprocalInverse : t.after t.reciprocalInverse = identity := by
  have unit : 1 / t.determinant * (t.a * t.d - t.b * t.c) = 1 := one_div_mul_cancel regular
  simp only [after, reciprocalInverse, identity, one_eq, zero_eq, mk.injEq]
  generalize 1 / t.determinant = i at unit ⊢
  refine ⟨?_, ?_, ?_, ?_, ?_, ?_⟩
  · linear_combination unit
  · ring
  · ring
  · linear_combination unit
  · linear_combination -t.e * unit
  · linear_combination -t.f * unit

theorem reciprocalInverse_after : t.reciprocalInverse.after t = identity := by
  have unit : 1 / t.determinant * (t.a * t.d - t.b * t.c) = 1 := one_div_mul_cancel regular
  simp only [after, reciprocalInverse, identity, one_eq, zero_eq, mk.injEq]
  generalize 1 / t.determinant = i at unit ⊢
  refine ⟨?_, ?_, ?_, ?_, ?_, ?_⟩
  · linear_combination unit
  · ring
  · ring
  · linear_combination unit
  · ring
  · ring

theorem apply_reciprocalInverse (p : Point Rat) : t.apply (t.reciprocalInverse.apply p) = p := by
  rw [← apply_after, after_reciprocalInverse regular, apply_identity]

theorem reciprocalInverse_apply (p : Point Rat) : t.reciprocalInverse.apply (t.apply p) = p := by
  rw [← apply_after, reciprocalInverse_after regular, apply_identity]

end

theorem quotientInverse_eq (t : Affine Rat) : t.quotientInverse = t.reciprocalInverse := by
  simp only [quotientInverse, reciprocalInverse, ofElements, elements, one_eq, mk.injEq]
  refine ⟨?_, ?_, ?_, ?_, ?_, ?_⟩ <;> ring

theorem inverse?_eq_some (h : t.inverse? = some inverse) : inverse = t.reciprocalInverse := by
  unfold inverse? at h
  split at h
  · cases h
  · rw [← quotientInverse_eq]
    exact (Option.some.inj h).symm

end PixelKernel.Affine
