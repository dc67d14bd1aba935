import PixelKernel.Graph.Evaluate
import PixelKernel.Proofs.Number.Whole

/-! # Places that stay

A place is read in double precision, moved, and rounded again. Neither the rounding nor the inverse
of the identity moves a finite place, but for a negative zero, which loses its sign.
-/

namespace PixelKernel

open Float.Model Float.Model.UnpackedFloat Nearest

namespace Nearest

variable {spec spec' : Format}

/-- What one format has, those that are as wide have too. -/
theorem Representable.wider {c : ℚ} (h : Representable spec c)
    (digits : spec.mantissaBits ≤ spec'.mantissaBits) (low : spec'.minExponent ≤ spec.minExponent) :
    Representable spec' c := by
  obtain ⟨k, j, rfl, few, least⟩ := h
  exact ⟨k, j, rfl, few.trans (pow_le_pow_right₀ one_le_two digits), low.trans least⟩

/-- Rounding to a format that has the number. -/
theorem round_eq {s : Sign} {m : Nat} {e : Int} (pos : 0 < m)
    (rep : Representable spec (s.apply m * 2 ^ e)) :
    Proper spec (UnpackedFloat.round spec s m e) ∧
      value (UnpackedFloat.round spec s m e) = s.apply m * 2 ^ e :=
  ⟨(round_rounds s pos e).1, (round_rounds s pos e).2.eq rep⟩

end Nearest

/-! ## Reading in double precision -/

section

variable {x : Float32}

theorem read_float32 (x : Float32) : Read .binary32 x.toModel.unpack :=
  read_unpack (by decide) _

theorem unpack_ofModel (u : UnpackedFloat) : (Float.ofModel (.pack u)).toModel.unpack =
    UnpackedFloat.unpack .binary64 (UnpackedFloat.pack .binary64 u) := rfl

theorem ofModel_pack {u : UnpackedFloat} (eq : x.toModel.unpack = u) :
    Float32.ofModel (.pack u) = x := by
  rw [← eq, Words.pack_unpack_float32]

/-- The double has the same value, and a zero has the same sign. -/
theorem unpack_widen (h : Proper .binary32 x.toModel.unpack) :
    Proper .binary64 (Binary.widen x).toModel.unpack ∧
      value (Binary.widen x).toModel.unpack = value x.toModel.unpack ∧
      ∀ s, (Binary.widen x).toModel.unpack = .zero s ↔ x.toModel.unpack = .zero s := by
  have rep : Representable .binary64 (value x.toModel.unpack) :=
    h.representable.wider (by decide) (by decide)
  have small : |value x.toModel.unpack| < limit .binary64 :=
    lt_limit (n := 128) (read_float32 x).lt_bound.le (by decide)
  rw [Binary.widen, unpack_ofModel]
  generalize x.toModel.unpack = u at h rep small ⊢
  cases u with
  | zero s =>
      dsimp only
      rw [unpack_pack_zero]
      exact ⟨trivial, rfl, fun s => Iff.rfl⟩
  | finite s m e pos =>
      dsimp only
      obtain ⟨proper, same⟩ := round_eq pos rep
      rw [Rounds.unpacked (by decide) (round_rounds s pos e) small]
      refine ⟨proper, same, fun s' => ⟨fun zero => ?_, nofun⟩⟩
      rw [zero] at same
      exact absurd same.symm (value_ne_zero s pos)
  | _ => exact h.elim

/-- What was read in double precision rounds to what it was. -/
theorem narrow_widen (h : Proper .binary32 x.toModel.unpack) :
    Binary.narrow (Binary.widen x) = x := by
  obtain ⟨proper, same, zero⟩ := unpack_widen h
  unfold Binary.narrow
  generalize (Binary.widen x).toModel.unpack = u at proper same zero ⊢
  cases u with
  | zero s => exact ofModel_pack ((zero s).1 rfl)
  | finite s m e pos =>
      have rep := h.representable
      rw [← same] at rep
      obtain ⟨proper', same'⟩ := round_eq pos rep
      have equal := same'.trans same
      refine ofModel_pack (eq_of_value (by decide) proper' h ?_ equal.symm ?_)
      · rw [equal]
        exact (read_float32 x).lt_bound
      · rw [same']
        exact value_ne_zero s pos
  | _ => exact proper.elim

end

/-! ## The inverse of the identity -/

section

variable {x y : Float} {s : Sign}

theorem float_ofModel_pack {u : UnpackedFloat} (eq : x.toModel.unpack = u) :
    Float.ofModel (.pack u) = x := by
  rw [← eq, Words.pack_unpack_float]

theorem one_mul_float (h : Proper .binary64 x.toModel.unpack) : Scalar.one * x = x := by
  obtain ⟨proper, unit⟩ := denotes_iff.1 denotes_one
  change Float.ofModel (Float.Model.pack
    (UnpackedFloat.mul .binary64 (Scalar.one : Float).toModel.unpack x.toModel.unpack)) = x
  refine float_ofModel_pack ?_
  have small := (read_float x).lt_bound
  cases unpacked : x.toModel.unpack with
  | zero s => cases s <;> rfl
  | finite s m e pos =>
      rw [unpacked] at h small
      exact (mul_kept (by decide) (by decide) h proper small (value_ne_zero s pos) unit).2.symm
  | _ => rw [unpacked] at h; exact h.elim

theorem neg_zero_mul_float (h : Proper .binary64 x.toModel.unpack) :
    ∃ s, (-Scalar.zero * x).toModel.unpack = .zero s := by
  change ∃ s, UnpackedFloat.unpack .binary64 (UnpackedFloat.pack .binary64
    (UnpackedFloat.mul .binary64 (-Scalar.zero : Float).toModel.unpack x.toModel.unpack)) = .zero s
  have zero : (-Scalar.zero : Float).toModel.unpack = .zero .negative := rfl
  rw [zero]
  cases unpacked : x.toModel.unpack with
  | zero s' | finite s' => exact ⟨_, unpack_pack_zero _⟩
  | _ => rw [unpacked] at h; exact h.elim

/-- Zeros of either sign add nothing, unless they are added to a negative zero. -/
theorem add_zero_unpacked {spec : Format} {u : UnpackedFloat} (signed : u ≠ .zero .negative)
    (s : Sign) :
    UnpackedFloat.add spec u (.zero s) = u ∧ UnpackedFloat.add spec (.zero s) u = u := by
  cases u with
  | zero s' =>
      cases s' with
      | positive => cases s <;> exact ⟨rfl, rfl⟩
      | negative => exact absurd rfl signed
  | _ => exact ⟨rfl, rfl⟩

theorem add_zero_float (signed : x.toModel.unpack ≠ .zero .negative)
    (zero : y.toModel.unpack = .zero s) : x + y = x ∧ y + x = x := by
  obtain ⟨left, right⟩ := @add_zero_unpacked .binary64 _ signed s
  rw [← zero] at left right
  exact ⟨(congrArg (Float.ofModel <| .pack ·) left).trans (float_ofModel_pack rfl),
    (congrArg (Float.ofModel <| .pack ·) right).trans (float_ofModel_pack rfl)⟩

/-- The entries off the diagonal are zeros with a sign. -/
theorem reciprocalInverse_identity : (Affine.identity : Affine Float).reciprocalInverse =
    ⟨Scalar.one, -Scalar.zero, -Scalar.zero, Scalar.one, Scalar.zero, Scalar.zero⟩ := by
  decide +kernel

theorem apply_reciprocalInverse_identity {p : Point Float}
    (finite : Proper .binary64 p.x.toModel.unpack ∧ Proper .binary64 p.y.toModel.unpack)
    (signed : p.x.toModel.unpack ≠ .zero .negative ∧ p.y.toModel.unpack ≠ .zero .negative) :
    (Affine.identity : Affine Float).reciprocalInverse.apply p = p := by
  obtain ⟨s, left⟩ := neg_zero_mul_float finite.1
  obtain ⟨s', right⟩ := neg_zero_mul_float finite.2
  rw [reciprocalInverse_identity, Affine.apply]
  dsimp only
  rw [one_mul_float finite.1, one_mul_float finite.2, (add_zero_float signed.1 right).1,
    (add_zero_float signed.2 left).2, (add_zero_float signed.1 Words.unpack_zero).1,
    (add_zero_float signed.2 Words.unpack_zero).1]

end

/-! ## Places -/

namespace Graph

open PixelKernel.Language (Pair)

/-- The inverse of the identity, applied to the place in double precision, leads to the place
    itself. -/
def Still (q : Pair) : Prop :=
  pairOf ((Affine.identity : Affine Float).reciprocalInverse.apply (pointOf q)) = q

/-- A finite place without negative zeros. -/
structure Settled (q : Pair) : Prop where
  finite : Scalar.finite q.1 = true ∧ Scalar.finite q.2 = true
  signed : q.1 ≠ -Scalar.zero ∧ q.2 ≠ -Scalar.zero

instance (q : Pair) : Decidable (Settled q) :=
  decidable_of_iff ((_ ∧ _) ∧ _ ∧ _) ⟨fun h => ⟨h.1, h.2⟩, fun h => ⟨h.1, h.2⟩⟩

theorem unpack_ne_of_ne {x : Float32} (signed : x ≠ -Scalar.zero) :
    x.toModel.unpack ≠ .zero .negative :=
  fun zero => signed ((ofModel_pack zero).symm.trans (by decide +kernel))

/-- Finite places stay, up to the sign of zero. -/
theorem Settled.still {q : Pair} (h : Settled q) : Still q := by
  have first := (read_float32 q.1).proper h.finite.1
  have second := (read_float32 q.2).proper h.finite.2
  obtain ⟨proper, -, zero⟩ := unpack_widen first
  obtain ⟨proper', -, zero'⟩ := unpack_widen second
  have unmoved := apply_reciprocalInverse_identity (p := pointOf q) ⟨proper, proper'⟩
    ⟨(zero _).not.2 (unpack_ne_of_ne h.signed.1), (zero' _).not.2 (unpack_ne_of_ne h.signed.2)⟩
  rw [Still, unmoved]
  exact Prod.ext (narrow_widen first) (narrow_widen second)

end Graph
end PixelKernel
