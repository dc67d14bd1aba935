import Mathlib
import PixelKernel.Number.Scalar

/-! # Words of floats

A word that is unpacked and packed again stays as it is, since there is one word for all that is
not a number. So what gives an operand back unpacked gives it back.
-/

namespace PixelKernel.Words

open Float.Model Float.Model.UnpackedFloat

theorem toNat_implicit {n : Nat} (m : BitVec n) : (1#1 ++ m).toNat = 2 ^ n + m.toNat := by
  rw [BitVec.toNat_append, ← Nat.shiftLeft_add_eq_or_of_lt m.isLt]
  simp [Nat.shiftLeft_eq]

/-! ## Fields -/

section

variable {spec : Format} (b : BitVec spec.numBits)

theorem toNat_unpackMantissa :
    (unpackMantissa b).toNat = b.toNat % 2 ^ spec.mantissaBitsWithoutImplicit := by
  have length : spec.mantissaBitsWithoutImplicit - 1 - 0 + 1 = spec.mantissaBitsWithoutImplicit := by
    have := spec.hm
    omega
  rw [unpackMantissa, BitVec.toNat_cast, BitVec.extractLsb_toNat, length, Nat.shiftRight_zero]

theorem toNat_unpackExponent : (unpackExponent b).toNat =
    b.toNat / 2 ^ spec.mantissaBitsWithoutImplicit % 2 ^ spec.exponentBits := by
  have length : spec.mantissaBitsWithoutImplicit + spec.exponentBits - 1 -
      spec.mantissaBitsWithoutImplicit + 1 = spec.exponentBits := by
    have := spec.he
    omega
  rw [unpackExponent, BitVec.toNat_cast, BitVec.extractLsb_toNat, length, Nat.shiftRight_eq_div_pow]

theorem toNat_unpackSign : (unpackSign b).toNat =
    b.toNat / 2 ^ (spec.mantissaBitsWithoutImplicit + spec.exponentBits) % 2 := by
  simp [unpackSign, BitVec.extractLsb_toNat, Nat.shiftRight_eq_div_pow]

end

theorem ofBitVec_beq (s : BitVec 1) : (Sign.ofBitVec s == .negative) = (s.toNat == 1) := by
  revert s
  decide

theorem eq_ones_iff {n : Nat} (v : BitVec n) : v = -1#n ↔ v.toNat + 1 = 2 ^ n := by
  rw [BitVec.neg_one_eq_allOnes, ← BitVec.toNat_inj, BitVec.toNat_allOnes]
  have := Nat.two_pow_pos n
  omega

theorem eq_zero_iff {n : Nat} (v : BitVec n) : v = 0#n ↔ v.toNat = 0 := by
  rw [← BitVec.toNat_inj, BitVec.toNat_zero]

/-! ## Operands -/

theorem pack_unpack_float (x : Float) : Float.Model.pack x.toModel.unpack = x.toModel := by
  obtain ⟨⟨bits, valid⟩⟩ := x
  have same : UnpackedFloat.pack .binary64 (UnpackedFloat.unpack .binary64 bits.toBitVec) =
      bits.toBitVec := pack_unpack_of_valid valid
  simp only [Float.Model.pack, Float.Model.unpack, same]

theorem unpack_zero : (Scalar.zero : Float).toModel.unpack = .zero .positive := by
  rfl

/-- Zero is what subtraction leaves its operand alone for, a zero of either sign included. -/
theorem sub_zero (spec : Format) (x : UnpackedFloat) :
    UnpackedFloat.sub spec x (.zero .positive) = x := by
  cases x with
  | zero sign => cases sign <;> rfl
  | notANumber | infinity | finite => rfl

/-- A coordinate is not changed by measuring it from the origin. -/
theorem float_sub_zero (x : Float) : x - Scalar.zero = x := by
  change Float.ofModel (Float.Model.pack (UnpackedFloat.sub .binary64 x.toModel.unpack
    (Scalar.zero : Float).toModel.unpack)) = x
  rw [unpack_zero, sub_zero, pack_unpack_float]

theorem pack_unpack_float32 (x : Float32) : Float32.Model.pack x.toModel.unpack = x.toModel := by
  obtain ⟨⟨bits, valid⟩⟩ := x
  have same : UnpackedFloat.pack .binary32 (UnpackedFloat.unpack .binary32 bits.toBitVec) =
      bits.toBitVec := pack_unpack_of_valid valid
  simp only [Float32.Model.pack, Float32.Model.unpack, same]

/-- Neither is a channel. -/
theorem float32_sub_zero (x : Float32) : x - Scalar.zero = x := by
  change Float32.ofModel (Float32.Model.pack (UnpackedFloat.sub .binary32 x.toModel.unpack
    (.zero .positive))) = x
  rw [sub_zero, pack_unpack_float32]

end PixelKernel.Words
