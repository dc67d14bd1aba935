import PixelKernel.Proofs.Number.Packing

/-! # Exact numbers of words

The reader of words and the arithmetic of floats agree on what a word denotes. So floors, which are
taken from the bits, are floors of the numbers that the arithmetic is about.
-/

namespace PixelKernel

open Float.Model Float.Model.UnpackedFloat Nearest Words

/-! ## Readers -/

section

variable {spec : Format} (b : BitVec spec.numBits)

/-- What the reader of words gives for a float. -/
def Binary.ofUnpacked (spec : Format) : UnpackedFloat → Binary
  | .notANumber => .nan
  | .infinity s => .infinite (s == .negative)
  | .zero s => .finite (s == .negative) 0 spec.minExponent
  | .finite s m e _ => .finite (s == .negative) m e

theorem Binary.ofBits_toNat :
    Binary.ofBits ⟨spec.mantissaBitsWithoutImplicit, spec.exponentBits⟩ b.toNat =
      .ofUnpacked spec (UnpackedFloat.unpack spec b) := by
  have mantissa := toNat_unpackMantissa b
  have exponent := toNat_unpackExponent b
  have sign := toNat_unpackSign b
  have lowest : Binary.Width.lowest ⟨spec.mantissaBitsWithoutImplicit, spec.exponentBits⟩ =
      spec.minExponent := by
    simp only [Binary.Width.lowest, Format.minExponent, Format.mantissaBits]
    omega
  have bias : spec.minExponent = 1 - (spec.exponentBias + spec.mantissaBitsWithoutImplicit) := by
    have : (spec.exponentBias : Int) = 2 ^ (spec.exponentBits - 1) - 1 := by
      simp only [Format.exponentBias]
      push_cast [Nat.one_le_two_pow]
      rfl
    simp only [Format.minExponent, Format.mantissaBits]
    omega
  unfold Binary.ofBits
  simp only [← mantissa, ← exponent, ← sign, lowest, ← ofBitVec_beq, ← eq_ones_iff, ← eq_zero_iff]
  unfold UnpackedFloat.unpack
  dsimp only
  split
  next => split <;> rfl
  next =>
    split
    next none_ =>
      rw [none_]
      split
      next zero =>
        rw [zero]
        rfl
      next =>
        rw [Binary.ofUnpacked, bias]
        congr 1
        simp only [BitVec.toNat_zero]
        omega
    next =>
      rw [Binary.ofUnpacked, Words.toNat_implicit, bias]
      congr 1
      omega

end

theorem Binary.ofFloat_eq (x : Float) :
    Binary.ofFloat x = .ofUnpacked .binary64 x.toModel.unpack :=
  @Binary.ofBits_toNat .binary64 x.toModel.toBits.toBitVec

theorem Binary.ofFloat32_eq (x : Float32) :
    Binary.ofFloat32 x = .ofUnpacked .binary32 x.toModel.unpack :=
  @Binary.ofBits_toNat .binary32 x.toModel.toBits.toBitVec

/-! ## Floors -/

namespace Binary

/-- The number that is denoted, if it is one. -/
def value : Binary → ℚ
  | .finite negative m e => (if negative then -m else m : Int) * 2 ^ e
  | _ => 0

theorem value_ofUnpacked (spec : Format) (x : UnpackedFloat) :
    (ofUnpacked spec x).value = Nearest.value x := by
  cases x with
  | zero s => cases s <;> simp [ofUnpacked, value]
  | finite s m e pos => cases s <;> rfl
  | _ => rfl

theorem floorFinite_eq (negative : Bool) (m : Nat) (e : Int) :
    floorFinite negative m e = ⌊(finite negative m e).value⌋ := by
  cases e with
  | ofNat k =>
      have whole : (finite negative m (.ofNat k)).value =
          ((if negative then -(m * 2 ^ k : Nat) else (m * 2 ^ k : Nat) : Int) : ℚ) := by
        simp only [value, Int.ofNat_eq_natCast, zpow_natCast]
        cases negative <;> push_cast <;> simp
      rw [whole, Int.floor_intCast, floorFinite]
  | negSucc k =>
      have quotient : (finite negative m (.negSucc k)).value =
          ((if negative then -m else m : Int) : ℚ) / ((2 ^ (k + 1) : Nat) : ℚ) := by
        rw [value, zpow_negSucc, div_eq_mul_inv]
        push_cast
        rfl
      rw [quotient, Rat.floor_intCast_div_natCast]
      exact Int.fdiv_eq_ediv_of_nonneg _ (by positivity)

theorem floor64_finite (negative : Bool) (m : Nat) (e : Int) :
    (finite negative m e).floor64 = clampInt64 ⌊(finite negative m e).value⌋ := by
  rw [floor64]
  by_cases far : e > 64 ∧ m ≠ 0
  · rw [if_pos far]
    obtain ⟨far, some_⟩ := far
    have great : (2 : ℚ) ^ 64 ≤ m * 2 ^ e := by
      have one_le : (1 : ℚ) ≤ m := by exact_mod_cast Nat.one_le_iff_ne_zero.2 some_
      calc (2 : ℚ) ^ 64 = 1 * 2 ^ (64 : Int) := by norm_num
        _ ≤ m * 2 ^ e := by
          have : (2 : ℚ) ^ (64 : Int) ≤ 2 ^ e := zpow_le_zpow_right₀ one_le_two far.le
          gcongr
    cases negative with
    | true =>
        have below : ⌊(finite true m e).value⌋ ≤ -2 ^ 64 := by
          rw [← Int.cast_le (R := ℚ)]
          refine (Int.floor_le _).trans ?_
          simp only [value]
          push_cast
          linarith
        simp only [clampInt64, if_true]
        omega
    | false =>
        have above : 2 ^ 64 ≤ ⌊(finite false m e).value⌋ := by
          rw [Int.le_floor]
          simp only [value]
          push_cast
          linarith
        simp only [clampInt64, Bool.false_eq_true, if_false]
        omega
  · rw [if_neg far, floorFinite_eq]

end Binary

end PixelKernel
