import PixelKernel.Decimal.Text
import PixelKernel.Proofs.Number.Words

/-! # Floats without a minus sign

Numbers written in a source text have no sign of their own. What is read from digits is never
NaN and never negative, narrowing keeps that, and on such numbers equality by value is
equality of the words.
-/

namespace PixelKernel.Unsigned

open Float.Model Float.Model.UnpackedFloat

/-- Not NaN, and with the sign bit clear. -/
def Plain : UnpackedFloat → Prop
  | .infinity sign | .zero sign | .finite sign .. => sign = .positive
  | .notANumber => False

theorem plain_roundWithAccuracy (spec : Format) (m : Nat) (e : Int) (a : Accuracy) :
    Plain (roundWithAccuracy spec .positive m e a) := by
  unfold roundWithAccuracy
  dsimp only
  split <;> rfl

theorem plain_round (spec : Format) (m : Nat) (e : Int) :
    Plain (UnpackedFloat.round spec .positive m e) :=
  plain_roundWithAccuracy ..

theorem plain_mul (spec : Format) {x y : UnpackedFloat} {m : Nat} {e : Int} {pos : 0 < m}
    (hx : Plain x) (hy : y = .finite .positive m e pos) : Plain (mul spec x y) := by
  subst hy
  cases x with
  | notANumber => exact hx
  | infinity sign => cases hx; rfl
  | zero sign => cases hx; rfl
  | finite sign => cases hx; exact plain_roundWithAccuracy ..

theorem plain_div (spec : Format) {x y : UnpackedFloat} {m : Nat} {e : Int} {pos : 0 < m}
    (hx : Plain x) (hy : y = .finite .positive m e pos) : Plain (div spec x y) := by
  subst hy
  cases x with
  | notANumber => exact hx
  | infinity sign => cases hx; rfl
  | zero sign => cases hx; rfl
  | finite sign => cases hx; exact plain_roundWithAccuracy ..

theorem plain_ofScientific (spec : Format) (m : Nat) (e : Int) :
    Plain (UnpackedFloat.ofScientific spec m e) := by
  unfold UnpackedFloat.ofScientific
  split
  · rfl
  split
  · rfl
  split
  · rfl
  split
  · exact plain_mul spec rfl rfl
  · exact plain_div spec rfl rfl

theorem plain_ofNat (spec : Format) (n : Nat) : Plain (UnpackedFloat.ofNat spec n) := by
  unfold UnpackedFloat.ofNat UnpackedFloat.ofInt UnpackedFloat.normalize
  split
  next h => rw [Int.compare_eq_lt] at h; omega
  next => rfl
  next => exact plain_round ..

/-! ## Words -/

/-- Unpacking a packed word whose exponent is not the greatest one gives its sign back. -/
theorem plain_unpack_components {spec : Format} {e : BitVec spec.exponentBits}
    {m : BitVec spec.mantissaBitsWithoutImplicit} (h : e = -1#_ → m = 0#_) :
    Plain (UnpackedFloat.unpack spec (packComponents spec .positive e m)) := by
  have sign : Sign.ofBitVec (unpackSign (packComponents spec .positive e m)) = .positive := by
    rw [unpackSign_packComponents, Sign.ofBitVec_toBitVec]
  unfold UnpackedFloat.unpack
  simp only [unpackExponent_packComponents, unpackMantissa_packComponents, sign]
  split
  next he =>
    rw [if_pos (h he)]
    rfl
  next =>
    split
    · split <;> rfl
    · rfl

theorem plain_unpack_pack (spec : Format) {x : UnpackedFloat} (h : Plain x) :
    Plain (UnpackedFloat.unpack spec (UnpackedFloat.pack spec x)) := by
  fun_cases UnpackedFloat.pack spec x with
  | case1 => exact h.elim
  | case2 sign => cases h; exact plain_unpack_components fun _ => rfl
  | case3 sign => cases h; exact plain_unpack_components fun _ => rfl
  | case4 sign m e pos biased big => cases h; exact plain_unpack_components fun _ => rfl
  | case5 sign m e pos bits biased small normal =>
    cases h
    refine plain_unpack_components fun he => absurd he ?_
    have below : biased < 2 ^ spec.exponentBits - 1 := by omega
    rw [BitVec.neg_one_eq_allOnes, ← BitVec.toNat_inj, BitVec.toNat_ofNat, BitVec.toNat_allOnes,
      Nat.mod_eq_of_lt (by omega)]
    omega
  | case6 sign m e pos bits biased small subnormal =>
    cases h
    refine plain_unpack_components fun he => absurd he ?_
    simp [Nat.pos_iff_ne_zero.1 spec.he]

/-! ## Numbers read from digits -/

theorem plain_ofBits_infinity : Plain (Float.ofBits 0x7ff0000000000000).toModel.unpack := by
  refine plain_unpack_pack _ ?_
  rfl

def isPositive : UnpackedFloat → Bool
  | .finite .positive .. => true
  | _ => false

/-- The stored powers of ten are finite and positive. -/
theorem powers_finite : ∀ x ∈ Float.exactlyRepresentablePowersOfTen.toList,
    ∃ m e pos, x.toModel.unpack = .finite .positive m e pos := by
  have all : Float.exactlyRepresentablePowersOfTen.toList.all
      (fun x => isPositive x.toModel.unpack) = true := by
    decide +kernel
  intro x hx
  have positive := List.all_eq_true.mp all x hx
  unfold isPositive at positive
  split at positive
  next m e pos h => exact ⟨m, e, pos, h⟩
  next => contradiction

theorem plain_float_ofScientific (m : Nat) (s : Bool) (e : Nat) :
    Plain (Float.ofScientific m s e).toModel.unpack := by
  unfold Float.ofScientific
  split
  next h =>
    have inside : e < Float.exactlyRepresentablePowersOfTen.size := by
      have : Float.exactlyRepresentablePowersOfTen.size = 23 := rfl
      omega
    obtain ⟨_, _, _, power⟩ := powers_finite _
      (Array.getElem_mem_toList (h := inside))
    have digits : Plain (m.toUInt64.toFloat).toModel.unpack :=
      plain_unpack_pack _ (plain_ofNat _ _)
    split
    · exact plain_unpack_pack _ (plain_div _ digits power)
    · exact plain_unpack_pack _ (plain_mul _ digits power)
  next => exact plain_unpack_pack _ (plain_ofScientific ..)

theorem plain_nearest (s : Decimal.Scaled) : Plain (Decimal.nearest s).toModel.unpack := by
  unfold Decimal.nearest
  dsimp only
  split
  · exact plain_float_ofScientific ..
  split
  · exact plain_ofBits_infinity
  split
  · exact plain_float_ofScientific ..
  split
  · exact plain_float_ofScientific ..
  · exact plain_float_ofScientific ..

theorem plain_narrow {x : Float} (h : Plain x.toModel.unpack) :
    Plain (Binary.narrow x).toModel.unpack := by
  refine plain_unpack_pack _ ?_
  split
  next sign m e pos hx =>
    rw [hx] at h
    cases h
    exact plain_round ..
  next => exact h

/-! ## Equality by value -/

/-- The word of a number without a sign, from the number. -/
def word : UnpackedFloat → Nat
  | .infinity _ => 255 * 2 ^ 23
  | .zero _ => 0
  | .notANumber => 0
  | .finite _ m e _ => if m < 2 ^ 23 then m else (e + 150).toNat * 2 ^ 23 + (m - 2 ^ 23)

section Fields

variable (bits : UInt32)

theorem toNat_unpackMantissa :
    (@unpackMantissa .binary32 bits.toBitVec).toNat = bits.toNat % 2 ^ 23 :=
  Words.toNat_unpackMantissa _

theorem toNat_unpackExponent :
    (@unpackExponent .binary32 bits.toBitVec).toNat = bits.toNat / 2 ^ 23 % 2 ^ 8 :=
  Words.toNat_unpackExponent _

theorem toNat_unpackSign :
    (@unpackSign .binary32 bits.toBitVec).toNat = bits.toNat / 2 ^ 31 % 2 :=
  Words.toNat_unpackSign _

end Fields

theorem toNat_of_positive {s : BitVec 1} (h : Sign.ofBitVec s = .positive) : s.toNat = 0 := by
  unfold Sign.ofBitVec at h
  split at h
  next hs => rw [hs]; rfl
  next => contradiction

/-- Without a sign, a word is told by its number, and infinity is the greatest. -/
theorem toNat_toBits {x : Float32} (h : Plain x.toModel.unpack) :
    x.toBits.toNat = word x.toModel.unpack ∧ x.toBits.toNat ≤ 255 * 2 ^ 23 := by
  obtain ⟨⟨bits, valid⟩⟩ := x
  change Plain (UnpackedFloat.unpack .binary32 bits.toBitVec) at h
  change bits.toNat = word (UnpackedFloat.unpack .binary32 bits.toBitVec) ∧ bits.toNat ≤ _
  have mantissa := toNat_unpackMantissa bits
  have exponent := toNat_unpackExponent bits
  have sign := toNat_unpackSign bits
  have size : bits.toNat < 2 ^ 32 := bits.toNat_lt
  have bias : (Format.binary32.exponentBias : Int) = 127 := rfl
  unfold UnpackedFloat.unpack at h ⊢
  dsimp only at h ⊢
  split
  next ones =>
    have top : (@unpackExponent .binary32 bits.toBitVec).toNat = 255 :=
      congrArg BitVec.toNat ones
    rw [if_pos ones] at h
    split
    next none =>
      rw [if_pos none] at h
      have low := congrArg BitVec.toNat none
      have := toNat_of_positive h
      simp only [word, BitVec.toNat_zero] at low ⊢
      omega
    next some =>
      rw [if_neg some] at h
      exact h.elim
  next ones =>
    have top : (@unpackExponent .binary32 bits.toBitVec).toNat ≠ 255 :=
      fun h => ones (BitVec.eq_of_toNat_eq h)
    rw [if_neg ones] at h
    split
    next zero =>
      have bottom := congrArg BitVec.toNat zero
      rw [if_pos zero] at h
      simp only [BitVec.toNat_zero] at bottom
      split
      next none =>
        rw [dif_pos none] at h
        have low := congrArg BitVec.toNat none
        have := toNat_of_positive h
        simp only [word, BitVec.toNat_zero] at low ⊢
        omega
      next some =>
        rw [dif_neg some] at h
        have := toNat_of_positive h
        simp only [word]
        rw [if_pos (by omega)]
        omega
    next zero =>
      have bottom : (@unpackExponent .binary32 bits.toBitVec).toNat ≠ 0 :=
        fun h => zero (BitVec.eq_of_toNat_eq h)
      rw [if_neg zero] at h
      have := toNat_of_positive h
      simp only [word, Words.toNat_implicit]
      rw [if_neg (by omega)]
      omega

theorem compare_eq_iff {x y : UnpackedFloat} (hx : Plain x) (hy : Plain y) :
    x.compare y = some .eq ↔ x = y := by
  cases x with
  | notANumber => exact hx.elim
  | infinity =>
    cases hx
    cases y with
    | notANumber => exact hy.elim
    | infinity => cases hy; exact ⟨fun _ => rfl, fun _ => rfl⟩
    | zero => simp [UnpackedFloat.compare]
    | finite => simp [UnpackedFloat.compare]
  | zero =>
    cases hx
    cases y with
    | notANumber => exact hy.elim
    | infinity => cases hy; simp [UnpackedFloat.compare]
    | zero => cases hy; exact ⟨fun _ => rfl, fun _ => rfl⟩
    | finite => cases hy; simp [UnpackedFloat.compare]
  | finite =>
    cases hx
    cases y with
    | notANumber => exact hy.elim
    | infinity => cases hy; simp [UnpackedFloat.compare]
    | zero => simp [UnpackedFloat.compare]
    | finite =>
      cases hy
      simp only [UnpackedFloat.compare, Option.some.injEq, Ordering.then_eq_eq,
        Int.compare_eq_eq, Nat.compare_eq_eq, UnpackedFloat.finite.injEq, true_and]
      exact and_comm

/-- Among numbers without a sign, those of equal value are the same. -/
theorem value_eq_iff {x y : Float32} (hx : Plain x.toModel.unpack) (hy : Plain y.toModel.unpack) :
    (x == y) = true ↔ x = y := by
  have unpacked : (x == y) = true ↔ x.toModel.unpack = y.toModel.unpack := by
    rw [← compare_eq_iff hx hy]
    change (x.toModel.unpack.compare y.toModel.unpack == some .eq) = true ↔ _
    rw [beq_iff_eq]
  rw [unpacked]
  refine ⟨fun same => Float32.toBits_inj.1 (UInt32.toNat_inj.1 ?_), fun same => same ▸ rfl⟩
  rw [(toNat_toBits hx).1, (toNat_toBits hy).1, same]

end PixelKernel.Unsigned
