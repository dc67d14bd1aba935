import PixelKernel.Proofs.Number.Nearest

/-! # Words of numbers

A word has room for the digits of a number of its format and for its exponent, if that is not too
great. So what is packed is unpacked again, and an operation whose exact result is in reach gives
the number next to it.
-/

namespace PixelKernel.Nearest

open Float.Model Float.Model.UnpackedFloat

variable {spec : Format} {d v : ℚ}

/-! ## The greatest numbers -/

/-- The greatest exponent that can be stored. -/
def greatest (spec : Format) : Int := 2 ^ (spec.exponentBits - 1) - spec.mantissaBits

/-- The bound that no number of the format reaches. -/
def bound (spec : Format) : ℚ := 2 ^ 2 ^ (spec.exponentBits - 1)

/-- The greatest number of the format and half a step more. -/
def limit (spec : Format) : ℚ := (2 ^ spec.mantissaBits - 1 / 2) * 2 ^ greatest spec

theorem two_pow_exponentBits : 2 ^ spec.exponentBits = 2 * 2 ^ (spec.exponentBits - 1) := by
  rw [← Nat.pow_succ']
  congr 1
  have := spec.he
  omega

/-- Half of the exponents are positive. -/
theorem two_le_half (wide : 2 ≤ spec.exponentBits) : 2 ≤ 2 ^ (spec.exponentBits - 1) :=
  calc 2 = 2 ^ 1 := rfl
    _ ≤ 2 ^ (spec.exponentBits - 1) := Nat.pow_le_pow_right (by decide) (by omega)

theorem bound_eq : bound spec = 2 ^ spec.mantissaBits * 2 ^ greatest spec := by
  rw [bound, ← zpow_natCast, ← zpow_natCast, ← zpow_add₀ two_ne_zero]
  congr 1
  simp only [greatest]
  push_cast
  omega

theorem minExponent_le_greatest (wide : 2 ≤ spec.exponentBits) :
    spec.minExponent ≤ greatest spec := by
  have half : (2 : Int) ≤ 2 ^ (spec.exponentBits - 1) := by exact_mod_cast two_le_half wide
  simp only [greatest, Format.minExponent]
  omega

/-- Powers of two are below the limit if their exponents can be stored. -/
theorem lt_limit {n : Nat} (small : |v| ≤ 2 ^ n) (reach : n < 2 ^ (spec.exponentBits - 1)) :
    |v| < limit spec := by
  have unit : (0 : ℚ) < 2 ^ greatest spec := by positivity
  have double := @bound_eq spec
  have one_le : (1 : ℚ) ≤ 2 ^ (spec.mantissaBits - 1) := one_le_pow₀ one_le_two
  have half : (2 : ℚ) ^ (n + 1) ≤ bound spec := by
    rw [bound]
    exact pow_le_pow_right₀ one_le_two reach
  rw [cast_two_pow_mantissaBits] at double
  rw [pow_succ, double] at half
  rw [limit, cast_two_pow_mantissaBits]
  nlinarith

/-- The result of a rounding below the limit is below the bound. -/
theorem Rounds.lt_bound (wide : 2 ≤ spec.exponentBits) (h : Rounds spec d v)
    (small : |d| < limit spec) : |v| < bound spec := by
  obtain ⟨u, n, rfl, low, full, near⟩ := h
  have unit : (0 : ℚ) < 2 ^ greatest spec := by positivity
  have least := minExponent_le_greatest wide
  have most : u ≤ greatest spec := by
    by_contra great
    have step : (2 : ℚ) ^ (greatest spec + 1) ≤ 2 ^ u := zpow_le_zpow_right₀ one_le_two (by omega)
    have reached : bound spec ≤ |d| := by
      refine le_trans ?_ (full (by omega))
      rw [bound_eq, cast_two_pow_mantissaBits]
      rw [zpow_add_one₀ two_ne_zero] at step
      calc 2 * (2 : ℚ) ^ (spec.mantissaBits - 1) * 2 ^ greatest spec =
            2 ^ (spec.mantissaBits - 1) * (2 ^ greatest spec * 2) := by ring
        _ ≤ 2 ^ (spec.mantissaBits - 1) * 2 ^ u := by gcongr
    rw [bound_eq] at reached
    rw [limit] at small
    linarith
  have step : (2 : ℚ) ^ u ≤ 2 ^ greatest spec := zpow_le_zpow_right₀ one_le_two most
  rw [limit] at small
  calc |(n : ℚ) * 2 ^ u| = |d + (n * 2 ^ u - d)| := by ring_nf
    _ ≤ |d| + |n * 2 ^ u - d| := abs_add_le _ _
    _ < bound spec := by
      rw [bound_eq]
      linarith

theorem Canonical.le_greatest (wide : 2 ≤ spec.exponentBits) {m : Nat} {e : Int}
    (h : Canonical spec m e) (small : m * 2 ^ e < bound spec) : e ≤ greatest spec := by
  by_contra great
  have half : (2 : Int) ≤ 2 ^ (spec.exponentBits - 1) := by exact_mod_cast two_le_half wide
  have digits := @mantissaBits_pos spec
  have above : spec.minExponent < e := by
    simp only [greatest, Format.minExponent] at great ⊢
    omega
  have least : (2 : ℚ) ^ (spec.mantissaBits - 1) ≤ m := by exact_mod_cast h.full above
  have exponent : (2 : ℚ) ^ (greatest spec + 1) ≤ 2 ^ e := zpow_le_zpow_right₀ one_le_two (by omega)
  have reached : bound spec ≤ m * 2 ^ e := by
    calc bound spec = 2 ^ (spec.mantissaBits - 1) * 2 ^ (greatest spec + 1) := by
          rw [bound_eq, cast_two_pow_mantissaBits, zpow_add_one₀ two_ne_zero]
          ring
      _ ≤ m * 2 ^ e := by gcongr
  exact absurd small (not_lt.2 reached)

/-- The stored exponent that stands for infinity is never that of a number. -/
theorem ofNat_ne_ones {n : Nat} (top : n + 1 < 2 ^ spec.exponentBits) :
    BitVec.ofNat spec.exponentBits n ≠ -1#_ := fun same => by
  have := congrArg BitVec.toNat same
  rw [BitVec.toNat_ofNat, Nat.mod_eq_of_lt (by omega), BitVec.neg_one_eq_allOnes,
    BitVec.toNat_allOnes] at this
  omega

theorem zero_ne_ones : (0 : BitVec spec.exponentBits) ≠ -1#_ := by
  have := spec.he
  exact ofNat_ne_ones (Nat.one_lt_two_pow (by omega))

section

variable {m n : Nat} (s : Sign) (pos : 0 < m)

/-- The leading digit of a full mantissa is not stored. -/
theorem unpack_normal (long : 2 ^ spec.mantissaBitsWithoutImplicit ≤ m)
    (few : m < 2 * 2 ^ spec.mantissaBitsWithoutImplicit) (some_ : 0 < n)
    (top : n + 1 < 2 ^ spec.exponentBits) :
    UnpackedFloat.unpack spec (packComponents spec s (BitVec.ofNat _ n) (BitVec.ofNat _ m)) =
      .finite s m (n - (spec.exponentBias + spec.mantissaBitsWithoutImplicit)) pos := by
  have kept : (BitVec.ofNat spec.exponentBits n).toNat = n := by
    rw [BitVec.toNat_ofNat, Nat.mod_eq_of_lt (by omega)]
  have nonzero : BitVec.ofNat spec.exponentBits n ≠ 0#_ := fun same => by
    have := congrArg BitVec.toNat same
    rw [kept, BitVec.toNat_ofNat, Nat.zero_mod] at this
    omega
  have mantissa : (1#1 ++ BitVec.ofNat spec.mantissaBitsWithoutImplicit m).toNat = m := by
    rw [Words.toNat_implicit, BitVec.toNat_ofNat, Nat.mod_eq_sub_mod long,
      Nat.mod_eq_of_lt (by omega)]
    omega
  unfold UnpackedFloat.unpack
  simp only [unpackExponent_packComponents, unpackMantissa_packComponents,
    unpackSign_packComponents, Sign.ofBitVec_toBitVec]
  rw [if_neg (ofNat_ne_ones top), if_neg nonzero]
  simp only [mantissa, kept]

theorem unpack_subnormal (short : m < 2 ^ spec.mantissaBitsWithoutImplicit) :
    UnpackedFloat.unpack spec (packComponents spec s 0#_ (BitVec.ofNat _ m)) =
      .finite s m (1 - (spec.exponentBias + spec.mantissaBitsWithoutImplicit)) pos := by
  have mantissa : (BitVec.ofNat spec.mantissaBitsWithoutImplicit m).toNat = m := by
    rw [BitVec.toNat_ofNat, Nat.mod_eq_of_lt short]
  have nonzero : BitVec.ofNat spec.mantissaBitsWithoutImplicit m ≠ 0#_ := fun same => by
    have := congrArg BitVec.toNat same
    rw [mantissa, BitVec.toNat_ofNat, Nat.zero_mod] at this
    omega
  have finite : (0#_ : BitVec spec.exponentBits) ≠ -1#_ := zero_ne_ones
  unfold UnpackedFloat.unpack
  simp only [unpackExponent_packComponents, unpackMantissa_packComponents,
    unpackSign_packComponents, Sign.ofBitVec_toBitVec]
  rw [if_neg finite, if_pos trivial, dif_neg nonzero]
  simp only [mantissa, BitVec.toNat_ofNat, Nat.zero_mod, UnpackedFloat.finite.injEq, true_and]
  omega

end

theorem unpack_pack_finite (wide : 2 ≤ spec.exponentBits) (s : Sign) {m : Nat} {e : Int}
    {pos : 0 < m} (h : Canonical spec m e) (high : e ≤ greatest spec) :
    UnpackedFloat.unpack spec (UnpackedFloat.pack spec (.finite s m e pos)) =
      .finite s m e pos := by
  obtain ⟨few, low, full⟩ := h
  have half := two_le_half wide
  have double := @two_pow_exponentBits spec
  have digits : spec.mantissaBits = 1 + spec.mantissaBitsWithoutImplicit := rfl
  have short : spec.mantissaBits - 1 = spec.mantissaBitsWithoutImplicit := by omega
  have last := @two_pow_mantissaBits spec
  rw [short] at last full
  have bias : spec.exponentBias = 2 ^ (spec.exponentBits - 1) - 1 := rfl
  have cast : ((2 ^ (spec.exponentBits - 1) : Nat) : Int) = 2 ^ (spec.exponentBits - 1) := by
    push_cast
    rfl
  simp only [greatest, Format.minExponent] at high low full
  have normal_iff : m.log2 + 1 = spec.mantissaBits ↔ 2 ^ spec.mantissaBitsWithoutImplicit ≤ m := by
    have le := @Nat.le_log2 m spec.mantissaBitsWithoutImplicit pos.ne'
    have lt := @Nat.log2_lt m spec.mantissaBits pos.ne'
    omega
  unfold UnpackedFloat.pack
  dsimp only
  rw [if_neg (by omega)]
  split
  next normal =>
    rw [unpack_normal s pos (normal_iff.1 normal) (by omega) (by omega) (by omega)]
    simp only [UnpackedFloat.finite.injEq, true_and]
    omega
  next subnormal =>
    have brief : ¬ 2 ^ spec.mantissaBitsWithoutImplicit ≤ m := fun long =>
      subnormal (normal_iff.2 long)
    rw [unpack_subnormal s pos (by omega)]
    simp only [UnpackedFloat.finite.injEq, true_and]
    omega

theorem unpack_pack_zero (s : Sign) : UnpackedFloat.unpack spec
    (UnpackedFloat.pack spec (.zero s)) = .zero s := by
  unfold UnpackedFloat.pack UnpackedFloat.unpack packedZero
  simp only [unpackExponent_packComponents, unpackMantissa_packComponents,
    unpackSign_packComponents, Sign.ofBitVec_toBitVec]
  rw [if_neg zero_ne_ones]
  rfl

/-- A number that is not too great is unpacked as it was packed. -/
theorem unpack_pack (wide : 2 ≤ spec.exponentBits) {x : UnpackedFloat} (h : Proper spec x)
    (small : |value x| < bound spec) :
    UnpackedFloat.unpack spec (UnpackedFloat.pack spec x) = x := by
  cases x with
  | infinity | notANumber => exact h.elim
  | zero s => exact unpack_pack_zero s
  | finite s m e pos =>
      rw [value, apply_cast s m, mul_assoc, abs_apply, Int.cast_natCast] at small
      exact unpack_pack_finite wide s h (h.le_greatest wide ((le_abs_self _).trans_lt small))

/-- What is read from a word. -/
inductive Read (spec : Format) : UnpackedFloat → Prop where
  | notANumber : Read spec .notANumber
  | infinity (s : Sign) : Read spec (.infinity s)
  | zero (s : Sign) : Read spec (.zero s)
  | finite (s : Sign) {m : Nat} {e : Int} {pos : 0 < m} (canonical : Canonical spec m e)
    (high : e ≤ greatest spec) : Read spec (.finite s m e pos)

theorem read_unpack (wide : 2 ≤ spec.exponentBits) (b : BitVec spec.numBits) :
    Read spec (UnpackedFloat.unpack spec b) := by
  have half := two_le_half wide
  have double := @two_pow_exponentBits spec
  have digits : spec.mantissaBits = 1 + spec.mantissaBitsWithoutImplicit := rfl
  have short : spec.mantissaBits - 1 = spec.mantissaBitsWithoutImplicit := by omega
  have last := @two_pow_mantissaBits spec
  rw [short] at last
  have bias : spec.exponentBias = 2 ^ (spec.exponentBits - 1) - 1 := rfl
  have cast : ((2 ^ (spec.exponentBits - 1) : Nat) : Int) = 2 ^ (spec.exponentBits - 1) := by
    push_cast
    rfl
  unfold UnpackedFloat.unpack
  dsimp only
  have below := (unpackMantissa b).isLt
  split
  next =>
    split
    · exact .infinity _
    · exact .notANumber
  next some_ =>
    split
    next none_ =>
      rw [none_]
      split
      · exact .zero _
      · refine .finite _ ⟨by omega, ?_, fun above => absurd above ?_⟩ ?_
        all_goals
          simp only [Format.minExponent, greatest, BitVec.toNat_ofNat, Nat.zero_mod]
          omega
    next normal =>
      have above : (unpackExponent b).toNat ≠ 0 := fun same =>
        normal (BitVec.eq_of_toNat_eq (same.trans (by simp)))
      have under : (unpackExponent b).toNat + 1 < 2 ^ spec.exponentBits := by
        have := (unpackExponent b).isLt
        have : (unpackExponent b).toNat ≠ 2 ^ spec.exponentBits - 1 := fun same =>
          some_ (BitVec.eq_of_toNat_eq (same.trans (by
            rw [BitVec.neg_one_eq_allOnes, BitVec.toNat_allOnes])))
        omega
      refine .finite _ ⟨?_, ?_, fun _ => ?_⟩ ?_
      · rw [Words.toNat_implicit]
        omega
      · simp only [Format.minExponent]
        omega
      · rw [Words.toNat_implicit, short]
        omega
      · simp only [greatest]
        omega

theorem Read.proper {x : UnpackedFloat} (h : Read spec x) (finite : x.isFinite = true) :
    Proper spec x := by
  cases h with
  | zero s => trivial
  | finite s canonical high => exact canonical
  | _ => cases finite

/-- No word denotes a number beyond the greatest one. -/
theorem Read.abs_le {x : UnpackedFloat} (h : Read spec x) :
    |value x| ≤ (2 ^ spec.mantissaBits - 1) * 2 ^ greatest spec := by
  have none_ : |(0 : ℚ)| ≤ (2 ^ spec.mantissaBits - 1) * 2 ^ greatest spec := by
    have : (1 : ℚ) ≤ 2 ^ spec.mantissaBits := one_le_pow₀ one_le_two
    rw [abs_zero]
    exact mul_nonneg (by linarith) (by positivity)
  cases h with
  | @finite s m e pos canonical high =>
      rw [value, apply_cast s m, mul_assoc, abs_apply, Int.cast_natCast,
        abs_of_nonneg (by positivity)]
      have digits : (m : ℚ) ≤ 2 ^ spec.mantissaBits - 1 := by
        rw [le_sub_iff_add_le]
        exact_mod_cast canonical.few
      have exponent : (2 : ℚ) ^ e ≤ 2 ^ greatest spec := zpow_le_zpow_right₀ one_le_two high
      have unit : (0 : ℚ) < 2 ^ e := by positivity
      gcongr
      exact (Nat.cast_nonneg m).trans digits
  | _ => exact none_

theorem Read.lt_bound {x : UnpackedFloat} (h : Read spec x) : |value x| < bound spec := by
  refine h.abs_le.trans_lt ?_
  rw [bound_eq]
  have unit : (0 : ℚ) < 2 ^ greatest spec := by positivity
  gcongr
  exact sub_one_lt _

/-- The result of an operation that stays in reach comes back from its word. -/
theorem Rounds.unpacked (wide : 2 ≤ spec.exponentBits) {x : UnpackedFloat}
    (h : Proper spec x ∧ Rounds spec d (value x)) (small : |d| < limit spec) :
    UnpackedFloat.unpack spec (UnpackedFloat.pack spec x) = x :=
  unpack_pack wide h.1 (h.2.lt_bound wide small)

/-- So does its size, if that is bounded by a power of two. -/
theorem Rounds.reached (wide : 2 ≤ spec.exponentBits) (least : spec.minExponent ≤ 0) {n : Nat}
    {x : UnpackedFloat} (h : Proper spec x ∧ Rounds spec d (value x)) (small : |d| ≤ 2 ^ n)
    (reach : n < 2 ^ (spec.exponentBits - 1)) :
    Proper spec (UnpackedFloat.unpack spec (UnpackedFloat.pack spec x)) ∧
      |value (UnpackedFloat.unpack spec (UnpackedFloat.pack spec x))| ≤ 2 ^ n := by
  have power : Representable spec (2 ^ n : ℚ) := by
    refine ⟨1, n, by simp, ?_, by omega⟩
    exact_mod_cast @Nat.one_le_two_pow spec.mantissaBits
  rw [Rounds.unpacked wide h (lt_limit small reach)]
  exact ⟨h.1, h.2.within power small⟩

end PixelKernel.Nearest
