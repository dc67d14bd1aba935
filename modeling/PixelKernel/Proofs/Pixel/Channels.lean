import PixelKernel.Pixel.Format
import PixelKernel.Proofs.Number.Exact
import PixelKernel.Proofs.Number.Rounding

/-! # Channels of one byte

A byte stands for a share of 255. Reading a colour, multiplying it by alpha and dividing it again
are a few roundings, far less than half a step from one byte to the next. So the nearest byte is
the one that was read.
-/

namespace PixelKernel

open Float.Model Float.Model.UnpackedFloat Rounding

variable {r k : Nat} {x : Float32} {v : ℚ}

/-! ## Comparisons -/

theorem less_iff (a b : Float32) : Scalar.less a b = true ↔
    a.toModel.unpack.compare b.toModel.unpack = some .lt := by
  change decide (a < b) = true ↔ _
  rw [decide_eq_true_iff]
  change decide (a.toModel < b.toModel) = true ↔ _
  rw [decide_eq_true_iff]
  exact beq_iff_eq

theorem atMost_iff (a b : Float32) : Scalar.atMost a b = true ↔
    (a.toModel.unpack.compare b.toModel.unpack).any (·.isLE) = true := by
  change decide (a ≤ b) = true ↔ _
  rw [decide_eq_true_iff]
  exact decide_eq_true_iff

theorem unpack_zero32 : (0 : Float32).toModel.unpack = .zero .positive := rfl

theorem unpack_one32 : (1 : Float32).toModel.unpack =
    .finite .positive (2 ^ 23) (-23) (by decide) := rfl

/-- What is near to a positive number is above zero. -/
theorem Rounding.Near.not_atMost_zero (h : Near r k x v) : Scalar.atMost x 0 = false := by
  obtain ⟨m, e, pos, eq, -⟩ := h
  rw [← Bool.not_eq_true, atMost_iff, eq, unpack_zero32]
  exact Bool.false_ne_true

/-- Holding a number to a range that its exact value lies in brings it no further off. -/
theorem Rounding.Near.clamp (h : Near r k x v) (small : v ≤ 1) :
    Near r k (Scalar.clamp x 0 1) v := by
  have above : Scalar.less x 0 = false := by
    obtain ⟨m, e, pos, eq, -⟩ := h
    rw [← Bool.not_eq_true, less_iff, eq, unpack_zero32]
    simp [UnpackedFloat.compare]
  unfold Scalar.clamp
  rw [above, if_neg Bool.false_ne_true]
  split
  next exceeds =>
    obtain ⟨m, e, pos, eq, full, low, high, off⟩ := h
    rw [less_iff, unpack_one32, eq] at exceeds
    have order : (compare (-23) e).then (compare (2 ^ 23) m) = .lt := Option.some.inj exceeds
    have exponent : -23 ≤ e := by
      by_contra below
      rw [Int.compare_eq_gt.2 (by omega)] at order
      cases order
    -- the number is above one, and what it is near to is not
    have one_le : (1 : ℚ) ≤ m * 2 ^ e := by
      have least : (2 : ℚ) ^ (-23 : Int) ≤ 2 ^ e := zpow_le_zpow_right₀ one_le_two exponent
      have mantissa : (2 : ℚ) ^ 23 ≤ m := by exact_mod_cast full.1
      calc (1 : ℚ) = 2 ^ 23 * 2 ^ (-23 : Int) := by norm_num
        _ ≤ m * 2 ^ e := by gcongr
    refine ⟨2 ^ 23, -23, by decide, unpack_one32, ⟨by decide, by decide⟩, by omega, by omega, ?_⟩
    have same : ((2 ^ 23 : Nat) : ℚ) * 2 ^ (-23 : Int) = 1 := by norm_num
    have wide := one_le_pow₀ one_le_slack (n := k)
    rw [same]
    exact ⟨one_le.trans off.1, small.trans (by rw [one_mul]; exact wide)⟩
  next => exact h

/-! ## The nearest byte -/

/-- A number that is less than half a step from a byte has it as the nearest one. -/
theorem nearestNat_eq {m n : Nat} {e : Int} (negative : e < 0) (above : (n : ℚ) - 1 / 2 ≤ m * 2 ^ e)
    (below : m * 2 ^ e < (n : ℚ) + 1 / 2) : Binary.nearestNat m e = n := by
  obtain ⟨i, rfl⟩ : ∃ i : Nat, e = Int.negSucc i := ⟨(-e - 1).toNat, by omega⟩
  have unit : (m : ℚ) * 2 ^ Int.negSucc i = m / 2 ^ (i + 1) := by
    rw [zpow_negSucc, div_eq_mul_inv]
  have scale : (0 : ℚ) < 2 ^ (i + 1) := by positivity
  rw [unit] at above below
  rw [le_div_iff₀ scale] at above
  rw [div_lt_iff₀ scale] at below
  have double : (2 : ℚ) ^ (i + 2) = 2 * 2 ^ (i + 1) := by ring
  change (2 * m + 2 ^ (i + 1)) / 2 ^ (i + 2) = n
  apply Nat.div_eq_of_lt_le
  · have : (n : ℚ) * 2 ^ (i + 2) ≤ 2 * m + 2 ^ (i + 1) := by rw [double]; linarith
    exact_mod_cast this
  · have : (2 : ℚ) * m + 2 ^ (i + 1) < (n + 1) * 2 ^ (i + 2) := by rw [double]; linarith
    exact_mod_cast this

/-- Sixteen roundings make out less than a thousandth. -/
theorem slack_pow_le (few : k ≤ 16) : slack ^ k ≤ 1 + 1 / 1024 :=
  calc slack ^ k ≤ slack ^ 16 := pow_le_pow_right₀ one_le_slack few
    _ ≤ 1 + 1 / 1024 := by norm_num [slack]

theorem Rounding.Near.nearestByte {b : UInt8} (h : Near r k x b.toNat) (few : k ≤ 16) :
    (Binary.ofFloat32 x).nearestByte = b := by
  obtain ⟨m, e, pos, eq, full, low, high, upper, lower⟩ := h
  rw [Binary.ofFloat32_eq, eq]
  have slack_ := slack_pow_le few
  have value : (0 : ℚ) < m * 2 ^ e := by
    have : (0 : ℚ) < m := by exact_mod_cast pos
    positivity
  have byte : (b.toNat : ℚ) ≤ 255 := by exact_mod_cast Nat.le_of_lt_succ b.toNat_lt
  have below : (m : ℚ) * 2 ^ e < b.toNat + 1 / 2 := by
    calc (m : ℚ) * 2 ^ e ≤ b.toNat * slack ^ k := upper
      _ ≤ b.toNat * (1 + 1 / 1024) := by gcongr
      _ < b.toNat + 1 / 2 := by linarith
  have above : (b.toNat : ℚ) - 1 / 2 ≤ m * 2 ^ e := by
    have : (b.toNat : ℚ) ≤ m * 2 ^ e * (1 + 1 / 1024) := lower.trans (by gcongr)
    linarith
  have negative : e < 0 := by
    by_contra large
    have unit : (1 : ℚ) ≤ 2 ^ e := one_le_zpow₀ one_le_two (by omega)
    have mantissa : (2 : ℚ) ^ 23 ≤ m := by exact_mod_cast full.1
    have : (2 : ℚ) ^ 23 * 1 ≤ m * 2 ^ e := by gcongr
    linarith
  change (if false then 0 else UInt8.ofNat (min 255 (Binary.nearestNat m e))) = b
  rw [if_neg Bool.false_ne_true, nearestNat_eq negative above below,
    Nat.min_eq_right (Nat.le_of_lt_succ b.toNat_lt), UInt8.ofNat_toNat]

/-! ## Bytes that are read and written again -/

theorem toNat_pos {b : UInt8} (some_ : b ≠ 0) : (0 : ℚ) < b.toNat := by
  exact_mod_cast Nat.pos_of_ne_zero fun none_ => some_ (UInt8.toNat_inj.1 none_)

theorem Rounding.Near.byteOfUnit {b : UInt8} (h : Near r k x (b.toNat / 255)) (room : r ≤ 110)
    (few : k ≤ 14) (some_ : b ≠ 0) : byteOfUnit x = b := by
  have pos := toNat_pos some_
  have small : (b.toNat : ℚ) / 255 ≤ 1 := by
    rw [div_le_one (by norm_num)]
    exact_mod_cast Nat.le_of_lt_succ b.toNat_lt
  have full := (h.clamp small).mul near_255 (by positivity) (by norm_num) (by omega)
  rw [div_mul_cancel₀ _ (by norm_num)] at full
  exact full.nearestByte (by omega)

theorem near_unitOfByte {b : UInt8} (some_ : b ≠ 0) : Near 18 3 (unitOfByte b) (b.toNat / 255) := by
  exact (near_ofUInt8 some_).div near_255 (toNat_pos some_) (by norm_num) (by decide)

theorem unitOfByte_zero : unitOfByte 0 = 0 := by decide

theorem byteOfUnit_zero : byteOfUnit 0 = 0 := by decide

theorem Rounding.Near.zero_mul (h : Near r k x v) : (0 : Float32) * x = 0 := by
  obtain ⟨m, e, pos, eq, -⟩ := h
  change Float32.ofModel (Float32.Model.pack (UnpackedFloat.mul .binary32
    (0 : Float32).toModel.unpack x.toModel.unpack)) = 0
  rw [eq]
  rfl

@[simp] theorem byteOfUnit_unitOfByte (b : UInt8) : byteOfUnit (unitOfByte b) = b := by
  by_cases none_ : b = 0
  · rw [none_, unitOfByte_zero, byteOfUnit_zero]
  · exact (near_unitOfByte none_).byteOfUnit (by decide) (by decide) none_

/-- Multiplying by alpha and by its reciprocal gives the byte back. -/
theorem byteOfUnit_mul_reciprocal (b : UInt8) (alpha : Near r k x v) (pos : 0 < v) (room : r ≤ 18)
    (few : k ≤ 3) : byteOfUnit (unitOfByte b * x * (1 / x)) = b := by
  have inverse := near_one.div alpha one_pos pos (by omega)
  by_cases none_ : b = 0
  · rw [none_, unitOfByte_zero, alpha.zero_mul, inverse.zero_mul, byteOfUnit_zero]
  · have share : (0 : ℚ) < b.toNat / 255 := div_pos (toNat_pos none_) (by norm_num)
    have product := ((near_unitOfByte none_).mul alpha share pos (by omega)).mul inverse
      (by positivity) (by positivity) (by omega)
    rw [mul_assoc _ v, mul_one_div_cancel pos.ne', mul_one] at product
    exact product.byteOfUnit (by omega) (by omega) none_

end PixelKernel
