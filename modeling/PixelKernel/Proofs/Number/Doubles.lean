import PixelKernel.Proofs.Number.Exact

/-! # Coordinates

What is known of double-precision arithmetic where coordinates are taken apart: the exact number of
a coordinate, its floor, and what is above the floor.
-/

namespace PixelKernel

open Float.Model Float.Model.UnpackedFloat Nearest

/-- The exact number of a coordinate, if it is finite. -/
def denoted (x : Float) : ℚ := (Binary.ofFloat x).value

section

variable {x y : Float}

theorem denoted_eq (x : Float) : denoted x = value x.toModel.unpack := by
  rw [denoted, Binary.ofFloat_eq, Binary.value_ofUnpacked]

theorem read_float (x : Float) : Read .binary64 x.toModel.unpack :=
  read_unpack (by decide) _

theorem finite_iff : Scalar.finite x = true ↔ Proper .binary64 x.toModel.unpack := by
  refine ⟨fun finite => (read_float x).proper finite, fun proper => ?_⟩
  change x.toModel.unpack.isFinite = true
  cases eq : x.toModel.unpack with
  | zero | finite => rfl
  | _ =>
      rw [eq] at proper
      exact proper.elim

theorem floor_eq (finite : Scalar.finite x = true) : Scalar.floor x = clampInt64 ⌊denoted x⌋ := by
  have proper := finite_iff.1 finite
  change (Binary.ofFloat x).floor64 = _
  rw [denoted, Binary.ofFloat_eq]
  cases eq : x.toModel.unpack with
  | zero s => exact Binary.floor64_finite ..
  | finite s m e pos => exact Binary.floor64_finite ..
  | _ =>
      rw [eq] at proper
      exact proper.elim

theorem sub_float (hx : Scalar.finite x = true) (hy : Scalar.finite y = true)
    (small : |denoted x - denoted y| < limit .binary64) :
    Scalar.finite (x - y) = true ∧ Rounds .binary64 (denoted x - denoted y) (denoted (x - y)) := by
  rw [denoted_eq, denoted_eq] at small
  have rounds := sub_rounds (finite_iff.1 hx) (finite_iff.1 hy)
  have same : (x - y).toModel.unpack = _ := Rounds.unpacked (by decide) rounds small
  rw [finite_iff, denoted_eq, denoted_eq, denoted_eq, same]
  exact rounds

/-! ## Whole numbers -/

theorem minExponent_binary64 : Format.binary64.minExponent = -1074 := rfl

theorem representable_int {n : Int} (small : |n| ≤ 2 ^ 53) : Representable .binary64 (n : ℚ) :=
  ⟨n, 0, by simp, small, by decide⟩

/-- Whole numbers of few digits are exact. -/
theorem value_ofNat {n : Nat} (small : n < 2 ^ 53) :
    Proper .binary64 (Float.ofNat n).toModel.unpack ∧ value (Float.ofNat n).toModel.unpack = n := by
  have representable : Representable .binary64 (n : ℚ) :=
    representable_int (n := n) (by rw [abs_of_nonneg (by omega)]; omega)
  have reach : |(n : ℚ)| < limit .binary64 := by
    refine lt_limit (n := 53) ?_ (by decide)
    rw [abs_of_nonneg (by positivity)]
    exact_mod_cast small.le
  -- the digits are read as a whole number
  obtain ⟨proper, exact_⟩ : Proper .binary64 n.toUInt64.toFloat.toModel.unpack ∧
      value n.toUInt64.toFloat.toModel.unpack = n := by
    have word : n.toUInt64.toNat = n := Nat.mod_eq_of_lt (by omega)
    have rounds := @normalize_rounds .binary64 n.toUInt64.toNat 0 .positive
    rw [zpow_zero, mul_one, Int.cast_natCast, word] at rounds
    have same : n.toUInt64.toFloat.toModel.unpack =
        UnpackedFloat.ofUInt64 .binary64 n.toUInt64 := by
      refine Rounds.unpacked (by decide) ?_ reach
      rwa [UnpackedFloat.ofUInt64, UnpackedFloat.ofNat, UnpackedFloat.ofInt, word]
    rw [same, UnpackedFloat.ofUInt64, UnpackedFloat.ofNat, UnpackedFloat.ofInt, word]
    exact ⟨rounds.1, rounds.2.eq representable⟩
  -- and multiplied by a power of ten that is one
  have scaled : Float.ofNat n = n.toUInt64.toFloat * Float.exactlyRepresentablePowersOfTen[0] :=
    dif_pos ⟨small, by decide⟩
  have one : (Float.exactlyRepresentablePowersOfTen[0]).toModel.unpack =
      .finite .positive (2 ^ 52) (-52) (by decide) := rfl
  have unit : value (.finite .positive (2 ^ 52) (-52) (by decide)) = 1 := by
    norm_num [value, Sign.apply]
  have rounds := mul_rounds (by decide) proper
    (y := .finite .positive (2 ^ 52) (-52) (by decide)) ⟨by decide, by decide, fun _ => by decide⟩
  rw [exact_, unit, mul_one] at rounds
  have same : (Float.ofNat n).toModel.unpack = UnpackedFloat.mul .binary64
      n.toUInt64.toFloat.toModel.unpack (.finite .positive (2 ^ 52) (-52) (by decide)) := by
    rw [scaled, ← one]
    rw [← one] at rounds
    exact Rounds.unpacked (by decide) rounds reach
  rw [same]
  exact ⟨rounds.1, rounds.2.eq representable⟩

theorem denoted_ofInt {n : Int} (small : n.natAbs < 2 ^ 53) :
    Scalar.finite (Float.ofInt n) = true ∧ denoted (Float.ofInt n) = n := by
  rw [finite_iff, denoted_eq]
  cases n with
  | ofNat n => exact value_ofNat small
  | negSucc n =>
      obtain ⟨proper, exact_⟩ := @value_ofNat n.succ small
      have negated : value (Float.ofNat n.succ).toModel.unpack.neg = (Int.negSucc n : ℚ) := by
        rw [value_neg, exact_, Int.negSucc_eq]
        push_cast
        ring
      have same : (Float.ofInt (Int.negSucc n)).toModel.unpack =
          (Float.ofNat n.succ).toModel.unpack.neg := by
        refine unpack_pack (by decide) proper.neg ?_
        rw [value_neg, abs_neg]
        exact (read_float _).lt_bound
      rw [same]
      exact ⟨proper.neg, negated⟩

theorem half_eq : Scalar.finite (Scalar.half : Float) = true ∧ denoted Scalar.half = 1 / 2 := by
  have unpacked : (Scalar.half : Float).toModel.unpack =
      .finite .positive (2 ^ 52) (-53) (by decide) := rfl
  refine ⟨rfl, ?_⟩
  rw [denoted_eq, unpacked]
  norm_num [value, Sign.apply]

/-! ## Floors -/

theorem floor_cases (finite : Scalar.finite x = true) :
    (Scalar.floor x).natAbs < 2 ^ 53 → Scalar.floor x = ⌊denoted x⌋ := by
  rw [floor_eq finite, clampInt64]
  omega

/-- What is above the floor is a share of one. For a whole number it is zero. -/
theorem above_floor (finite : Scalar.finite x = true) :
    Scalar.finite (x - Scalar.whole x) = true ∧
      0 ≤ denoted (x - Scalar.whole x) ∧ denoted (x - Scalar.whole x) ≤ 1 ∧
        (denoted x = ⌊denoted x⌋ → denoted (x - Scalar.whole x) = 0) := by
  obtain ⟨y, d, eq, finite', difference, low, high, whole⟩ : ∃ y d, Scalar.whole x = y ∧
      Scalar.finite y = true ∧ denoted x - denoted y = d ∧ 0 ≤ d ∧ d ≤ 1 ∧
        (denoted x = ⌊denoted x⌋ → d = 0) := by
    by_cases small : (Scalar.floor x).natAbs < 2 ^ 53
    · obtain ⟨finite', exact_⟩ := denoted_ofInt small
      refine ⟨Float.ofInt (Scalar.floor x), Int.fract (denoted x), if_pos small, finite', ?_,
        Int.fract_nonneg _,
        (Int.fract_lt_one _).le, fun whole => ?_⟩
      · rw [exact_, floor_cases finite small]
        rfl
      · rw [whole, Int.fract_intCast]
    · exact ⟨x, 0, if_neg small, finite, sub_self _, le_rfl, zero_le_one, fun _ => rfl⟩
  have zero : Representable .binary64 (0 : ℚ) := by
    exact_mod_cast representable_int (n := 0) (by decide)
  have one : Representable .binary64 (1 : ℚ) := by
    exact_mod_cast representable_int (n := 1) (by decide)
  obtain ⟨reached, rounds⟩ := sub_float finite finite' (by
    refine lt_limit (n := 0) ?_ (by decide)
    rw [difference, abs_of_nonneg low, pow_zero]
    exact high)
  rw [difference] at rounds
  rw [eq]
  refine ⟨reached, rounds.le zero low, rounds.ge one high, fun integral => ?_⟩
  rw [whole integral] at rounds
  exact rounds.eq zero

section

variable {k : Int}

theorem floor_range (finite : Scalar.finite x = true) :
    -2 ^ 63 ≤ Scalar.floor x ∧ Scalar.floor x < 2 ^ 63 := by
  rw [floor_eq finite, clampInt64]
  omega

theorem le_floor (finite : Scalar.finite x = true) (range : k < 2 ^ 63) (h : (k : ℚ) ≤ denoted x) :
    k ≤ Scalar.floor x := by
  have := Int.le_floor.2 h
  rw [floor_eq finite, clampInt64]
  omega

theorem floor_lt (finite : Scalar.finite x = true) (range : -2 ^ 63 < k) (h : denoted x < k) :
    Scalar.floor x < k := by
  have := Int.floor_lt.2 h
  rw [floor_eq finite, clampInt64]
  omega

end

theorem multiple_le {m : Nat} {e : Int} (coarse : 10 ≤ e) (below : (m : ℚ) * 2 ^ e < 2 ^ 63) :
    (m : ℚ) * 2 ^ e ≤ 2 ^ 63 - 1024 := by
  have apart : (2 : ℚ) ^ e = 2 ^ (e - 10).toNat * 1024 := by
    have : (1024 : ℚ) = 2 ^ (10 : Int) := by norm_num
    rw [this, ← zpow_natCast, ← zpow_add₀ two_ne_zero]
    congr 1
    omega
  rw [apart, ← mul_assoc] at below ⊢
  have few : m * 2 ^ (e - 10).toNat < 2 ^ 53 := by
    have : ((m * 2 ^ (e - 10).toNat : Nat) : ℚ) < (2 ^ 53 : Nat) := by
      push_cast
      linarith
    exact_mod_cast this
  have most : (m : ℚ) * 2 ^ (e - 10).toNat ≤ 2 ^ 53 - 1 := by
    rw [le_sub_iff_add_le]
    exact_mod_cast few
  linarith

/-- Just below the integers of 64 bits coordinates are a long way apart. -/
theorem le_of_lt_two_pow_63 (finite : Scalar.finite x = true) (below : denoted x < 2 ^ 63) :
    denoted x ≤ 2 ^ 63 - 1024 := by
  have proper := finite_iff.1 finite
  rw [denoted_eq] at below ⊢
  cases eq : x.toModel.unpack with
  | zero s => norm_num
  | finite s m e pos =>
      rw [eq] at proper below
      cases s with
      | negative =>
          have negative : value (.finite .negative m e pos) ≤ 0 := by
            simp only [value, Sign.apply, Int.cast_neg, neg_mul, neg_nonpos]
            positivity
          linarith
      | positive =>
          change (m : ℚ) * 2 ^ e < 2 ^ 63 at below
          change (m : ℚ) * 2 ^ e ≤ 2 ^ 63 - 1024
          by_cases coarse : 10 ≤ e
          · exact multiple_le coarse below
          · have digits : (m : ℚ) ≤ 2 ^ 53 := by exact_mod_cast proper.few.le
            have fine : (2 : ℚ) ^ e ≤ 2 ^ (9 : Int) := zpow_le_zpow_right₀ one_le_two (by omega)
            calc (m : ℚ) * 2 ^ e ≤ 2 ^ 53 * 2 ^ (9 : Int) := by gcongr
              _ ≤ 2 ^ 63 - 1024 := by norm_num
  | _ =>
      rw [eq] at proper
      exact proper.elim

/-! ## Half a unit less -/

theorem shifted (finite : Scalar.finite x = true) : Scalar.finite (x - Scalar.half) = true ∧
    Rounds .binary64 (denoted x - 1 / 2) (denoted (x - Scalar.half)) := by
  obtain ⟨finite', half⟩ := half_eq
  rw [← half]
  refine sub_float finite finite' ?_
  rw [half]
  have most : |denoted x| ≤ (2 ^ 53 - 1) * 2 ^ greatest .binary64 := by
    rw [denoted_eq]
    exact (read_float x).abs_le
  have unit : (1 : ℚ) < 2 ^ greatest .binary64 := one_lt_zpow₀ one_lt_two (by decide)
  calc |denoted x - 1 / 2| ≤ |denoted x| + |1 / 2| := abs_sub _ _
    _ = |denoted x| + 1 / 2 := by norm_num
    _ < (2 ^ 53 - 1) * 2 ^ greatest .binary64 + 2 ^ greatest .binary64 / 2 := by linarith
    _ = limit .binary64 := by
      have digits : Format.binary64.mantissaBits = 53 := rfl
      rw [limit, digits]
      ring

/-- The coordinate is farther than `margin` from the interval of the first `n` units. -/
def Apart (margin : ℚ) (n : Nat) (x : Float) : Prop := denoted x < -margin ∨ n + margin < denoted x

/-- More than half a unit outside neither of two neighbours is inside. Rounding can only bring the
    coordinate onto the last one that is outside. -/
theorem floor_shifted_outside {n : Nat} (few : n < 2 ^ 53) (finite : Scalar.finite x = true)
    (apart : Apart (1 / 2) n x) : denoted (x - Scalar.half) = -1 ∨
      Scalar.floor (x - Scalar.half) + 1 < 0 ∨ (n : Int) ≤ Scalar.floor (x - Scalar.half) := by
  obtain ⟨finite', rounds⟩ := shifted finite
  rcases apart with before | behind
  · have minus_one : Representable .binary64 (-1 : ℚ) := by
      exact_mod_cast representable_int (n := -1) (by decide)
    have most := rounds.ge minus_one (by linarith)
    rcases most.eq_or_lt with on | off
    · exact .inl on
    · have := @floor_lt _ (-1) finite' (by decide) (by push_cast; exact off)
      exact .inr (.inl (by omega))
  · have count : Representable .binary64 (n : ℚ) :=
      representable_int (n := n) (by rw [abs_of_nonneg (by omega)]; omega)
    have least := rounds.le count (by linarith)
    exact .inr (.inr (le_floor finite' (by omega) (by push_cast; exact least)))

/-- Below the end of the 64-bit range the neighbour of a column can be counted. -/
theorem floor_shifted_lt (finite : Scalar.finite x = true) (below : denoted x < 2 ^ 63) :
    Scalar.floor (x - Scalar.half) + 1 < 2 ^ 63 := by
  obtain ⟨finite', rounds⟩ := shifted finite
  have representable : Representable .binary64 (2 ^ 63 - 1024) :=
    ⟨2 ^ 53 - 1, 10, by norm_num, by decide, by decide⟩
  have most := rounds.ge representable (by linarith [le_of_lt_two_pow_63 finite below])
  have := @floor_lt _ (2 ^ 63 - 1) finite' (by decide) (by push_cast; linarith)
  omega

/-- From there on it cannot. -/
theorem floor_shifted_eq (finite : Scalar.finite x = true) (far : 2 ^ 63 ≤ denoted x) :
    Scalar.floor (x - Scalar.half) + 1 = 2 ^ 63 := by
  obtain ⟨finite', rounds⟩ := shifted finite
  have reached : 2 ^ 63 ≤ denoted (x - Scalar.half) := by
    by_cases beyond : 2 ^ 63 ≤ denoted x - 1 / 2
    · exact rounds.le ⟨1, 63, by norm_num, by decide, by decide⟩ beyond
    · by_contra below
      have most := le_of_lt_two_pow_63 finite' (not_le.1 below)
      obtain ⟨u, n, eq, low, full, near⟩ := rounds
      -- the grid is too fine for such a step
      have fine : u ≤ 10 := by
        by_contra coarse
        have least := full (by rw [minExponent_binary64]; omega)
        have step : (2 : ℚ) ^ (11 : Int) ≤ 2 ^ u := zpow_le_zpow_right₀ one_le_two (by omega)
        rw [abs_of_pos (by linarith)] at least
        have : (2 : ℚ) ^ 52 * 2 ^ (11 : Int) ≤ 2 ^ 52 * 2 ^ u := by gcongr
        have digits : Format.binary64.mantissaBits - 1 = 52 := rfl
        rw [digits] at least
        norm_num at this
        linarith
      have step : (2 : ℚ) ^ u ≤ 2 ^ (10 : Int) := zpow_le_zpow_right₀ one_le_two fine
      have := (abs_le.1 near).1
      norm_num at step
      linarith
  have := @le_floor _ (2 ^ 63 - 1) finite' (by decide) (by push_cast; linarith)
  have := (floor_range finite').2
  omega

/-! ## Channels -/

/-- A share of one stays one when it becomes a channel, and zero stays zero. -/
theorem narrow_share (finite : Scalar.finite x = true) (low : 0 ≤ denoted x)
    (high : denoted x ≤ 1) :
    Proper .binary32 (Binary.narrow x).toModel.unpack ∧
      |value (Binary.narrow x).toModel.unpack| ≤ 1 ∧
        (denoted x = 0 → ∃ s, (Binary.narrow x).toModel.unpack = .zero s) := by
  have proper := finite_iff.1 finite
  rw [denoted_eq] at low high ⊢
  cases eq : x.toModel.unpack with
  | zero s =>
      have same : (Binary.narrow x).toModel.unpack = .zero s := by
        change UnpackedFloat.unpack .binary32 (UnpackedFloat.pack .binary32 _) = _
        rw [eq]
        exact unpack_pack_zero s
      rw [same]
      exact ⟨trivial, by simp, fun _ => ⟨s, rfl⟩⟩
  | finite s m e pos =>
      rw [eq] at low high
      have one : Representable .binary32 (1 : ℚ) := ⟨1, 0, by simp, by decide, by decide⟩
      have rounds := @round_rounds .binary32 m s pos e
      have same : (Binary.narrow x).toModel.unpack = UnpackedFloat.round .binary32 s m e := by
        change UnpackedFloat.unpack .binary32 (UnpackedFloat.pack .binary32 _) = _
        rw [eq]
        refine Rounds.unpacked (by decide) rounds (lt_limit (n := 0) ?_ (by decide))
        rw [pow_zero]
        exact abs_le.2 ⟨le_trans (by norm_num) low, high⟩
      rw [same]
      refine ⟨rounds.1, abs_le.2 ⟨rounds.2.le one.neg ?_, rounds.2.ge one high⟩, fun zero => ?_⟩
      · exact le_trans (by norm_num) low
      · exact absurd zero (value_ne_zero s pos)
  | _ =>
      rw [eq] at proper
      exact proper.elim

end

end PixelKernel
