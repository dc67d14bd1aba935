import PixelKernel.Proofs.Number.Order

/-! # Whole numbers and halves

Doubles have all multiples of one half up to `2 ^ 52`. Sums, differences and products that stay
among these are exact, and so are quotients of equal numbers.
-/

namespace PixelKernel

open Float.Model Float.Model.UnpackedFloat Nearest

namespace Nearest

/-- Only zero is written in two ways. -/
theorem eq_of_value {spec : Format} (wide : 2 ≤ spec.exponentBits) {x y : UnpackedFloat}
    (hx : Proper spec x) (hy : Proper spec y) (small : |value x| < bound spec)
    (same : value y = value x) (some_ : value x ≠ 0) : y = x := by
  have read {z : UnpackedFloat} (proper : Proper spec z) (small : |value z| < bound spec) :
      Read spec z := unpack_pack wide proper small ▸ read_unpack wide _
  have alike := same_of_rank (read hy (same ▸ small)) (read hx small) hy.number hx.number
    (by rw [hy.rank_eq, hx.rank_eq, same])
  cases alike with
  | refl => rfl
  | zero => exact absurd (value_zero _) some_

/-- Multiplication by one. -/
theorem mul_kept {spec : Format} (wide : 2 ≤ spec.exponentBits) (least : spec.minExponent ≤ 0)
    {x y : UnpackedFloat} (hx : Proper spec x) (hy : Proper spec y) (small : |value x| < bound spec)
    (some_ : value x ≠ 0) (unit : value y = 1) :
    UnpackedFloat.mul spec x y = x ∧ UnpackedFloat.mul spec y x = x := by
  obtain ⟨proper, rounds⟩ := mul_rounds least hx hy
  obtain ⟨proper', rounds'⟩ := mul_rounds least hy hx
  rw [unit, mul_one] at rounds
  rw [unit, one_mul] at rounds'
  exact ⟨eq_of_value wide hx proper small (rounds.eq hx.representable) some_,
    eq_of_value wide hx proper' small (rounds'.eq hx.representable) some_⟩

end Nearest

/-- A finite coordinate and its exact number. -/
structure Denotes (x : Float) (q : ℚ) : Prop where
  finite : Scalar.finite x = true
  value : denoted x = q

/-- A multiple of one half that is not too great to be a double. -/
def Halves (q : ℚ) : Prop := ∃ n : ℤ, q = n / 2 ∧ |n| ≤ 2 ^ 53

section

variable {x y : Float} {p q : ℚ}

theorem Halves.representable (h : Halves q) : Representable .binary64 q := by
  obtain ⟨n, rfl, small⟩ := h
  exact ⟨n, -1, by rw [zpow_neg_one, div_eq_mul_inv], small, by decide⟩

theorem Halves.reached (h : Halves q) : |q| < limit .binary64 := by
  obtain ⟨n, rfl, small⟩ := h
  refine lt_limit (n := 53) ?_ (by decide)
  have small : |(n : ℚ)| ≤ 2 ^ 53 := by exact_mod_cast small
  rw [abs_div, abs_two]
  linarith [abs_nonneg (n : ℚ)]

theorem halves_int {n : ℤ} (small : |n| ≤ 2 ^ 52) : Halves n := by
  refine ⟨2 * n, by push_cast; ring, ?_⟩
  rw [abs_mul, abs_two]
  omega

theorem halves_middle {n : ℤ} (small : |n| < 2 ^ 52) : Halves (n + 1 / 2) := by
  refine ⟨2 * n + 1, by push_cast; ring, ?_⟩
  rw [abs_lt] at small
  rw [abs_le]
  omega

theorem denotes_iff : Denotes x q ↔
    Proper .binary64 x.toModel.unpack ∧ value x.toModel.unpack = q := by
  rw [← finite_iff, ← denoted_eq]
  exact ⟨fun h => ⟨h.1, h.2⟩, fun h => ⟨h.1, h.2⟩⟩

theorem Denotes.proper (h : Denotes x q) : Proper .binary64 x.toModel.unpack :=
  (denotes_iff.1 h).1

/-- An operation that rounds to a multiple of one half has it as its result. -/
theorem denotes_of_rounds {z : UnpackedFloat} (halves : Halves q)
    (rounds : Proper .binary64 z ∧ Rounds .binary64 q (value z))
    (made : x.toModel.unpack = UnpackedFloat.unpack .binary64 (UnpackedFloat.pack .binary64 z)) :
    Denotes x q := by
  rw [denotes_iff, made, Rounds.unpacked (by decide) rounds halves.reached]
  exact ⟨rounds.1, rounds.2.eq halves.representable⟩

theorem Denotes.sub (hx : Denotes x p) (hy : Denotes y q) (halves : Halves (p - q)) :
    Denotes (x - y) (p - q) := by
  obtain ⟨proper, rfl⟩ := denotes_iff.1 hx
  obtain ⟨proper', rfl⟩ := denotes_iff.1 hy
  exact denotes_of_rounds halves (sub_rounds proper proper') rfl

theorem Denotes.neg (hx : Denotes x p) : Denotes (-x) (-p) := by
  obtain ⟨proper, rfl⟩ := denotes_iff.1 hx
  have made : (-x).toModel.unpack = x.toModel.unpack.neg :=
    unpack_pack (by decide) proper.neg (by rw [value_neg, abs_neg]; exact (read_float x).lt_bound)
  rw [denotes_iff, made, value_neg]
  exact ⟨proper.neg, rfl⟩

theorem Denotes.add (hx : Denotes x p) (hy : Denotes y q) (halves : Halves (p + q)) :
    Denotes (x + y) (p + q) := by
  obtain ⟨proper, rfl⟩ := denotes_iff.1 hx
  obtain ⟨proper', rfl⟩ := denotes_iff.1 hy
  exact denotes_of_rounds halves (add_rounds proper proper') rfl

theorem Denotes.mul (hx : Denotes x p) (hy : Denotes y q) (halves : Halves (p * q)) :
    Denotes (x * y) (p * q) := by
  obtain ⟨proper, rfl⟩ := denotes_iff.1 hx
  obtain ⟨proper', rfl⟩ := denotes_iff.1 hy
  exact denotes_of_rounds halves (mul_rounds (by decide) proper proper') rfl

theorem Denotes.eq (hx : Denotes x q) (hy : Denotes y q) (some_ : q ≠ 0) : x = y := by
  obtain ⟨proper, value⟩ := denotes_iff.1 hy
  refine unpack_inj (eq_of_value (by decide) proper hx.proper (read_float y).lt_bound ?_ ?_)
  · rw [(denotes_iff.1 hx).2, value]
  · rwa [value]

theorem unpack_one : (Scalar.one : Float).toModel.unpack =
    .finite .positive (2 ^ 52) (-52) (by decide) := rfl

theorem denotes_one : Denotes Scalar.one 1 := by
  refine denotes_iff.2 ⟨finite_iff.1 rfl, ?_⟩
  rw [unpack_one]
  norm_num [value, Sign.apply]

/-- Mantissas that are equal have an exact quotient. -/
theorem divCore_self {m : Nat} {e : Int} (pos : 0 < m) :
    divCore .binary64 m e m e = (2 ^ 53, -53, .exact) := by
  have target : min (e - e) (Format.binary64.targetExponent (totalExponent m e - totalExponent m e))
      = -53 := by
    rw [Int.sub_self, Int.sub_self]
    rfl
  have digits : (e - e - -53).toNat = 53 := by omega
  simp only [divCore, target, digits, Nat.shiftLeft_eq, Nat.mul_div_cancel_left _ pos,
    Nat.mul_mod_right, accuracyOfFraction, if_true]

theorem Denotes.div_self (h : Denotes x q) (some_ : q ≠ 0) : x / x = Scalar.one := by
  obtain ⟨proper, value⟩ := denotes_iff.1 h
  refine unpack_inj ?_
  change UnpackedFloat.unpack .binary64 (UnpackedFloat.pack .binary64
    (UnpackedFloat.div .binary64 x.toModel.unpack x.toModel.unpack)) = _
  cases unpacked : x.toModel.unpack with
  | infinity | notANumber =>
      rw [unpacked] at proper
      exact proper.elim
  | zero s =>
      rw [unpacked] at value
      exact absurd value.symm some_
  | finite s m e pos =>
      have sign : s / s = .positive := by cases s <;> rfl
      simp only [UnpackedFloat.div, divCore_self pos, sign]
      rfl

theorem denotes_ofNat {n : Nat} (small : n < 2 ^ 53) : Denotes (Scalar.ofNat n) n :=
  denotes_iff.2 (value_ofNat small)

theorem denotes_ofInt {n : ℤ} (small : n.natAbs < 2 ^ 53) : Denotes (Float.ofInt n) n :=
  ⟨(denoted_ofInt small).1, (denoted_ofInt small).2⟩

theorem denotes_half : Denotes Scalar.half (1 / 2) := ⟨half_eq.1, half_eq.2⟩

/-- The floor of a coordinate in the middle between two whole numbers. -/
theorem Denotes.floor_middle {n : ℤ} (h : Denotes x (n + 1 / 2)) (small : |n| < 2 ^ 52) :
    Scalar.floor x = n := by
  have floor : ⌊(n + 1 / 2 : ℚ)⌋ = n := by
    rw [Int.floor_eq_iff]
    constructor <;> linarith
  rw [PixelKernel.floor_eq h.finite, h.value, floor]
  rw [abs_lt] at small
  simp only [clampInt64]
  omega

/-! ## Near other numbers -/

theorem add_float (hx : Scalar.finite x = true) (hy : Scalar.finite y = true)
    (small : |denoted x + denoted y| < limit .binary64) :
    Scalar.finite (x + y) = true ∧ Rounds .binary64 (denoted x + denoted y) (denoted (x + y)) := by
  rw [denoted_eq, denoted_eq] at small
  have rounds := add_rounds (finite_iff.1 hx) (finite_iff.1 hy)
  have same : (x + y).toModel.unpack = _ := Rounds.unpacked (by decide) rounds small
  rw [finite_iff, denoted_eq, denoted_eq, denoted_eq, same]
  exact rounds

/-- Below `2 ^ 51` coordinates are no more than half a unit apart. -/
theorem rounds_near {v : ℚ} (h : Rounds .binary64 q v) (small : |q| < 2 ^ 51) :
    |v - q| ≤ 1 / 4 := by
  obtain ⟨u, n, -, -, full, near⟩ := h
  have digits : Format.binary64.mantissaBits - 1 = 52 := rfl
  rw [minExponent_binary64, digits] at full
  refine near.trans ?_
  by_cases above : -1074 < u
  · have := full above
    linarith
  · have tiny : (2 : ℚ) ^ u ≤ 2 ^ (-1 : ℤ) := zpow_le_zpow_right₀ one_le_two (by omega)
    rw [zpow_neg_one] at tiny
    linarith

/-- From any corner a middle is found in the column that was counted. -/
theorem floor_counted {i : Nat} (finite : Scalar.finite x = true) (near : |denoted x| < 2 ^ 50)
    (counted : Denotes y (i + 1 / 2)) (few : i < 2 ^ 32) :
    Scalar.finite (x + y - x) = true ∧ Scalar.floor (x + y - x) = i := by
  have few' : (i : ℚ) < 2 ^ 32 := by exact_mod_cast few
  have low : (0 : ℚ) ≤ i := by positivity
  have sum : |denoted x + denoted y| < 2 ^ 51 := by
    rw [counted.value]
    rw [abs_lt] at near ⊢
    constructor <;> linarith
  obtain ⟨finite', rounds⟩ := add_float finite counted.finite (lt_limit sum.le (by decide))
  have close := abs_le.1 (rounds_near rounds sum)
  rw [counted.value] at close
  have reach : |denoted (x + y) - denoted x| < 2 ^ 51 := by
    rw [abs_lt]
    constructor <;> linarith
  obtain ⟨finite'', back⟩ := sub_float finite' finite (lt_limit reach.le (by decide))
  have least : (i : ℚ) ≤ denoted (x + y - x) :=
    back.le (by exact_mod_cast representable_int (n := i) (by rw [abs_le]; omega)) (by linarith)
  have rep : Representable .binary64 (i + 3 / 4) := by
    refine ⟨4 * i + 3, -2, by norm_num; ring, ?_, by decide⟩
    rw [abs_le]
    change -(2 ^ 53) ≤ _ ∧ _ ≤ 2 ^ 53
    omega
  have most := back.ge rep (by linarith)
  have floor : ⌊denoted (x + y - x)⌋ = (i : ℤ) := by
    rw [Int.floor_eq_iff, Int.cast_natCast]
    exact ⟨least, by linarith⟩
  refine ⟨finite'', ?_⟩
  rw [floor_eq finite'', floor]
  simp only [clampInt64]
  omega

/-- A number of moderate size and a coordinate are not too far from each other. -/
theorem sub_reached {p : ℚ} (small : |p| ≤ 2 ^ 52) (y : Float) : |p - denoted y| < limit .binary64 := by
  have most : |denoted y| ≤ (2 ^ 53 - 1) * 2 ^ greatest .binary64 := by
    rw [denoted_eq]
    exact (read_float y).abs_le
  have unit : (2 : ℚ) ^ (54 : ℤ) ≤ 2 ^ greatest .binary64 :=
    zpow_le_zpow_right₀ one_le_two (by decide)
  have digits : Format.binary64.mantissaBits = 53 := rfl
  rw [limit, digits]
  have size : (2 : ℚ) ^ (54 : ℤ) = 4 * 2 ^ 52 := by norm_num
  calc |p - denoted y| ≤ |p| + |denoted y| := abs_sub _ _
    _ < (2 ^ 53 - 1 / 2) * 2 ^ greatest .binary64 := by linarith

/-- A middle is found where it has been moved to, unless that is far away, and then it is not
    found any nearer. -/
theorem floor_moved {n o : ℤ} (hx : Denotes x (n + 1 / 2)) (near : |n| < 2 ^ 50)
    (hy : Denotes y o) : Scalar.finite (x - y) = true ∧
      (Scalar.floor (x - y) = n - o ∨ (Scalar.floor (x - y) < 0 ∧ n - o < 0) ∨
        (2 ^ 32 ≤ Scalar.floor (x - y) ∧ 2 ^ 32 ≤ n - o)) := by
  have small : |denoted x| ≤ 2 ^ 52 := by
    have near : |(n : ℚ)| < 2 ^ 50 := by exact_mod_cast near
    rw [hx.value, abs_le]
    rw [abs_lt] at near
    constructor <;> linarith
  obtain ⟨finite, rounds⟩ := sub_float hx.finite hy.finite (sub_reached small y)
  refine ⟨finite, ?_⟩
  rw [hx.value, hy.value] at rounds
  rw [abs_lt] at near
  have right : (n : ℚ) < 2 ^ 50 := by exact_mod_cast near.2
  have left : (-2 ^ 50 : ℚ) < n := by exact_mod_cast near.1
  by_cases exact_ : |o| < 2 ^ 51
  · rw [abs_lt] at exact_
    have near : |n - o| < 2 ^ 52 := by
      rw [abs_lt]
      omega
    have moved : (n + 1 / 2 - o : ℚ) = (n - o : ℤ) + 1 / 2 := by
      push_cast
      ring
    have difference := hx.sub hy
    rw [moved] at difference
    exact .inl ((difference (halves_middle near)).floor_middle near)
  · rw [not_lt, le_abs] at exact_
    rcases exact_ with behind | before
    · have far : (2 ^ 51 : ℚ) ≤ o := by exact_mod_cast behind
      have most := rounds.ge (c := (-1 : ℤ)) (representable_int (by decide))
        (by push_cast; linarith)
      have outside := floor_lt (k := 0) finite (by decide) (most.trans_lt (by norm_num))
      exact .inr (.inl ⟨outside, by omega⟩)
    · have far : (2 ^ 51 : ℚ) ≤ -o := by exact_mod_cast before
      have least := rounds.le (c := (2 ^ 32 : ℤ)) (representable_int (by decide))
        (by push_cast; linarith)
      exact .inr (.inr ⟨le_floor finite (by decide) least, by omega⟩)

end

end PixelKernel
