import PixelKernel.Proofs.Number.Words

/-! # Rounding to the nearest number

The numbers of a format lie on grids, one for each magnitude. An operation rounds its exact result
to the nearest point of such a grid. So rounding never passes a number of the format: what is not
below it before is not below it afterwards.
-/

namespace PixelKernel.Nearest

open Float.Model Float.Model.UnpackedFloat

/-! ## Mantissas -/

/-- Dropping bits is division. -/
theorem mantissa_shiftRight (em : ExtendedMantissa) (k : Nat) :
    (em >>> k).mantissa = em.mantissa / 2 ^ k := by
  induction k with
  | zero => exact (Nat.div_one _).symm
  | succ k ih =>
      change (em >>> k).mantissa / 2 = _
      rw [ih, Nat.div_div_eq_div_mul, Nat.pow_succ]

theorem mantissa_ofMantissaAndAccuracy (m : Nat) (a : Accuracy) :
    (ExtendedMantissa.ofMantissaAndAccuracy m a).mantissa = m := by
  fun_cases ExtendedMantissa.ofMantissaAndAccuracy m a <;> rfl

/-- Rounding stays or goes up by one. -/
theorem roundedMantissa_or (em : ExtendedMantissa) :
    em.roundedMantissa = em.mantissa ∨ em.roundedMantissa = em.mantissa + 1 := by
  unfold ExtendedMantissa.roundedMantissa
  fun_cases ExtendedMantissa.accuracy em with
  | case1 => exact .inl rfl
  | case2 => exact .inl rfl
  | case3 m =>
      change m + m % 2 = m ∨ m + m % 2 = m + 1
      omega
  | case4 => exact .inr rfl

/-- A mantissa from which some bits have been dropped. -/
def dropped (m s : Nat) : ExtendedMantissa :=
  ExtendedMantissa.ofMantissaAndAccuracy m .exact >>> s

theorem mantissa_dropped (m s : Nat) : (dropped m s).mantissa = m / 2 ^ s := by
  rw [dropped, mantissa_shiftRight, mantissa_ofMantissaAndAccuracy]

/-- The two bits beside a mantissa tell how what has been dropped compares with a half. -/
theorem bits_dropped (m s : Nat) :
    ((dropped m s).roundBit = true ↔ 2 ^ s ≤ 2 * (m % 2 ^ s)) ∧
      ((dropped m s).stickyBit = false → m % 2 ^ s = 0 ∨ 2 * (m % 2 ^ s) = 2 ^ s) := by
  induction s with
  | zero =>
      have none_ : m % 2 ^ 0 = 0 := Nat.mod_one m
      rw [none_]
      exact ⟨⟨nofun, nofun⟩, fun _ => .inl rfl⟩
  | succ s ih =>
      obtain ⟨round, sticky⟩ := ih
      have last := mantissa_dropped m s
      have below : m % 2 ^ s < 2 ^ s := Nat.mod_lt _ (Nat.two_pow_pos s)
      have split : m % 2 ^ (s + 1) = m % 2 ^ s + 2 ^ s * (m / 2 ^ s % 2) := Nat.mod_pow_succ
      have double : 2 ^ (s + 1) = 2 * 2 ^ s := Nat.pow_succ'
      change (((dropped m s).mantissa % 2 != 0) = true ↔ _) ∧
        (((dropped m s).roundBit || (dropped m s).stickyBit) = false → _)
      rw [last, split, double, bne_iff_ne, Bool.or_eq_false_iff]
      constructor
      · rcases Nat.mod_two_eq_zero_or_one (m / 2 ^ s) with even | odd
        · rw [even]; omega
        · rw [odd]; omega
      · rintro ⟨low, clear⟩
        have small : ¬ 2 ^ s ≤ 2 * (m % 2 ^ s) := fun half => by
          rw [round.2 half] at low
          cases low
        have none_ : m % 2 ^ s = 0 := by
          have := sticky clear
          omega
        rw [none_]
        rcases Nat.mod_two_eq_zero_or_one (m / 2 ^ s) with even | odd
        · rw [even]; omega
        · rw [odd]; omega

/-- A mantissa is left alone below a half and goes up above it. -/
theorem roundedMantissa_cases (em : ExtendedMantissa) :
    em.roundedMantissa = em.mantissa ∧ (em.roundBit = true → em.stickyBit = false) ∨
      em.roundedMantissa = em.mantissa + 1 ∧ em.roundBit = true := by
  unfold ExtendedMantissa.roundedMantissa
  fun_cases ExtendedMantissa.accuracy em with
  | case1 m => exact .inl ⟨rfl, nofun⟩
  | case2 m => exact .inl ⟨rfl, nofun⟩
  | case3 m =>
      -- a tie goes to the even neighbour
      rcases Nat.mod_two_eq_zero_or_one m with even | odd
      · exact .inl ⟨congrArg (m + ·) even, fun _ => rfl⟩
      · exact .inr ⟨congrArg (m + ·) odd, rfl⟩
  | case4 m => exact .inr ⟨rfl, rfl⟩

/-- Rounding is off by half a unit at most. -/
theorem roundedMantissa_dropped (m s : Nat) :
    2 * ((dropped m s).roundedMantissa * 2 ^ s) ≤ 2 * m + 2 ^ s ∧
      2 * m ≤ 2 * ((dropped m s).roundedMantissa * 2 ^ s) + 2 ^ s := by
  obtain ⟨round, sticky⟩ := bits_dropped m s
  have whole : m / 2 ^ s * 2 ^ s + m % 2 ^ s = m := Nat.div_add_mod' m (2 ^ s)
  have below : m % 2 ^ s < 2 ^ s := Nat.mod_lt _ (Nat.two_pow_pos s)
  rcases roundedMantissa_cases (dropped m s) with ⟨eq, tie⟩ | ⟨eq, half⟩
  · have small : 2 * (m % 2 ^ s) ≤ 2 ^ s := by
      by_contra great
      have := sticky (tie (round.2 (by omega)))
      omega
    rw [eq, mantissa_dropped]
    omega
  · have great := round.1 half
    rw [eq, mantissa_dropped, Nat.add_mul, Nat.one_mul]
    omega

/-! ## Formats -/

/-- The mantissa and the exponent of a number of the format. -/
structure Canonical (spec : Format) (m : Nat) (e : Int) : Prop where
  few : m < 2 ^ spec.mantissaBits
  low : spec.minExponent ≤ e
  /-- Only at the least exponent may leading digits be missing. -/
  full : spec.minExponent < e → 2 ^ (spec.mantissaBits - 1) ≤ m

/-- The number that is denoted, if it is one. -/
def value : UnpackedFloat → ℚ
  | .finite s m e _ => s.apply m * 2 ^ e
  | _ => 0

@[simp] theorem value_zero (s : Sign) : value (.zero s) = 0 := rfl

/-- Finite, and with the mantissa and the exponent that the format has for the number. -/
def Proper (spec : Format) : UnpackedFloat → Prop
  | .zero _ => True
  | .finite _ m e _ => Canonical spec m e
  | _ => False

/-- The number `v` is a point of a grid that is no further than half a step from `d`. Its steps are
    small for numbers as great as `d`. -/
def Rounds (spec : Format) (d v : ℚ) : Prop :=
  ∃ u n : Int, v = n * 2 ^ u ∧ spec.minExponent ≤ u ∧
    (spec.minExponent < u → 2 ^ (spec.mantissaBits - 1) * 2 ^ u ≤ |d|) ∧ |v - d| ≤ 2 ^ u / 2

/-- A number of as many digits as the format has. -/
def Representable (spec : Format) (c : ℚ) : Prop :=
  ∃ k j : Int, c = k * 2 ^ j ∧ |k| ≤ 2 ^ spec.mantissaBits ∧ spec.minExponent ≤ j

theorem apply_cast (s : Sign) (n : Int) : ((s.apply n : Int) : ℚ) = s.apply 1 * n := by
  cases s <;> simp [Sign.apply]

theorem abs_apply (s : Sign) (x : ℚ) : |(s.apply 1 : ℚ) * x| = |x| := by
  cases s <;> simp [Sign.apply]

theorem value_ne_zero (s : Sign) {m : Nat} {e : Int} (pos : 0 < m) :
    value (.finite s m e pos) ≠ 0 := by
  rw [value, apply_cast s m, mul_assoc, ← abs_ne_zero, abs_apply, Int.cast_natCast]
  positivity

variable {spec : Format} {c d v : ℚ}

theorem mantissaBits_pos : 0 < spec.mantissaBits - 1 := by
  have := spec.hm
  simp only [Format.mantissaBits]
  omega

theorem two_pow_mantissaBits : 2 ^ spec.mantissaBits = 2 * 2 ^ (spec.mantissaBits - 1) := by
  rw [← Nat.pow_succ']
  congr 1
  have := @mantissaBits_pos spec
  omega

theorem cast_two_pow_mantissaBits :
    (2 : ℚ) ^ spec.mantissaBits = 2 * 2 ^ (spec.mantissaBits - 1) := by
  exact_mod_cast @two_pow_mantissaBits spec

/-! ## Sides -/

theorem Rounds.neg (h : Rounds spec d v) : Rounds spec (-d) (-v) := by
  obtain ⟨u, n, rfl, low, full, near⟩ := h
  refine ⟨u, -n, ?_, low, by rwa [abs_neg], ?_⟩
  · push_cast
    ring
  · rwa [neg_sub_neg, abs_sub_comm]

theorem Representable.neg (h : Representable spec c) : Representable spec (-c) := by
  obtain ⟨k, j, rfl, few, low⟩ := h
  exact ⟨-k, j, by push_cast; ring, by rwa [abs_neg], low⟩

/-- No point of the grid is nearer. -/
theorem grid_nearest {u n k : Int} (near : |n * 2 ^ u - d| ≤ 2 ^ u / 2) :
    |(n : ℚ) * 2 ^ u - d| ≤ |k * 2 ^ u - d| := by
  rcases eq_or_ne k n with rfl | other
  · exact le_rfl
  · have unit : (0 : ℚ) < 2 ^ u := by positivity
    have apart : (1 : ℚ) ≤ |(k : ℚ) - n| := by exact_mod_cast Int.one_le_abs (sub_ne_zero.2 other)
    have step : 2 ^ u ≤ |(k : ℚ) * 2 ^ u - n * 2 ^ u| := by
      rw [← sub_mul, abs_mul, abs_of_pos unit]
      exact le_mul_of_one_le_left unit.le apart
    have triangle : |(k : ℚ) * 2 ^ u - n * 2 ^ u| ≤ |k * 2 ^ u - d| + |n * 2 ^ u - d| := by
      rw [abs_sub_comm (n * 2 ^ u : ℚ) d]
      exact abs_sub_le _ _ _
    linarith

/-- Numbers with smaller exponents than the grid are at most as great as the least one that it is
    for. -/
theorem abs_le_of_coarse {k j u : Int} (few : |k| ≤ 2 ^ spec.mantissaBits) (coarse : j < u) :
    |(k : ℚ) * 2 ^ j| ≤ 2 ^ (spec.mantissaBits - 1) * 2 ^ u := by
  have digits : |(k : ℚ)| ≤ 2 * 2 ^ (spec.mantissaBits - 1) := by
    have double := @two_pow_mantissaBits spec
    exact_mod_cast few.trans (by exact_mod_cast double.le)
  have step : (2 : ℚ) * 2 ^ j ≤ 2 ^ u := by
    rw [← zpow_one_add₀ two_ne_zero]
    exact zpow_le_zpow_right₀ one_le_two (by omega)
  calc |(k : ℚ) * 2 ^ j| = |(k : ℚ)| * 2 ^ j := by
        rw [abs_mul, abs_of_pos (a := (2 : ℚ) ^ j) (by positivity)]
    _ ≤ 2 * 2 ^ (spec.mantissaBits - 1) * 2 ^ j := by gcongr
    _ = 2 ^ (spec.mantissaBits - 1) * (2 * 2 ^ j) := by ring
    _ ≤ 2 ^ (spec.mantissaBits - 1) * 2 ^ u := by gcongr

/-- No number of the format is nearer. -/
theorem Rounds.nearest (h : Rounds spec d v) (rep : Representable spec c) : |v - d| ≤ |c - d| := by
  obtain ⟨u, n, rfl, low, full, near⟩ := h
  obtain ⟨k, j, rfl, few, least⟩ := rep
  by_cases fine : u ≤ j
  · -- the number is on the grid
    have on : (k : ℚ) * 2 ^ j = (k * 2 ^ (j - u).toNat : Int) * 2 ^ u := by
      push_cast
      rw [mul_assoc, ← zpow_natCast, ← zpow_add₀ two_ne_zero]
      congr 2
      omega
    rw [on]
    exact grid_nearest near
  · -- between the number and `d` is the least one that the grid is for
    have full := full (by omega)
    obtain ⟨low, high⟩ := abs_le.1 (@abs_le_of_coarse spec _ _ _ few (not_le.1 fine))
    rcases le_abs.1 full with positive | negative
    · have nearer := @grid_nearest d u n (2 ^ (spec.mantissaBits - 1)) near
      push_cast at nearer
      rw [abs_of_nonpos (sub_nonpos.2 positive)] at nearer
      rw [abs_of_nonpos (sub_nonpos.2 (high.trans positive))]
      linarith
    · have nearer := @grid_nearest d u n (-2 ^ (spec.mantissaBits - 1)) near
      push_cast at nearer
      rw [abs_of_nonneg (a := -2 ^ (spec.mantissaBits - 1) * 2 ^ u - d) (by linarith)] at nearer
      rw [abs_of_nonneg (a := (k : ℚ) * 2 ^ j - d) (by linarith)]
      linarith

/-- Rounding keeps above a number of the format. -/
theorem Rounds.le (h : Rounds spec d v) (rep : Representable spec c) (below : c ≤ d) : c ≤ v := by
  by_contra less
  have nearer := h.nearest rep
  rw [abs_of_nonpos (sub_nonpos.2 below), abs_of_nonpos (by linarith)] at nearer
  linarith

/-- Rounding keeps below a number of the format. -/
theorem Rounds.ge (h : Rounds spec d v) (rep : Representable spec c) (above : d ≤ c) : v ≤ c :=
  neg_le_neg_iff.1 (h.neg.le rep.neg (neg_le_neg above))

theorem Rounds.within (h : Rounds spec d v) (rep : Representable spec c) (bounded : |d| ≤ c) :
    |v| ≤ c := by
  obtain ⟨low, high⟩ := abs_le.1 bounded
  exact abs_le.2 ⟨h.le rep.neg low, h.ge rep high⟩

/-- A number of the format is not rounded. -/
theorem Rounds.eq (h : Rounds spec d v) (rep : Representable spec d) : v = d :=
  le_antisymm (h.ge rep le_rfl) (h.le rep le_rfl)

/-! ## One rounding -/

theorem log2_mul_two_pow {m : Nat} (pos : 0 < m) (k : Nat) : (m * 2 ^ k).log2 = m.log2 + k := by
  induction k with
  | zero => simp
  | succ k ih =>
      have some_ : m * 2 ^ k ≠ 0 := (Nat.mul_pos pos (Nat.two_pow_pos k)).ne'
      rw [Nat.pow_succ', Nat.mul_left_comm, Nat.log2_two_mul some_, ih, Nat.add_assoc]

theorem targetExponent_eq (m : Nat) (e : Int) : spec.targetExponent (totalExponent m e) =
    max (m.log2 + 1 + e - spec.mantissaBits) spec.minExponent := rfl

section

variable {m r : Nat} {e u : Int}

/-- Bits are dropped up to the exponent that the format has for the number. -/
theorem shiftToTargetExponent_eq (fine : e ≤ spec.targetExponent (totalExponent m e)) :
    shiftToTargetExponent spec m e .exact =
      (dropped m (spec.targetExponent (totalExponent m e) - e).toNat,
        spec.targetExponent (totalExponent m e)) := by
  refine Prod.ext rfl ?_
  change e + ((spec.targetExponent (totalExponent m e) - e).toNat : Int) = _
  omega

/-- A mantissa that has got one digit too long gives it up again. -/
theorem settled (few : r ≤ 2 ^ spec.mantissaBits) (low : spec.minExponent ≤ u)
    (full : spec.minExponent < u → 2 ^ (spec.mantissaBits - 1) ≤ r) : ∃ em e',
      shiftToTargetExponent spec r u .exact = (em, e') ∧ Canonical spec em.mantissa e' ∧
        (em.mantissa : ℚ) * 2 ^ e' = r * 2 ^ u := by
  have digits := @mantissaBits_pos spec
  rcases Nat.lt_or_eq_of_le few with short | rfl
  · have target : spec.targetExponent (totalExponent r u) ≤ u := by
      have bits : r.log2 < spec.mantissaBits := by
        rcases Nat.eq_zero_or_pos r with rfl | pos
        · simp only [Nat.log2_zero]
          omega
        · exact (Nat.log2_lt pos.ne').2 short
      rw [targetExponent_eq]
      omega
    have still : (spec.targetExponent (totalExponent r u) - u).toNat = 0 := by omega
    refine ⟨dropped r 0, u, ?_, ?_, ?_⟩
    · rw [shiftToTargetExponent, shiftToExponent, still]
      exact Prod.ext rfl (Int.add_zero u)
    · rw [mantissa_dropped, Nat.pow_zero, Nat.div_one]
      exact ⟨short, low, full⟩
    · rw [mantissa_dropped, Nat.pow_zero, Nat.div_one]
  · have target : spec.targetExponent (totalExponent (2 ^ spec.mantissaBits) u) = u + 1 := by
      rw [targetExponent_eq, Nat.log2_two_pow]
      omega
    have half : 2 ^ spec.mantissaBits / 2 ^ 1 = 2 ^ (spec.mantissaBits - 1) := by
      have := @two_pow_mantissaBits spec
      omega
    have one : (u + 1 - u).toNat = 1 := by omega
    refine ⟨dropped (2 ^ spec.mantissaBits) 1, u + 1, ?_, ?_, ?_⟩
    · rw [shiftToTargetExponent_eq (by omega), target, one]
    · rw [mantissa_dropped, half]
      exact ⟨Nat.pow_lt_pow_right (by decide) (by omega), by omega, fun _ => le_rfl⟩
    · rw [mantissa_dropped, half, @two_pow_mantissaBits spec, zpow_add_one₀ two_ne_zero]
      push_cast
      ring

/-- How many digits are left when bits have been dropped. -/
theorem digits_dropped {s : Nat} (pos : 0 < m) :
    (m.log2 < spec.mantissaBits + s → (dropped m s).roundedMantissa ≤ 2 ^ spec.mantissaBits) ∧
      (spec.mantissaBits - 1 + s ≤ m.log2 →
        2 ^ (spec.mantissaBits - 1) ≤ (dropped m s).roundedMantissa) := by
  have near := roundedMantissa_cases (dropped m s)
  rw [mantissa_dropped] at near
  constructor
  · intro short
    have : m / 2 ^ s < 2 ^ spec.mantissaBits := by
      rw [Nat.div_lt_iff_lt_mul (Nat.two_pow_pos s), ← Nat.pow_add]
      exact (Nat.log2_lt pos.ne').1 short
    omega
  · intro long
    have : 2 ^ (spec.mantissaBits - 1) ≤ m / 2 ^ s := by
      rw [Nat.le_div_iff_mul_le (Nat.two_pow_pos s), ← Nat.pow_add]
      exact (Nat.le_log2 pos.ne').1 long
    omega

/-- Dropping `k` bits moves a number by at most half the unit it then has. -/
theorem abs_dropped_sub_le {k : Nat} (up : (2 : ℚ) ^ u = 2 ^ k * 2 ^ e) :
    |((dropped m k).roundedMantissa : ℚ) * 2 ^ u - m * 2 ^ e| ≤ 2 ^ u / 2 := by
  obtain ⟨upper, lower⟩ := roundedMantissa_dropped m k
  generalize (dropped m k).roundedMantissa = r at *
  have upper : (2 : ℚ) * (r * 2 ^ k) ≤ 2 * m + 2 ^ k := by exact_mod_cast upper
  have lower : (2 : ℚ) * m ≤ 2 * (r * 2 ^ k) + 2 ^ k := by exact_mod_cast lower
  have unit : (0 : ℚ) < 2 ^ e := by positivity
  rw [up, abs_le]
  constructor <;> nlinarith

theorem full_of_le_log2 {k : Nat} (pos : 0 < m) (up : (2 : ℚ) ^ u = 2 ^ k * 2 ^ e)
    (long : spec.mantissaBits - 1 + k ≤ m.log2) :
    2 ^ (spec.mantissaBits - 1) * 2 ^ u ≤ (m : ℚ) * 2 ^ e := by
  have least : (2 : ℚ) ^ (spec.mantissaBits - 1 + k) ≤ m := by
    exact_mod_cast (Nat.le_log2 pos.ne').1 long
  rw [up, ← mul_assoc, ← pow_add]
  gcongr

theorem roundWithAccuracy_rounds (s : Sign) (pos : 0 < m)
    (fine : e ≤ spec.targetExponent (totalExponent m e)) :
    Proper spec (roundWithAccuracy spec s m e .exact) ∧
      Rounds spec (s.apply m * 2 ^ e) (value (roundWithAccuracy spec s m e .exact)) := by
  have digits := @mantissaBits_pos spec
  have first := shiftToTargetExponent_eq fine
  rw [targetExponent_eq] at fine first
  obtain ⟨u, def_u⟩ : ∃ u, u = max ((m.log2 : Int) + 1 + e - spec.mantissaBits) spec.minExponent :=
    ⟨_, rfl⟩
  rw [← def_u] at fine first
  obtain ⟨k, def_k⟩ : ∃ k, k = (u - e).toNat := ⟨_, rfl⟩
  rw [← def_k] at first
  have up : (2 : ℚ) ^ u = 2 ^ k * 2 ^ e := by
    rw [← zpow_natCast, ← zpow_add₀ two_ne_zero]
    congr 1
    omega
  have low : spec.minExponent ≤ u := by omega
  obtain ⟨few, full⟩ := @digits_dropped spec m k pos
  obtain ⟨em, e', second, canonical, same⟩ :=
    settled (few (by omega)) low fun above => full (by omega)
  have result : Rounds spec (s.apply m * 2 ^ e)
      (s.apply 1 * ((dropped m k).roundedMantissa * 2 ^ u)) := by
    refine ⟨u, s.apply (dropped m k).roundedMantissa, ?_, low, fun above => ?_, ?_⟩
    · rw [apply_cast s (dropped m k).roundedMantissa, Int.cast_natCast, mul_assoc]
    · rw [apply_cast s m, Int.cast_natCast, mul_assoc, abs_apply]
      exact (full_of_le_log2 pos up (by omega)).trans (le_abs_self _)
    · rw [apply_cast s m, Int.cast_natCast, mul_assoc, ← mul_sub, abs_apply]
      exact abs_dropped_sub_le up
  rw [← same] at result
  unfold roundWithAccuracy
  rw [first]
  dsimp only
  rw [second]
  dsimp only
  split
  next none_ =>
    rw [none_, Nat.cast_zero, zero_mul, mul_zero] at result
    exact ⟨trivial, result⟩
  next =>
    refine ⟨canonical, ?_⟩
    rwa [value, apply_cast s em.mantissa, Int.cast_natCast, mul_assoc]

theorem round_rounds (s : Sign) (pos : 0 < m) (e : Int) :
    Proper spec (UnpackedFloat.round spec s m e) ∧
      Rounds spec (s.apply m * 2 ^ e) (value (UnpackedFloat.round spec s m e)) := by
  obtain ⟨k, def_k⟩ : ∃ k, k = (e - spec.targetExponent (totalExponent m e)).toNat := ⟨_, rfl⟩
  have more := log2_mul_two_pow pos k
  have fine : e - k ≤ spec.targetExponent (totalExponent (m * 2 ^ k) (e - k)) := by
    rw [targetExponent_eq, more]
    rw [targetExponent_eq] at def_k
    omega
  have same : (s.apply (m * 2 ^ k : Nat) : ℚ) * 2 ^ (e - k) = s.apply m * 2 ^ e := by
    rw [apply_cast s m, apply_cast s (m * 2 ^ k : Nat), zpow_sub₀ two_ne_zero, zpow_natCast]
    push_cast
    field_simp
  have rounds := roundWithAccuracy_rounds s (Nat.mul_pos pos (Nat.two_pow_pos k)) fine
  rw [same] at rounds
  unfold UnpackedFloat.round
  simp only [decreaseExponent, ← def_k, Nat.shiftLeft_eq]
  exact rounds

theorem rounds_zero : Rounds spec 0 0 :=
  ⟨spec.minExponent, 0, by simp, le_rfl, fun h => (lt_irrefl _ h).elim, by simp; positivity⟩

theorem normalize_rounds (n : Int) (e : Int) (s : Sign) :
    Proper spec (UnpackedFloat.normalize spec n e s) ∧
      Rounds spec (n * 2 ^ e) (value (UnpackedFloat.normalize spec n e s)) := by
  unfold UnpackedFloat.normalize
  split
  next below =>
    have below := Int.compare_eq_lt.1 below
    have negated : Sign.negative.apply ((-n).toNat : Int) = n := by
      simp only [Sign.apply]
      omega
    have rounds := @round_rounds spec (-n).toNat .negative (by omega) e
    rwa [negated] at rounds
  next zero =>
    rw [Int.compare_eq_eq.1 zero, Int.cast_zero, zero_mul]
    exact ⟨trivial, rounds_zero⟩
  next above =>
    have above := Int.compare_eq_gt.1 above
    have same : Sign.positive.apply (n.toNat : Int) = n := by
      simp only [Sign.apply]
      omega
    have rounds := @round_rounds spec n.toNat .positive (by omega) e
    rwa [same] at rounds

/-- A number of the format is on its own grid. -/
theorem Proper.rounds {x : UnpackedFloat} (h : Proper spec x) :
    Rounds spec (value x) (value x) := by
  cases x with
  | zero s => exact rounds_zero
  | finite s m e pos =>
      obtain ⟨few, low, full⟩ := h
      refine ⟨e, s.apply m, rfl, low, fun above => ?_, ?_⟩
      · rw [value, apply_cast s m, mul_assoc, abs_apply, Int.cast_natCast]
        refine le_trans ?_ (le_abs_self _)
        gcongr
        exact_mod_cast full above
      · rw [sub_self, abs_zero]
        positivity
  | _ => exact h.elim

theorem Proper.neg {x : UnpackedFloat} (h : Proper spec x) : Proper spec x.neg := by
  cases x <;> exact h

theorem apply_neg (s : Sign) (n : Int) : (-s).apply n = -s.apply n := by
  cases s
  · exact (neg_neg n).symm
  · rfl

theorem value_neg (x : UnpackedFloat) : value x.neg = -value x := by
  cases x with
  | finite s m e pos =>
      rw [UnpackedFloat.neg, value, value, apply_neg]
      push_cast
      ring
  | _ => exact neg_zero.symm

end

/-- Two numbers are brought to the lesser one of their exponents before they are subtracted. -/
theorem decreaseExponent_min (s : Sign) (m : Nat) {e u : Int} (le : u ≤ e) :
    (s.apply (decreaseExponent m e u).1 : ℚ) * 2 ^ u = s.apply m * 2 ^ e := by
  have apart : (2 : ℚ) ^ e = 2 ^ (e - u).toNat * 2 ^ u := by
    rw [← zpow_natCast, ← zpow_add₀ two_ne_zero]
    congr 1
    omega
  rw [decreaseExponent, Nat.shiftLeft_eq, apply_cast s m, apply_cast s _, apart]
  push_cast
  ring

theorem sub_rounds {x y : UnpackedFloat} (hx : Proper spec x) (hy : Proper spec y) :
    Proper spec (UnpackedFloat.sub spec x y) ∧
      Rounds spec (value x - value y) (value (UnpackedFloat.sub spec x y)) := by
  cases x with
  | infinity | notANumber => exact hx.elim
  | zero s =>
      cases y with
      | infinity | notANumber => exact hy.elim
      | zero s' =>
          have zero : ∃ s'', UnpackedFloat.sub spec (.zero s) (.zero s') = .zero s'' := by
            simp only [UnpackedFloat.sub]
            split <;> exact ⟨_, rfl⟩
          obtain ⟨s'', eq⟩ := zero
          rw [eq, value_zero, value_zero, sub_self]
          exact ⟨trivial, rounds_zero⟩
      | finite s' m e pos =>
          refine ⟨hy.neg, ?_⟩
          rw [value_zero, zero_sub, ← value_neg]
          exact hy.neg.rounds
  | finite s m e pos =>
      cases y with
      | infinity | notANumber => exact hy.elim
      | zero s' =>
          refine ⟨hx, ?_⟩
          rw [value_zero, sub_zero]
          exact hx.rounds
      | finite s' m' e' pos' =>
          have rounds := @normalize_rounds spec (s.apply (decreaseExponent m e (min e e')).1 -
            s'.apply (decreaseExponent m' e' (min e e')).1) (min e e') .positive
          rw [Int.cast_sub, sub_mul, decreaseExponent_min s m (min_le_left e e'),
            decreaseExponent_min s' m' (min_le_right e e')] at rounds
          exact rounds

theorem neg_neg_sign (s : Sign) : -(-s) = s := by
  cases s <;> rfl

/-- A sum is the difference from the number with the other sign. -/
theorem add_eq_sub_neg (x y : UnpackedFloat) :
    UnpackedFloat.add spec x y = UnpackedFloat.sub spec x y.neg := by
  cases x <;> cases y <;> simp only [UnpackedFloat.add, UnpackedFloat.sub, UnpackedFloat.neg,
    neg_neg_sign, apply_neg, sub_neg_eq_add]

theorem add_rounds {x y : UnpackedFloat} (hx : Proper spec x) (hy : Proper spec y) :
    Proper spec (UnpackedFloat.add spec x y) ∧
      Rounds spec (value x + value y) (value (UnpackedFloat.add spec x y)) := by
  have rounds := sub_rounds hx hy.neg
  rwa [value_neg, sub_neg_eq_add, ← add_eq_sub_neg] at rounds

theorem mul_apply (s s' : Sign) (m m' : Nat) :
    (s * s').apply ((m * m' : Nat) : Int) = s.apply m * s'.apply m' := by
  rw [Nat.cast_mul]
  cases s <;> cases s' <;> simp only [Sign.apply, neg_mul, mul_neg, neg_neg]

theorem mul_rounds (least : spec.minExponent ≤ 0) {x y : UnpackedFloat} (hx : Proper spec x)
    (hy : Proper spec y) : Proper spec (UnpackedFloat.mul spec x y) ∧
      Rounds spec (value x * value y) (value (UnpackedFloat.mul spec x y)) := by
  cases x with
  | infinity | notANumber => exact hx.elim
  | zero s =>
      rw [value_zero, zero_mul]
      cases y with
      | infinity | notANumber => exact hy.elim
      | _ => exact ⟨trivial, rounds_zero⟩
  | finite s m e pos =>
      cases y with
      | infinity | notANumber => exact hy.elim
      | zero s' =>
          rw [value_zero, mul_zero]
          exact ⟨trivial, rounds_zero⟩
      | finite s' m' e' pos' =>
          have product := Nat.mul_pos pos pos'
          have fine : e + e' ≤ spec.targetExponent (totalExponent (m * m') (e + e')) := by
            have long : spec.minExponent < e ∨ spec.minExponent < e' →
                spec.mantissaBits - 1 ≤ (m * m').log2 := by
              intro above
              rw [Nat.le_log2 product.ne']
              rcases above with above | above
              · exact (hx.full above).trans (Nat.le_mul_of_pos_right m pos')
              · exact (hy.full above).trans (Nat.le_mul_of_pos_left m' pos)
            have := hx.low
            have := hy.low
            rw [targetExponent_eq]
            omega
          have rounds := roundWithAccuracy_rounds (s * s') product fine
          rw [mul_apply, Int.cast_mul, zpow_add₀ two_ne_zero, mul_mul_mul_comm] at rounds
          exact rounds

end PixelKernel.Nearest
