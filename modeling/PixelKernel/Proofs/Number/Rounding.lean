import PixelKernel.Proofs.Number.Packing
import PixelKernel.Proofs.Number.Unsigned

/-! # Errors of single-precision arithmetic

A product or a quotient of numbers that are neither very great nor very small is off by at most
the unit in the last place. So a number that a few operations lead to is near to what they would
lead to without rounding.
-/

namespace PixelKernel.Rounding

open Float.Model Float.Model.UnpackedFloat Nearest

/-! ## Mantissas -/

/-- A mantissa of full length. -/
def Full (m : Nat) : Prop := 2 ^ 23 ≤ m ∧ m < 2 ^ 24

theorem Full.pos {m : Nat} (h : Full m) : 0 < m := Nat.lt_of_lt_of_le (by decide) h.1

theorem full_iff {m : Nat} (pos : 0 < m) : Full m ↔ m.log2 = 23 :=
  (Nat.log2_eq_iff (Nat.pos_iff_ne_zero.1 pos)).symm

theorem targetExponent_binary32 (m : Nat) (e : Int) :
    Format.binary32.targetExponent (totalExponent m e) = max (m.log2 + e - 23) (-149) := by
  simp only [Format.targetExponent, totalExponent, Format.mantissaBits, Format.minExponent]
  omega

/-- A mantissa that is too long loses its last bits. -/
theorem shiftToTargetExponent_eq {m : Nat} {e : Int} {s : Nat} (a : Accuracy)
    (long : m.log2 = 23 + s) (low : -149 ≤ e + s) :
    shiftToTargetExponent .binary32 m e a =
      (ExtendedMantissa.ofMantissaAndAccuracy m a >>> s, e + s) := by
  have target : Format.binary32.targetExponent (totalExponent m e) = e + s := by
    rw [targetExponent_binary32]
    omega
  have drop : (e + s - e).toNat = s := by omega
  simp only [shiftToTargetExponent, shiftToExponent, target, drop]

/-! ## One rounding -/

/-- What one rounding may multiply a number by. -/
def slack : ℚ := 1 + 1 / 2 ^ 23

theorem one_le_slack : 1 ≤ slack := by norm_num [slack]

theorem slack_pos : 0 < slack := zero_lt_one.trans_le one_le_slack

/-- The two numbers differ at most by as much as `k` roundings may make out. -/
def Off (k : Nat) (x v : ℚ) : Prop := x ≤ v * slack ^ k ∧ v ≤ x * slack ^ k

/-- A mantissa between a full one and the next is off by one rounding from either. -/
theorem off_of_between {t r : Nat} {e : Int} {v : ℚ} (full : 2 ^ 23 ≤ t) (near : r = t ∨ r = t + 1)
    (lower : t * 2 ^ e ≤ v) (upper : v ≤ (t + 1) * 2 ^ e) : Off 1 (r * 2 ^ e) v := by
  have unit : (0 : ℚ) < 2 ^ e := by positivity
  have full' : (2 : ℚ) ^ 23 ≤ t := by exact_mod_cast full
  -- the next mantissa is at most the slack away
  have step : ((t : ℚ) + 1) * 2 ^ e ≤ t * 2 ^ e * slack := by
    have : (1 : ℚ) ≤ t / 2 ^ 23 := by rwa [le_div_iff₀ (by positivity), one_mul]
    calc ((t : ℚ) + 1) * 2 ^ e ≤ (t + t / 2 ^ 23) * 2 ^ e := by gcongr
      _ = t * 2 ^ e * slack := by rw [slack]; ring
  have wider : t * 2 ^ e * slack ≤ v * slack := by
    have := slack_pos
    gcongr
  unfold Off
  rw [pow_one]
  rcases near with rfl | rfl
  · refine ⟨lower.trans ?_, upper.trans step⟩
    exact le_mul_of_one_le_right ((by positivity : (0 : ℚ) ≤ r * 2 ^ e).trans lower) one_le_slack
  · push_cast
    refine ⟨step.trans wider, upper.trans ?_⟩
    exact le_mul_of_one_le_right (by positivity) one_le_slack

/-- What is left of a mantissa that is cut off to full length. -/
theorem full_div {m s : Nat} (long : m.log2 = 23 + s) : Full (m / 2 ^ s) := by
  have some_ : m ≠ 0 := by
    rintro rfl
    simp at long
    omega
  obtain ⟨lower, upper⟩ := (Nat.log2_eq_iff some_).1 long
  constructor
  · rwa [Nat.le_div_iff_mul_le (Nat.two_pow_pos s), ← Nat.pow_add]
  · rw [Nat.div_lt_iff_lt_mul (Nat.two_pow_pos s), ← Nat.pow_add]
    rwa [Nat.add_right_comm] at upper

/-- Cutting off and rounding is off by one rounding from all that the mantissa stands for. -/
theorem off_roundedMantissa {m s : Nat} {e : Int} {v : ℚ} (a : Accuracy) (long : m.log2 = 23 + s)
    (above : m * 2 ^ e ≤ v) (below : v ≤ (m + 1) * 2 ^ e) :
    Off 1 ((ExtendedMantissa.ofMantissaAndAccuracy m a >>> s).roundedMantissa * 2 ^ (e + s)) v := by
  have rounded := roundedMantissa_or (ExtendedMantissa.ofMantissaAndAccuracy m a >>> s)
  rw [mantissa_shiftRight, mantissa_ofMantissaAndAccuracy] at rounded
  have apart : (2 : ℚ) ^ (e + s) = 2 ^ s * 2 ^ e := by
    rw [zpow_add₀ two_ne_zero, zpow_natCast, mul_comm]
  have down : m / 2 ^ s * 2 ^ s ≤ m := Nat.div_mul_le_self m (2 ^ s)
  have up : m + 1 ≤ (m / 2 ^ s + 1) * 2 ^ s := by
    rw [mul_comm]
    exact Nat.lt_mul_div_succ m (Nat.two_pow_pos s)
  apply off_of_between (full_div long).1 rounded
  · rw [apart, ← mul_assoc]
    refine le_trans ?_ above
    gcongr
    exact_mod_cast down
  · rw [apart, ← mul_assoc]
    refine below.trans ?_
    gcongr
    exact_mod_cast up

/-- Rounding a long mantissa gives a full one. -/
theorem roundWithAccuracy_full {m s : Nat} {e : Int} (a : Accuracy) (long : m.log2 = 23 + s)
    (low : -149 ≤ e + s) : ∃ m' e' pos,
      roundWithAccuracy .binary32 .positive m e a = .finite .positive m' e' pos ∧ Full m' ∧
        e + s ≤ e' ∧ e' ≤ e + s + 1 ∧
        ∀ v : ℚ, m * 2 ^ e ≤ v → v ≤ (m + 1) * 2 ^ e → Off 1 (m' * 2 ^ e') v := by
  have off (v : ℚ) := off_roundedMantissa (v := v) (e := e) a long
  have rounded := roundedMantissa_or (ExtendedMantissa.ofMantissaAndAccuracy m a >>> s)
  rw [mantissa_shiftRight, mantissa_ofMantissaAndAccuracy] at rounded
  unfold roundWithAccuracy
  rw [shiftToTargetExponent_eq a long low]
  dsimp only
  generalize (ExtendedMantissa.ofMantissaAndAccuracy m a >>> s).roundedMantissa = r at off rounded ⊢
  obtain ⟨lower, upper⟩ := full_div long
  by_cases fits : r < 2 ^ 24
  · have still : Full r := ⟨by omega, fits⟩
    rw [shiftToTargetExponent_eq (s := 0) .exact ((full_iff still.pos).1 still) (by simpa using low)]
    refine ⟨r, e + s, still.pos, ?_, still, le_refl _, by omega, off⟩
    simp [mantissa_shiftRight, ExtendedMantissa.ofMantissaAndAccuracy, still.pos.ne']
  · -- rounding up has made the mantissa one bit longer
    have carried : r = 2 ^ 24 := by omega
    subst carried
    rw [shiftToTargetExponent_eq (s := 1) .exact (by rw [Nat.log2_two_pow]) (by push_cast; omega)]
    refine ⟨2 ^ 23, e + s + 1, by decide, ?_, ⟨by decide, by decide⟩, by omega, le_refl _,
      fun v above below => ?_⟩
    · simp [mantissa_shiftRight, ExtendedMantissa.ofMantissaAndAccuracy]
    · have same : ((2 ^ 23 : Nat) : ℚ) * 2 ^ (e + s + 1) = (2 ^ 24 : Nat) * 2 ^ (e + s) := by
        rw [zpow_add₀ two_ne_zero (e + s) 1]
        push_cast
        ring
      rw [same]
      exact off v above below

/-! ## Numbers that roundings lead to -/

theorem Off.mul {k k' : Nat} {x y v w : ℚ} (h : Off k x v) (h' : Off k' y w) (x_ : 0 < x)
    (y_ : 0 < y) (v_ : 0 < v) (w_ : 0 < w) : Off (k + k') (x * y) (v * w) := by
  have := slack_pos
  constructor
  · calc x * y ≤ v * slack ^ k * (w * slack ^ k') := by gcongr; exacts [h.1, h'.1]
      _ = v * w * slack ^ (k + k') := by ring
  · calc v * w ≤ x * slack ^ k * (y * slack ^ k') := by gcongr; exacts [h.2, h'.2]
      _ = x * y * slack ^ (k + k') := by ring

theorem Off.inv {k : Nat} {x v : ℚ} (h : Off k x v) (x_ : 0 < x) (v_ : 0 < v) : Off k x⁻¹ v⁻¹ := by
  have := pow_pos slack_pos k
  unfold Off
  rw [inv_mul_eq_div, inv_mul_eq_div, le_div_iff₀ v_, le_div_iff₀ x_, inv_mul_le_iff₀ x_,
    inv_mul_le_iff₀ v_]
  exact ⟨h.2, h.1⟩

theorem Off.trans {k k' : Nat} {x y v : ℚ} (h : Off k x y) (h' : Off k' y v) : Off (k + k') x v := by
  have := slack_pos
  constructor
  · calc x ≤ y * slack ^ k := h.1
      _ ≤ v * slack ^ k' * slack ^ k := by gcongr; exact h'.1
      _ = v * slack ^ (k + k') := by ring
  · calc v ≤ y * slack ^ k' := h'.2
      _ ≤ x * slack ^ k * slack ^ k' := by gcongr; exact h.2
      _ = x * slack ^ (k + k') := by ring

/-- The float is positive, of magnitude at most `2 ^ r` either way, and `k` roundings off `v`. -/
def Near (r k : Nat) (x : Float32) (v : ℚ) : Prop :=
  ∃ m e pos, x.toModel.unpack = .finite .positive m e pos ∧ Full m ∧
    -(r : Int) ≤ e + 23 ∧ e + 23 ≤ r ∧ Off k (m * 2 ^ e) v

/-- A number of full length is unpacked as it was packed. -/
theorem unpack_pack_full {m : Nat} {e : Int} {pos : 0 < m} (full : Full m) (low : -149 ≤ e)
    (high : e ≤ 104) : UnpackedFloat.unpack .binary32
      (UnpackedFloat.pack .binary32 (.finite .positive m e pos)) = .finite .positive m e pos :=
  unpack_pack_finite (by decide) .positive ⟨full.2, low, fun _ => full.1⟩ high

section

variable {r r' k k' : Nat} {x y : Float32} {v w : ℚ}

/-- A rounded number that is not too great or too small is near to what was rounded. -/
theorem near_round {m s : Nat} {e : Int} {a : Accuracy} (long : m.log2 = 23 + s)
    (rounded : x.toModel = Float32.Model.pack (roundWithAccuracy .binary32 .positive m e a))
    (low : -(r : Int) ≤ e + s + 23) (high : e + s + 24 ≤ r) (room : r ≤ 120)
    (above : m * 2 ^ e ≤ v) (below : v ≤ (m + 1) * 2 ^ e) : Near r 1 x v := by
  obtain ⟨m', e', pos, eq, full, lower, upper, off⟩ :=
    roundWithAccuracy_full (e := e) a long (by omega)
  refine ⟨m', e', pos, ?_, full, by omega, by omega, off v above below⟩
  rw [rounded, eq]
  exact unpack_pack_full full (by omega) (by omega)

theorem Near.off (h : Near r k x v) (more : Off k' v w) : Near r (k + k') x w := by
  obtain ⟨m, e, pos, eq, full, low, high, off⟩ := h
  exact ⟨m, e, pos, eq, full, low, high, off.trans more⟩

theorem log2_mul {m m' : Nat} (full : Full m) (full' : Full m') :
    (m * m').log2 = 23 + 23 ∨ (m * m').log2 = 23 + 24 := by
  have pos : m * m' ≠ 0 := (Nat.mul_pos full.pos full'.pos).ne'
  have least : 2 ^ 23 * 2 ^ 23 ≤ m * m' := Nat.mul_le_mul full.1 full'.1
  have most : m * m' < 2 ^ 24 * 2 ^ 24 := Nat.mul_lt_mul'' full.2 full'.2
  rw [Nat.log2_eq_iff pos, Nat.log2_eq_iff pos]
  omega

theorem Near.mul (hx : Near r k x v) (hy : Near r' k' y w) (v_ : 0 < v) (w_ : 0 < w)
    (room : r + r' + 2 ≤ 120) : Near (r + r' + 2) (k + k' + 1) (x * y) (v * w) := by
  obtain ⟨m, e, pos, eq, full, low, high, off⟩ := hx
  obtain ⟨m', e', pos', eq', full', low', high', off'⟩ := hy
  have product : (x * y).toModel =
      Float32.Model.pack (roundWithAccuracy .binary32 .positive (m * m') (e + e') .exact) := by
    change Float32.Model.pack (UnpackedFloat.mul .binary32 x.toModel.unpack y.toModel.unpack) = _
    rw [eq, eq']
    rfl
  have exact_ : (((m * m' : Nat) : ℚ)) * 2 ^ (e + e') = m * 2 ^ e * (m' * 2 ^ e') := by
    rw [zpow_add₀ two_ne_zero]
    push_cast
    ring
  have near : Near (r + r' + 2) 1 (x * y) (m * 2 ^ e * (m' * 2 ^ e')) := by
    have next : m * 2 ^ e * (m' * 2 ^ e') ≤ (((m * m' : Nat) : ℚ) + 1) * 2 ^ (e + e') := by
      rw [← exact_]
      gcongr
      exact le_add_of_nonneg_right zero_le_one
    rcases log2_mul full full' with long | long
    all_goals exact near_round long product (by push_cast; omega) (by push_cast; omega) room exact_.le next
  have mantissa : (0 : ℚ) < m := by exact_mod_cast pos
  have mantissa' : (0 : ℚ) < m' := by exact_mod_cast pos'
  rw [add_comm (k + k')]
  exact near.off (off.mul off' (by positivity) (by positivity) v_ w_)

/-- A quotient of full mantissas has enough bits once the first has got 24 more. -/
theorem log2_div {m m' : Nat} (full : Full m) (full' : Full m') :
    (m * 2 ^ 24 / m').log2 = 23 + 0 ∨ (m * 2 ^ 24 / m').log2 = 23 + 1 := by
  obtain ⟨lower, upper⟩ := full
  have least : 2 ^ 23 ≤ m * 2 ^ 24 / m' := by
    rw [Nat.le_div_iff_mul_le full'.pos]
    have := full'.2
    omega
  have most : m * 2 ^ 24 / m' < 2 ^ 25 := by
    rw [Nat.div_lt_iff_lt_mul full'.pos]
    have := full'.1
    omega
  have some_ : m * 2 ^ 24 / m' ≠ 0 := by omega
  rw [Nat.log2_eq_iff some_, Nat.log2_eq_iff some_]
  omega

theorem divCore_eq {m m' : Nat} {e e' : Int} (full : Full m) (full' : Full m')
    (low : -149 ≤ e - e' - 24) : divCore .binary32 m e m' e' =
      (m * 2 ^ 24 / m', e - e' - 24, accuracyOfFraction (m * 2 ^ 24 % m') m') := by
  have target : min (e - e')
      (Format.binary32.targetExponent (totalExponent m e - totalExponent m' e')) = e - e' - 24 := by
    simp only [Format.targetExponent, totalExponent, Format.mantissaBits, Format.minExponent,
      (full_iff full.pos).1 full, (full_iff full'.pos).1 full']
    omega
  have more : (e - e' - (e - e' - 24)).toNat = 24 := by omega
  simp only [divCore, target, more, Nat.shiftLeft_eq]

theorem Near.div (hx : Near r k x v) (hy : Near r' k' y w) (v_ : 0 < v) (w_ : 0 < w)
    (room : r + r' + 2 ≤ 120) : Near (r + r' + 2) (k + k' + 1) (x / y) (v / w) := by
  obtain ⟨m, e, pos, eq, full, low, high, off⟩ := hx
  obtain ⟨m', e', pos', eq', full', low', high', off'⟩ := hy
  have quotient : (x / y).toModel = Float32.Model.pack (roundWithAccuracy .binary32 .positive
      (m * 2 ^ 24 / m') (e - e' - 24) (accuracyOfFraction (m * 2 ^ 24 % m') m')) := by
    change Float32.Model.pack (UnpackedFloat.div .binary32 x.toModel.unpack y.toModel.unpack) = _
    rw [eq, eq']
    change Float32.Model.pack (roundWithAccuracy .binary32 .positive (divCore .binary32 m e m' e').1
      (divCore .binary32 m e m' e').2.1 (divCore .binary32 m e m' e').2.2) = _
    rw [divCore_eq full full' (by omega)]
  have mantissa : (0 : ℚ) < m := by exact_mod_cast pos
  have mantissa' : (0 : ℚ) < m' := by exact_mod_cast pos'
  -- the quotient lies between the whole one and the next
  have exact_ : m * 2 ^ e / (m' * 2 ^ e') = (m * 2 ^ 24 / m' : ℚ) * 2 ^ (e - e' - 24) := by
    rw [zpow_sub₀ two_ne_zero, zpow_sub₀ two_ne_zero]
    field_simp
  have near : Near (r + r' + 2) 1 (x / y) (m * 2 ^ e / (m' * 2 ^ e')) := by
    have above : ((m * 2 ^ 24 / m' : Nat) : ℚ) * 2 ^ (e - e' - 24) ≤ m * 2 ^ e / (m' * 2 ^ e') := by
      rw [exact_]
      gcongr
      rw [le_div_iff₀ mantissa']
      exact_mod_cast Nat.div_mul_le_self (m * 2 ^ 24) m'
    have below : m * 2 ^ e / (m' * 2 ^ e') ≤ (((m * 2 ^ 24 / m' : Nat) : ℚ) + 1) * 2 ^ (e - e' - 24) := by
      rw [exact_]
      gcongr
      rw [div_le_iff₀ mantissa', mul_comm _ (m' : ℚ)]
      exact_mod_cast (Nat.lt_mul_div_succ (m * 2 ^ 24) pos').le
    rcases log2_div full full' with long | long
    all_goals exact near_round long quotient (by push_cast; omega) (by push_cast; omega) room above below
  rw [add_comm (k + k'), div_eq_mul_inv v w]
  rw [div_eq_mul_inv _ (_ * _ : ℚ)] at near
  exact near.off (off.mul (off'.inv (by positivity) w_) (by positivity) (by positivity) v_ (by positivity))

/-- Left-aligned, a small natural number has a full mantissa. -/
theorem log2_aligned {n : Nat} (pos : 0 < n) (small : n < 2 ^ 8) :
    (n * 2 ^ (23 - n.log2)).log2 = 23 := by
  have bits : n.log2 < 8 := (Nat.log2_lt pos.ne').2 small
  obtain ⟨lower, upper⟩ := (Nat.log2_eq_iff pos.ne').1 rfl
  have scale := Nat.two_pow_pos (23 - n.log2)
  have sum : 2 ^ n.log2 * 2 ^ (23 - n.log2) = 2 ^ 23 := by
    rw [← Nat.pow_add]
    congr 1
    omega
  rw [← full_iff (Nat.mul_pos pos scale)]
  constructor
  · calc 2 ^ 23 = 2 ^ n.log2 * 2 ^ (23 - n.log2) := sum.symm
      _ ≤ n * 2 ^ (23 - n.log2) := Nat.mul_le_mul_right _ lower
  · calc n * 2 ^ (23 - n.log2) < 2 ^ (n.log2 + 1) * 2 ^ (23 - n.log2) :=
          Nat.mul_lt_mul_of_pos_right upper scale
      _ = 2 ^ n.log2 * 2 ^ (23 - n.log2) * 2 := by rw [Nat.pow_succ, Nat.mul_right_comm]
      _ = 2 ^ 24 := by rw [sum]; rfl

theorem near_ofUInt8 {b : UInt8} (some_ : b ≠ 0) : Near 8 1 b.toFloat32 b.toNat := by
  have pos : 0 < b.toNat := Nat.pos_of_ne_zero fun none_ => some_ (UInt8.toNat_inj.1 none_)
  have small : b.toNat < 2 ^ 8 := b.toNat_lt
  have bits : b.toNat.log2 < 8 := (Nat.log2_lt pos.ne').2 small
  have rounded : b.toFloat32.toModel = Float32.Model.pack (roundWithAccuracy .binary32 .positive
      (b.toNat * 2 ^ (23 - b.toNat.log2)) (b.toNat.log2 - 23) .exact) := by
    change Float32.Model.pack (UnpackedFloat.normalize .binary32 (b.toNat : Int) 0 .positive) = _
    have sign : compare (b.toNat : Int) 0 = .gt := Int.compare_eq_gt.2 (by omega)
    have target : max ((b.toNat.log2 : Int) + 0 - 23) (-149) = b.toNat.log2 - 23 := by omega
    have shift : (0 - ((b.toNat.log2 : Int) - 23)).toNat = 23 - b.toNat.log2 := by omega
    have exponent : (0 : Int) - ((23 - b.toNat.log2 : Nat) : Int) = b.toNat.log2 - 23 := by omega
    unfold UnpackedFloat.normalize UnpackedFloat.round
    simp only [sign, Int.toNat_natCast, targetExponent_binary32, target, decreaseExponent, shift,
      exponent, Nat.shiftLeft_eq]
  have exact_ : ((b.toNat * 2 ^ (23 - b.toNat.log2) : Nat) : ℚ) * 2 ^ ((b.toNat.log2 : Int) - 23) =
      b.toNat := by
    have : (2 : ℚ) ^ (23 - b.toNat.log2) * 2 ^ ((b.toNat.log2 : Int) - 23) = 1 := by
      rw [← zpow_natCast, ← zpow_add₀ two_ne_zero]
      have : ((23 - b.toNat.log2 : Nat) : Int) + (b.toNat.log2 - 23) = 0 := by omega
      rw [this, zpow_zero]
    push_cast
    rw [mul_assoc, this, mul_one]
  refine near_round (s := 0) (log2_aligned pos small) rounded (by push_cast; omega)
    (by push_cast; omega) (by decide) exact_.le ?_
  rw [add_one_mul, exact_]
  exact le_add_of_nonneg_right (by positivity)

end

/-- Closed numbers are those of bytes. -/
theorem one_eq : (1 : Float32) = (1 : UInt8).toFloat32 := by decide

theorem near_one : Near 8 1 1 1 := by
  have := near_ofUInt8 (b := 1) (by decide)
  rw [← one_eq] at this
  exact_mod_cast this

theorem near_255 : Near 8 1 255 255 := by
  have eq : (255 : Float32) = (255 : UInt8).toFloat32 := by decide
  have := near_ofUInt8 (b := 255) (by decide)
  rw [← eq] at this
  exact_mod_cast this

end PixelKernel.Rounding
