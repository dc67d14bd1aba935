import PixelKernel.Proofs.Number.Doubles
import Mathlib.Data.Rat.Cast.Order
import Mathlib.Order.Compare

/-! # The order of coordinates

Comparing coordinates is comparing the numbers that they denote, an infinity counting as the bound
that no number reaches. Rounding keeps the order, so sums and differences of coordinates are in the
order of their operands, even where they overflow.
-/

namespace PixelKernel.Nearest

open Float.Model Float.Model.UnpackedFloat

variable {spec : Format} {c d d' v v' : ℚ}

/-! ## Comparing -/

/-- The number that is denoted; an infinity counts as the bound that no number reaches. -/
def rank (spec : Format) : UnpackedFloat → ℚ
  | .infinity s => s.apply 1 * bound spec
  | x => value x

theorem bound_pos : 0 < bound spec := by
  unfold bound
  positivity

section

variable {m m' : Nat} {e e' : Int}

/-- Of two numbers the one with the greater exponent is the greater one. -/
theorem Canonical.lt (h : Canonical spec m e) (h' : Canonical spec m' e') (less : e < e') :
    (m : ℚ) * 2 ^ e < m' * 2 ^ e' := by
  have few : (m : ℚ) < 2 * 2 ^ (spec.mantissaBits - 1) := by
    rw [← cast_two_pow_mantissaBits]
    exact_mod_cast h.few
  have full : (2 : ℚ) ^ (spec.mantissaBits - 1) ≤ m' := by
    exact_mod_cast h'.full (h.low.trans_lt less)
  have step : (2 : ℚ) * 2 ^ e ≤ 2 ^ e' := by
    rw [← zpow_one_add₀ two_ne_zero]
    exact zpow_le_zpow_right₀ one_le_two (by omega)
  calc (m : ℚ) * 2 ^ e < 2 * 2 ^ (spec.mantissaBits - 1) * 2 ^ e := by gcongr
    _ = 2 ^ (spec.mantissaBits - 1) * (2 * 2 ^ e) := by ring
    _ ≤ m' * 2 ^ e' := by gcongr

theorem Canonical.compare (h : Canonical spec m e) (h' : Canonical spec m' e') :
    (compare e e').then (compare m m') = compare ((m : ℚ) * 2 ^ e) (m' * 2 ^ e') := by
  rcases lt_trichotomy e e' with less | rfl | more
  · rw [compare_lt_iff_lt.2 less, compare_lt_iff_lt.2 (h.lt h' less)]
    rfl
  · have unit : (0 : ℚ) < 2 ^ e := by positivity
    rw [compare_eq_iff_eq.2 rfl]
    change Ord.compare m m' = _
    rcases lt_trichotomy m m' with less | rfl | more
    · rw [compare_lt_iff_lt.2 less, compare_lt_iff_lt.2]
      gcongr
    · rw [compare_eq_iff_eq.2 rfl, compare_eq_iff_eq.2 rfl]
    · rw [compare_gt_iff_gt.2 more, compare_gt_iff_gt.2]
      change (m' : ℚ) * 2 ^ e < m * 2 ^ e
      gcongr
  · rw [compare_gt_iff_gt.2 more, compare_gt_iff_gt.2 (h'.lt h more)]
    rfl

end

theorem rank_finite (s : Sign) {m : Nat} {e : Int} {pos : 0 < m} :
    rank spec (.finite s m e pos) = s.apply 1 * (m * 2 ^ e) := by
  rw [rank, value, apply_cast s m, mul_assoc, Int.cast_natCast]
  intro s' same
  cases same

theorem swap_compare (a b : ℚ) : (compare a b).swap = compare (-a) (-b) := by
  rcases lt_trichotomy a b with less | rfl | more
  · rw [compare_lt_iff_lt.2 less, compare_gt_iff_gt.2 (neg_lt_neg less)]
    rfl
  · rw [compare_eq_iff_eq.2 rfl, compare_eq_iff_eq.2 rfl]
    rfl
  · rw [compare_gt_iff_gt.2 more, compare_lt_iff_lt.2 (neg_lt_neg more)]
    rfl

theorem rank_of_finite {x : UnpackedFloat} (finite : x.isFinite = true) :
    rank spec x = value x := by
  cases x with
  | infinity => cases finite
  | _ => rfl

/-- Whichever number an infinity is compared with, it is the greater or the lesser one. -/
theorem compare_infinity (s : Sign) {y : UnpackedFloat} (hy : Read spec y)
    (finite : y.isFinite = true) :
    (UnpackedFloat.infinity s).compare y = some (compare (rank spec (.infinity s)) (rank spec y)) ∧
      y.compare (.infinity s) = some (compare (rank spec y) (rank spec (.infinity s))) := by
  obtain ⟨low, high⟩ := abs_lt.1 hy.lt_bound
  rw [rank_of_finite finite]
  cases s with
  | negative =>
      have least : rank spec (.infinity .negative) < value y := by
        simpa [rank, Sign.apply] using low
      rw [compare_lt_iff_lt.2 least, compare_gt_iff_gt.2 least]
      cases y <;> first | exact ⟨rfl, rfl⟩ | cases finite
  | positive =>
      have most : value y < rank spec (.infinity .positive) := by
        simpa [rank, Sign.apply] using high
      rw [compare_gt_iff_gt.2 most, compare_lt_iff_lt.2 most]
      cases y <;> first | exact ⟨rfl, rfl⟩ | cases finite

theorem compare_infinities (s s' : Sign) :
    (UnpackedFloat.infinity s).compare (.infinity s') =
      some (compare (rank spec (.infinity s)) (rank spec (.infinity s'))) := by
  have positive := @bound_pos spec
  cases s <;> cases s' <;> simp only [rank, Sign.apply]
  · rw [compare_eq_iff_eq.2 rfl]; rfl
  · rw [compare_lt_iff_lt.2 (by push_cast; linarith)]; rfl
  · rw [compare_gt_iff_gt.2 (by push_cast; linarith)]; rfl
  · rw [compare_eq_iff_eq.2 rfl]; rfl

section

variable {m m' : Nat} {e e' : Int} {pos : 0 < m} {pos' : 0 < m'}

theorem rank_pos : 0 < rank spec (.finite .positive m e pos) := by
  rw [rank_finite, Sign.apply, Int.cast_one, one_mul]
  positivity

theorem rank_lt_zero : rank spec (.finite .negative m e pos) < 0 := by
  rw [rank_finite, Sign.apply, Int.cast_neg, Int.cast_one, neg_one_mul, neg_lt_zero]
  positivity

/-- Numbers of one sign are compared by their exponents first, which decide where their mantissas
    are canonical. -/
theorem compare_finite {s s' : Sign} (hx : Read spec (.finite s m e pos))
    (hy : Read spec (.finite s' m' e' pos')) :
    (UnpackedFloat.finite s m e pos).compare (.finite s' m' e' pos') =
      some (compare (rank spec (.finite s m e pos)) (rank spec (.finite s' m' e' pos'))) := by
  have digits : (compare e e').then (compare m m') =
      compare ((m : ℚ) * 2 ^ e) (m' * 2 ^ e') := by
    cases hx
    cases hy
    exact Canonical.compare ‹_› ‹_›
  cases s with
  | negative =>
      cases s' with
      | negative =>
          change some ((compare e e').then (compare m m')).swap = _
          rw [digits, swap_compare, rank_finite, rank_finite]
          simp [Sign.apply]
      | positive => rw [compare_lt_iff_lt.2 (rank_lt_zero.trans rank_pos)]; rfl
  | positive =>
      cases s' with
      | negative => rw [compare_gt_iff_gt.2 (rank_lt_zero.trans rank_pos)]; rfl
      | positive =>
          change some ((compare e e').then (compare m m')) = _
          rw [digits, rank_finite, rank_finite]
          simp [Sign.apply]

end

/-- Floats are compared by the numbers that they denote. -/
theorem compare_eq {x y : UnpackedFloat} (hx : Read spec x) (hy : Read spec y)
    (number : x ≠ .notANumber) (number' : y ≠ .notANumber) :
    x.compare y = some (compare (rank spec x) (rank spec y)) := by
  have zero (s : Sign) : rank spec (.zero s) = 0 := rfl
  cases x with
  | notANumber => exact absurd rfl number
  | infinity s =>
      cases y with
      | notANumber => exact absurd rfl number'
      | infinity s' => exact compare_infinities s s'
      | zero | finite => exact (compare_infinity s hy rfl).1
  | zero s =>
      cases y with
      | notANumber => exact absurd rfl number'
      | infinity s' => exact (compare_infinity s' hx rfl).2
      | zero s' => rw [zero, zero, compare_eq_iff_eq.2 rfl]; rfl
      | finite s' m' e' pos' =>
          cases s' with
          | negative => rw [zero, compare_gt_iff_gt.2 rank_lt_zero]; rfl
          | positive => rw [zero, compare_lt_iff_lt.2 rank_pos]; rfl
  | finite s m e pos =>
      cases y with
      | notANumber => exact absurd rfl number'
      | infinity s' => exact (compare_infinity s' hx rfl).2
      | zero s' =>
          cases s with
          | negative => rw [zero, compare_lt_iff_lt.2 rank_lt_zero]; rfl
          | positive => rw [zero, compare_gt_iff_gt.2 rank_pos]; rfl
      | finite s' m' e' pos' => exact compare_finite hx hy

/-! ## The sign of a zero -/

/-- The same number; a zero may have another sign. -/
inductive Same : UnpackedFloat → UnpackedFloat → Prop where
  | refl (x : UnpackedFloat) : Same x x
  | zero (s s' : Sign) : Same (.zero s) (.zero s')

section

variable {x x' y y' : UnpackedFloat}

theorem Same.symm (h : Same x x') : Same x' x := by
  cases h with
  | refl => exact .refl _
  | zero => exact .zero _ _

theorem Same.trans (h : Same x x') (h' : Same x' y) : Same x y := by
  cases h with
  | refl => exact h'
  | zero =>
      cases h' with
      | refl => exact .zero _ _
      | zero => exact .zero _ _

/-- What compares as equal is the same. -/
theorem same_of_compare (h : x.compare y = some .eq) : Same x y := by
  have digits {m m' : Nat} {e e' : Int} (same : (compare e e').then (compare m m') = .eq) :
      e = e' ∧ m = m' := by
    obtain ⟨exponent, mantissa⟩ := Ordering.then_eq_eq.1 same
    exact ⟨compare_eq_iff_eq.1 exponent, Nat.compare_eq_eq.1 mantissa⟩
  cases x with
  | notANumber => cases h
  | infinity s =>
      cases y with
      | notANumber => cases h
      | infinity s' => cases s <;> cases s' <;> first | exact .refl _ | cases h
      | _ => cases s <;> cases h
  | zero s =>
      cases y with
      | notANumber => cases h
      | zero s' => exact .zero s s'
      | infinity s' | finite s' => cases s' <;> cases h
  | finite s m e pos =>
      cases y with
      | notANumber => cases h
      | infinity s' => cases s' <;> cases s <;> cases h
      | zero s' => cases s <;> cases h
      | finite s' m' e' pos' =>
          cases s with
          | negative =>
              cases s' with
              | negative =>
                  obtain ⟨rfl, rfl⟩ := digits (Ordering.swap_eq_eq.1 (Option.some.inj h))
                  exact .refl _
              | positive => cases h
          | positive =>
              cases s' with
              | negative => cases h
              | positive =>
                  obtain ⟨rfl, rfl⟩ := digits (Option.some.inj h)
                  exact .refl _

theorem Same.eq_or (h : Same x y) : x = y ∨ x.compare y = some .eq := by
  cases h with
  | refl => exact .inl rfl
  | zero => exact .inr rfl

theorem Same.compare (h : Same x x') (h' : Same y y') : x.compare y = x'.compare y' := by
  cases h with
  | refl =>
      cases h' with
      | refl => rfl
      | zero =>
          cases x with
          | finite sign | infinity sign => cases sign <;> rfl
          | _ => rfl
  | zero =>
      cases h' with
      | refl =>
          cases y with
          | finite sign | infinity sign => cases sign <;> rfl
          | _ => rfl
      | zero => rfl

theorem Same.packed (h : Same x x') : Same (UnpackedFloat.unpack spec (UnpackedFloat.pack spec x))
    (UnpackedFloat.unpack spec (UnpackedFloat.pack spec x')) := by
  cases h with
  | refl => exact .refl _
  | zero =>
      rw [unpack_pack_zero, unpack_pack_zero]
      exact .zero _ _

theorem Same.neg (h : Same x x') : Same x.neg x'.neg := by
  cases h with
  | refl => exact .refl _
  | zero => exact .zero _ _

theorem add_comm_unpacked (x y : UnpackedFloat) :
    UnpackedFloat.add spec x y = UnpackedFloat.add spec y x := by
  cases x <;> cases y <;> simp only [UnpackedFloat.add]
  case infinity.infinity s s' => cases s <;> cases s' <;> rfl
  case zero.zero s s' => cases s <;> cases s' <;> rfl
  case finite.finite s m e _ s' m' e' _ => rw [min_comm e e', add_comm]

theorem same_add_left (h : Same x x') (y : UnpackedFloat) :
    Same (UnpackedFloat.add spec x y) (UnpackedFloat.add spec x' y) := by
  cases h with
  | refl => exact .refl _
  | zero s s' =>
      cases y with
      | zero s'' =>
          have zero (s : Sign) : ∃ t, UnpackedFloat.add spec (.zero s) (.zero s'') = .zero t := by
            simp only [UnpackedFloat.add]
            split <;> exact ⟨_, rfl⟩
          obtain ⟨t, eq⟩ := zero s
          obtain ⟨t', eq'⟩ := zero s'
          rw [eq, eq']
          exact .zero t t'
      | _ => exact .refl _

theorem Same.add (h : Same x x') (h' : Same y y') :
    Same (UnpackedFloat.add spec x y) (UnpackedFloat.add spec x' y') := by
  refine (same_add_left h y).trans ?_
  rw [add_comm_unpacked x' y, add_comm_unpacked x' y']
  exact same_add_left h' x'

theorem neg_neg_unpacked (x : UnpackedFloat) : x.neg.neg = x := by
  cases x <;> simp only [UnpackedFloat.neg, neg_neg_sign]

theorem Same.sub (h : Same x x') (h' : Same y y') :
    Same (UnpackedFloat.sub spec x y) (UnpackedFloat.sub spec x' y') := by
  rw [← neg_neg_unpacked y, ← neg_neg_unpacked y', ← add_eq_sub_neg, ← add_eq_sub_neg]
  exact h.add h'.neg

theorem same_mul (y : UnpackedFloat) (h : Same x x') :
    Same (UnpackedFloat.mul spec y x) (UnpackedFloat.mul spec y x') := by
  cases h with
  | refl => exact .refl _
  | zero =>
      cases y with
      | zero | finite => exact .zero _ _
      | _ => exact .refl _

theorem same_of_rank (hx : Read spec x) (hy : Read spec y) (number : x ≠ .notANumber)
    (number' : y ≠ .notANumber) (eq : rank spec x = rank spec y) : Same x y := by
  refine same_of_compare ?_
  rw [compare_eq hx hy number number', compare_eq_iff_eq.2 eq]

theorem Same.rank (h : Same x x') : rank spec x = rank spec x' := by
  cases h <;> rfl

end

/-! ## Infinities -/

section

variable {x : UnpackedFloat}

theorem Proper.rank_eq (h : Proper spec x) : rank spec x = value x := by
  cases x with
  | infinity => exact h.elim
  | _ => rfl

theorem Proper.number (h : Proper spec x) : x ≠ .notANumber := fun eq => by
  rw [eq] at h
  exact h

/-- What is read is a number or infinite. -/
theorem Read.proper_or (h : Read spec x) (number : x ≠ .notANumber) :
    Proper spec x ∨ ∃ s, x = .infinity s := by
  cases h with
  | notANumber => exact absurd rfl number
  | infinity s => exact .inr ⟨s, rfl⟩
  | zero s => exact .inl trivial
  | finite s canonical high => exact .inl canonical

theorem Read.abs_rank_le (h : Read spec x) : |rank spec x| ≤ bound spec := by
  by_cases finite : x.isFinite = true
  · rw [rank_of_finite finite]
    exact h.lt_bound.le
  · cases h with
    | infinity s => rw [rank, abs_apply, abs_of_pos bound_pos]
    | notANumber => exact abs_zero.trans_le bound_pos.le
    | _ => exact absurd rfl finite

theorem Read.neg (h : Read spec x) : Read spec x.neg := by
  cases h with
  | notANumber => exact .notANumber
  | infinity s => exact .infinity _
  | zero s => exact .zero _
  | finite s canonical high => exact .finite _ canonical high

theorem rank_neg (x : UnpackedFloat) : rank spec x.neg = -rank spec x := by
  cases x with
  | infinity s =>
      rw [UnpackedFloat.neg, rank, rank, apply_neg]
      push_cast
      ring
  | notANumber | zero => exact neg_zero.symm
  | finite s m e pos => exact value_neg (.finite s m e pos)

/-- A number is held between the infinities when it is packed. -/
def held (spec : Format) (v : ℚ) : ℚ := max (-bound spec) (min v (bound spec))

theorem held_mono (le : v ≤ v') : held spec v ≤ held spec v' :=
  max_le_max_left _ (min_le_min_right _ le)

theorem unpack_infinity (s : Sign) :
    UnpackedFloat.unpack spec (packedInfinity spec s) = .infinity s := by
  unfold UnpackedFloat.unpack packedInfinity
  simp only [unpackExponent_packComponents, unpackMantissa_packComponents,
    unpackSign_packComponents, Sign.ofBitVec_toBitVec]
  rfl

/-- What reaches the bound becomes infinite. -/
theorem unpack_pack_beyond (s : Sign) {m : Nat} {e : Int} {pos : 0 < m} (h : Canonical spec m e)
    (great : bound spec ≤ m * 2 ^ e) :
    UnpackedFloat.unpack spec (UnpackedFloat.pack spec (.finite s m e pos)) = .infinity s := by
  have above : greatest spec < e := by
    by_contra below
    have digits : (m : ℚ) < 2 ^ spec.mantissaBits := by exact_mod_cast h.few
    have exponent : (2 : ℚ) ^ e ≤ 2 ^ greatest spec :=
      zpow_le_zpow_right₀ one_le_two (not_lt.1 below)
    have unit : (0 : ℚ) < 2 ^ e := by positivity
    have less : (m : ℚ) * 2 ^ e < 2 ^ spec.mantissaBits * 2 ^ greatest spec :=
      mul_lt_mul digits exponent unit (by positivity)
    rw [← bound_eq] at less
    exact absurd great (not_le.2 less)
  have double := @two_pow_exponentBits spec
  have cast : ((2 ^ (spec.exponentBits - 1) : Nat) : Int) = 2 ^ (spec.exponentBits - 1) := by
    push_cast
    rfl
  have digits : spec.mantissaBits = 1 + spec.mantissaBitsWithoutImplicit := rfl
  have bias : spec.exponentBias = 2 ^ (spec.exponentBits - 1) - 1 := rfl
  have some_ := Nat.two_pow_pos (spec.exponentBits - 1)
  simp only [greatest] at above
  unfold UnpackedFloat.pack
  dsimp only
  rw [if_pos (by omega), unpack_infinity]

/-- What is packed comes back, unless it reaches the bound. -/
theorem unpack_pack_cases (wide : 2 ≤ spec.exponentBits) (h : Proper spec x) :
    |value x| < bound spec ∧ UnpackedFloat.unpack spec (UnpackedFloat.pack spec x) = x ∨
      ∃ s : Sign, bound spec ≤ s.apply 1 * value x ∧
        UnpackedFloat.unpack spec (UnpackedFloat.pack spec x) = .infinity s := by
  by_cases small : |value x| < bound spec
  · exact .inl ⟨small, unpack_pack wide h small⟩
  · refine .inr ?_
    cases x with
    | infinity | notANumber => exact h.elim
    | zero => exact absurd (abs_zero.trans_lt bound_pos) small
    | finite s m e pos =>
        rw [value, apply_cast s m, mul_assoc, abs_apply, Int.cast_natCast,
          abs_of_nonneg (by positivity), not_lt] at small
        refine ⟨s, ?_, unpack_pack_beyond s h small⟩
        rw [value, apply_cast s m, mul_assoc, Int.cast_natCast]
        cases s <;> simpa [Sign.apply] using small

theorem rank_packed (wide : 2 ≤ spec.exponentBits) (h : Proper spec x) :
    rank spec (UnpackedFloat.unpack spec (UnpackedFloat.pack spec x)) = held spec (value x) := by
  rcases unpack_pack_cases wide h with ⟨small, eq⟩ | ⟨s, great, eq⟩
  · obtain ⟨low, high⟩ := abs_lt.1 small
    rw [eq, h.rank_eq, held, min_eq_left high.le, max_eq_right low.le]
  · have positive := @bound_pos spec
    rw [eq, rank, held]
    cases s with
    | negative =>
        have low : value x ≤ -bound spec := by
          simp only [Sign.apply] at great
          push_cast at great
          linarith
        rw [max_eq_left ((min_le_left _ _).trans low)]
        simp [Sign.apply]
    | positive =>
        have high : bound spec ≤ value x := by simpa [Sign.apply] using great
        rw [min_eq_right high, max_eq_right (by linarith)]
        simp [Sign.apply]

end

/-! ## Rounding keeps the order -/

section

variable {x x' y y' : UnpackedFloat}

theorem Proper.representable (h : Proper spec x) : Representable spec (value x) := by
  cases x with
  | infinity | notANumber => exact h.elim
  | zero => exact ⟨0, spec.minExponent, by simp, by simp, le_rfl⟩
  | finite s m e pos =>
      refine ⟨s.apply m, e, rfl, ?_, h.low⟩
      have few : (m : Int) ≤ 2 ^ spec.mantissaBits := by exact_mod_cast h.few.le
      cases s <;> simpa [Sign.apply] using few

/-- Rounding keeps the order of different numbers. -/
theorem Rounds.mono (h : Rounds spec d v) (h' : Rounds spec d' v') (rep : Representable spec v)
    (rep' : Representable spec v') (less : d < d') : v ≤ v' := by
  by_contra more
  have first := sq_le_sq.2 (h.nearest rep')
  have second := sq_le_sq.2 (h'.nearest rep)
  nlinarith

/-- The difference of two operands as it is read again. -/
def difference (spec : Format) (x y : UnpackedFloat) : UnpackedFloat :=
  UnpackedFloat.unpack spec (UnpackedFloat.pack spec (UnpackedFloat.sub spec x y))

theorem difference_infinity (h : Proper spec x) (s : Sign) :
    difference spec x (.infinity s) = .infinity (-s) := by
  have eq : UnpackedFloat.sub spec x (.infinity s) = .infinity (-s) := by
    cases x with
    | infinity | notANumber => exact h.elim
    | _ => rfl
  rw [difference, eq]
  exact unpack_infinity (-s)

/-- Without two numbers there is no number left. -/
theorem sub_of_infinite (h : x.isFinite = false ∨ y.isFinite = false) :
    UnpackedFloat.sub spec x y = .notANumber ∨
      ∃ s, UnpackedFloat.sub spec x y = .infinity s := by
  cases x with
  | notANumber => exact .inl rfl
  | infinity s =>
      cases y with
      | notANumber => exact .inl rfl
      | infinity s' =>
          simp only [UnpackedFloat.sub]
          split
          · exact .inr ⟨s, rfl⟩
          · exact .inl rfl
      | _ => exact .inr ⟨s, rfl⟩
  | _ =>
      cases y with
      | notANumber => exact .inl rfl
      | infinity s' => exact .inr ⟨-s', rfl⟩
      | _ => cases h <;> contradiction

/-- What is subtracted from a number leaves a number or an infinity. -/
theorem difference_number (wide : 2 ≤ spec.exponentBits) (hx : Proper spec x) (hy : Read spec y)
    (number : y ≠ .notANumber) : difference spec x y ≠ .notANumber := by
  rcases hy.proper_or number with proper | ⟨s, rfl⟩
  · have h := (sub_rounds hx proper).1
    rcases unpack_pack_cases wide h with ⟨-, eq⟩ | ⟨s, -, eq⟩
    · rw [difference, eq]
      exact h.number
    · rw [difference, eq]
      exact nofun
  · rw [difference_infinity hx]
    exact nofun

/-- The differences of numbers are in the order of their operands, also where they overflow. -/
theorem rank_difference_le_of_proper (wide : 2 ≤ spec.exponentBits) (hx : Read spec x)
    (hx' : Read spec x') (hy : Read spec y) (hy' : Read spec y') (px : Proper spec x)
    (px' : Proper spec x') (py : Proper spec y) (py' : Proper spec y')
    (le : rank spec x ≤ rank spec x') (ge : rank spec y' ≤ rank spec y) :
    rank spec (difference spec x y) ≤ rank spec (difference spec x' y') := by
  by_cases same : rank spec x = rank spec x' ∧ rank spec y = rank spec y'
  · -- equal operands are rounded to the same number, also halfway between two
    have operand := same_of_rank hx hx' px.number px'.number same.1
    have operand' := same_of_rank hy hy' py.number py'.number same.2
    exact (operand.sub operand').packed.rank.le
  · have rounds := sub_rounds px py
    have rounds' := sub_rounds px' py'
    rw [difference, difference, rank_packed wide rounds.1, rank_packed wide rounds'.1]
    rw [px.rank_eq, px'.rank_eq] at same le
    rw [py.rank_eq, py'.rank_eq] at same ge
    refine held_mono (rounds.2.mono rounds'.2 rounds.1.representable rounds'.1.representable ?_)
    rcases not_and_or.1 same with other | other
    · linarith [lt_of_le_of_ne le other]
    · linarith [lt_of_le_of_ne ge (Ne.symm other)]

/-- So are differences from infinities. -/
theorem rank_difference_le (wide : 2 ≤ spec.exponentBits) (hx : Read spec x)
    (hx' : Read spec x') (hy : Read spec y) (hy' : Read spec y') (px : Proper spec x)
    (px' : Proper spec x') (number : y ≠ .notANumber) (number' : y' ≠ .notANumber)
    (le : rank spec x ≤ rank spec x') (ge : rank spec y' ≤ rank spec y) :
    rank spec (difference spec x y) ≤ rank spec (difference spec x' y') := by
  have bottom : rank spec (.infinity .negative) = -bound spec := by simp [rank, Sign.apply]
  have top : rank spec (.infinity .positive) = bound spec := by simp [rank, Sign.apply]
  have within (x y : UnpackedFloat) := abs_le.1 (read_unpack wide
    (UnpackedFloat.pack spec (UnpackedFloat.sub spec x y))).abs_rank_le
  have inside {z : UnpackedFloat} (hz : Read spec z) (proper : Proper spec z) :
      -bound spec < rank spec z ∧ rank spec z < bound spec := by
    rw [proper.rank_eq]
    exact abs_lt.1 hz.lt_bound
  rcases hy.proper_or number with py | ⟨_ | _, rfl⟩
  · rcases hy'.proper_or number' with py' | ⟨_ | _, rfl⟩
    · exact rank_difference_le_of_proper wide hx hx' hy hy' px px' py py' le ge
    · rw [difference_infinity px']
      exact (within x y).2.trans_eq top.symm
    · rw [top] at ge
      exact absurd ge (not_le.2 (inside hy py).2)
  · rcases hy'.proper_or number' with py' | ⟨_ | _, rfl⟩
    · rw [bottom] at ge
      exact absurd ge (not_le.2 (inside hy' py').1)
    · rw [difference_infinity px, difference_infinity px']
    · rw [bottom, top] at ge
      linarith [@bound_pos spec]
  · rw [difference_infinity px]
    exact bottom.trans_le (within x' y').1

end

end PixelKernel.Nearest

/-! ## Coordinates -/

namespace PixelKernel

open Float.Model Float.Model.UnpackedFloat Nearest

/-- Where a coordinate stands in the order; an infinity is beyond all numbers. -/
def level (x : Float) : ℚ := rank .binary64 x.toModel.unpack

/-- Not a NaN. -/
def Ordered (x : Float) : Prop := x.toModel.unpack ≠ .notANumber

/-- Equal, or both zero: the sign of a zero is left open. -/
def Alike (x y : Float) : Prop := x = y ∨ (x == y) = true

section

variable {x x' y y' : Float}

theorem compare_float (hx : Ordered x) (hy : Ordered y) :
    x.toModel.unpack.compare y.toModel.unpack = some (compare (level x) (level y)) :=
  compare_eq (read_float x) (read_float y) hx hy

theorem less_float_iff (x y : Float) : Scalar.less x y = true ↔
    x.toModel.unpack.compare y.toModel.unpack = some .lt := by
  change decide (x < y) = true ↔ _
  rw [decide_eq_true_iff]
  change decide (x.toModel < y.toModel) = true ↔ _
  rw [decide_eq_true_iff]
  exact beq_iff_eq

theorem atMost_float_iff (x y : Float) : Scalar.atMost x y = true ↔
    (x.toModel.unpack.compare y.toModel.unpack).any (·.isLE) = true := by
  change decide (x ≤ y) = true ↔ _
  rw [decide_eq_true_iff]
  exact decide_eq_true_iff

theorem compare_notANumber {u : UnpackedFloat} :
    UnpackedFloat.notANumber.compare u = none ∧ u.compare .notANumber = none := by
  cases u <;> exact ⟨rfl, rfl⟩

/-- Only a NaN does not compare. -/
theorem ordered_of_compare {o : Ordering}
    (h : x.toModel.unpack.compare y.toModel.unpack = some o) : Ordered x ∧ Ordered y := by
  constructor <;> intro eq <;> rw [eq] at h
  · rw [compare_notANumber.1] at h
    cases h
  · rw [compare_notANumber.2] at h
    cases h

theorem less_iff_level :
    Scalar.less x y = true ↔ Ordered x ∧ Ordered y ∧ level x < level y := by
  rw [less_float_iff]
  constructor
  · intro less
    obtain ⟨hx, hy⟩ := ordered_of_compare less
    rw [compare_float hx hy] at less
    exact ⟨hx, hy, compare_lt_iff_lt.1 (Option.some.inj less)⟩
  · rintro ⟨hx, hy, less⟩
    rw [compare_float hx hy, compare_lt_iff_lt.2 less]

theorem atMost_iff_level :
    Scalar.atMost x y = true ↔ Ordered x ∧ Ordered y ∧ level x ≤ level y := by
  rw [atMost_float_iff, Option.any_eq_true]
  constructor
  · rintro ⟨o, eq, le⟩
    obtain ⟨hx, hy⟩ := ordered_of_compare eq
    rw [compare_float hx hy] at eq
    cases Option.some.inj eq
    exact ⟨hx, hy, compare_le_iff_le.1 (Ordering.isLE_iff_ne_gt.1 le)⟩
  · rintro ⟨hx, hy, le⟩
    exact ⟨_, compare_float hx hy, Ordering.isLE_iff_ne_gt.2 (compare_le_iff_le.2 le)⟩

theorem less_eq_false (hx : Ordered x) (hy : Ordered y) :
    Scalar.less x y = false ↔ level y ≤ level x := by
  rw [← Bool.not_eq_true, less_iff_level]
  simp [hx, hy]

theorem ordered_of_finite (finite : Scalar.finite x = true) : Ordered x :=
  (finite_iff.1 finite).number

theorem level_eq_denoted (finite : Scalar.finite x = true) : level x = denoted x :=
  (finite_iff.1 finite).rank_eq.trans (denoted_eq x).symm

theorem level_zero : Ordered (Scalar.zero : Float) ∧ level Scalar.zero = 0 :=
  ⟨ordered_of_finite rfl, rfl⟩

/-! ### Least and greatest -/

theorem isNaN_of_ordered (hx : Ordered x) : Scalar.isNaN x = false := by
  rw [Scalar.isNaN, Bool.not_eq_false', atMost_iff_level]
  exact ⟨hx, hx, le_rfl⟩

theorem min_eq (hx : Ordered x) (hy : Ordered y) :
    Scalar.min x y = if Scalar.less y x then y else x := by
  rw [Scalar.min, isNaN_of_ordered hx, isNaN_of_ordered hy, if_neg Bool.false_ne_true,
    if_neg Bool.false_ne_true]

theorem max_eq (hx : Ordered x) (hy : Ordered y) :
    Scalar.max x y = if Scalar.less x y then y else x := by
  rw [Scalar.max, isNaN_of_ordered hx, isNaN_of_ordered hy, if_neg Bool.false_ne_true,
    if_neg Bool.false_ne_true]

theorem min_or (hx : Ordered x) (hy : Ordered y) : Scalar.min x y = x ∨ Scalar.min x y = y := by
  rw [min_eq hx hy]
  split
  · exact .inr rfl
  · exact .inl rfl

theorem max_or (hx : Ordered x) (hy : Ordered y) : Scalar.max x y = x ∨ Scalar.max x y = y := by
  rw [max_eq hx hy]
  split
  · exact .inr rfl
  · exact .inl rfl

theorem level_min (hx : Ordered x) (hy : Ordered y) :
    level (Scalar.min x y) = min (level x) (level y) := by
  rw [min_eq hx hy]
  split
  next less => exact (min_eq_right (less_iff_level.1 less).2.2.le).symm
  next more => exact (min_eq_left ((less_eq_false hy hx).1 (Bool.not_eq_true _ ▸ more))).symm

theorem level_max (hx : Ordered x) (hy : Ordered y) :
    level (Scalar.max x y) = max (level x) (level y) := by
  rw [max_eq hx hy]
  split
  next less => exact (max_eq_right (less_iff_level.1 less).2.2.le).symm
  next more => exact (max_eq_left ((less_eq_false hx hy).1 (Bool.not_eq_true _ ▸ more))).symm

/-! ### Sums and differences -/

theorem unpack_add : (x + y).toModel.unpack =
    difference .binary64 x.toModel.unpack y.toModel.unpack.neg := by
  rw [difference, ← add_eq_sub_neg]
  rfl

theorem neg_number (hy : Ordered y) : y.toModel.unpack.neg ≠ .notANumber := fun eq => by
  have back := neg_neg_unpacked y.toModel.unpack
  rw [eq] at back
  exact hy back.symm

theorem ordered_sub (hx : Scalar.finite x = true) (hy : Ordered y) : Ordered (x - y) :=
  difference_number (by decide) (finite_iff.1 hx) (read_float y) hy

theorem ordered_add (hx : Scalar.finite x = true) (hy : Ordered y) : Ordered (x + y) := by
  rw [Ordered, unpack_add]
  exact difference_number (by decide) (finite_iff.1 hx) (read_float y).neg (neg_number hy)

theorem level_sub_le (hx : Scalar.finite x = true) (hx' : Scalar.finite x' = true)
    (hy : Ordered y) (hy' : Ordered y') (le : level x ≤ level x') (ge : level y' ≤ level y) :
    level (x - y) ≤ level (x' - y') :=
  rank_difference_le (by decide) (read_float x) (read_float x') (read_float y) (read_float y')
    (finite_iff.1 hx) (finite_iff.1 hx') hy hy' le ge

theorem level_add_le (hx : Scalar.finite x = true) (hx' : Scalar.finite x' = true)
    (hy : Ordered y) (hy' : Ordered y') (le : level x ≤ level x') (le' : level y ≤ level y') :
    level (x + y) ≤ level (x' + y') := by
  rw [level, level, unpack_add, unpack_add]
  refine rank_difference_le (by decide) (read_float x) (read_float x') (read_float y).neg
    (read_float y').neg (finite_iff.1 hx) (finite_iff.1 hx') (neg_number hy) (neg_number hy') le ?_
  rw [rank_neg, rank_neg]
  exact neg_le_neg le'

/-- Moving by an amount that is not positive and its opposite keeps the order. -/
theorem level_add_le_sub (hx : Scalar.finite x = true) (hx' : Scalar.finite x' = true)
    (hy : Ordered y) (le : level x ≤ level x') (most : level y ≤ 0) :
    level (x + y) ≤ level (x' - y) := by
  rw [level, level, unpack_add]
  refine rank_difference_le (by decide) (read_float x) (read_float x') (read_float y).neg
    (read_float y) (finite_iff.1 hx) (finite_iff.1 hx') (neg_number hy) hy le ?_
  rw [rank_neg]
  have : rank .binary64 y.toModel.unpack ≤ 0 := most
  linarith

theorem unpack_notANumber :
    UnpackedFloat.unpack .binary64 (UnpackedFloat.pack .binary64 .notANumber) = .notANumber :=
  rfl

/-- The difference is a number only if both operands are. -/
theorem finite_of_sub (number : Ordered (x - y)) (small : |level (x - y)| < bound .binary64) :
    Scalar.finite x = true ∧ Scalar.finite y = true := by
  by_contra infinite
  rw [not_and_or, Bool.not_eq_true, Bool.not_eq_true] at infinite
  rcases @sub_of_infinite .binary64 _ _ infinite with eq | ⟨s, eq⟩
  · refine number ?_
    change difference .binary64 x.toModel.unpack y.toModel.unpack = _
    rw [difference, eq, unpack_notANumber]
  · have reached : level (x - y) = rank .binary64 (.infinity s) := by
      change rank .binary64 (difference .binary64 x.toModel.unpack y.toModel.unpack) = _
      rw [difference, eq]
      exact congrArg _ (unpack_infinity s)
    rw [reached, rank, abs_apply, abs_of_pos bound_pos] at small
    exact lt_irrefl _ small

theorem level_sub_self (hx : Scalar.finite x = true) : level (x - x) = 0 := by
  have small : |denoted x - denoted x| < limit .binary64 := by
    rw [sub_self]
    exact lt_limit (n := 0) (by simp) (by decide)
  obtain ⟨finite, rounds⟩ := sub_float hx hx small
  rw [sub_self] at rounds
  rw [level_eq_denoted finite]
  exact rounds.eq (by exact_mod_cast representable_int (n := 0) (by decide))

/-! ### Signs of zeros -/

theorem unpack_inj (eq : x.toModel.unpack = y.toModel.unpack) : x = y := by
  have same : x.toModel = y.toModel := by
    rw [← Words.pack_unpack_float x, eq, Words.pack_unpack_float]
  cases x
  cases y
  exact congrArg Float.ofModel same

theorem alike_iff : Alike x y ↔ Same x.toModel.unpack y.toModel.unpack := by
  constructor
  · rintro (rfl | equal)
    · exact .refl _
    · exact same_of_compare (beq_iff_eq.1 equal)
  · intro same
    rcases same.eq_or with eq | equal
    · exact .inl (unpack_inj eq)
    · right
      change (x.toModel.unpack.compare y.toModel.unpack == some .eq) = true
      rw [equal]
      rfl

theorem Alike.refl (x : Float) : Alike x x := .inl rfl

theorem Alike.symm (h : Alike x y) : Alike y x := alike_iff.2 (alike_iff.1 h).symm

theorem Alike.trans {z : Float} (h : Alike x y) (h' : Alike y z) : Alike x z :=
  alike_iff.2 ((alike_iff.1 h).trans (alike_iff.1 h'))

theorem Alike.level (h : Alike x y) : level x = level y := (alike_iff.1 h).rank

theorem alike_of_level (hx : Ordered x) (hy : Ordered y) (eq : level x = level y) : Alike x y :=
  alike_iff.2 (same_of_rank (read_float x) (read_float y) hx hy eq)

theorem Alike.less (h : Alike x x') (h' : Alike y y') : Scalar.less x y = Scalar.less x' y' := by
  rw [Bool.eq_iff_iff, less_float_iff, less_float_iff, (alike_iff.1 h).compare (alike_iff.1 h')]

theorem Alike.atMost (h : Alike x x') (h' : Alike y y') :
    Scalar.atMost x y = Scalar.atMost x' y' := by
  rw [Bool.eq_iff_iff, atMost_float_iff, atMost_float_iff,
    (alike_iff.1 h).compare (alike_iff.1 h')]

theorem Alike.add (h : Alike x x') (h' : Alike y y') : Alike (x + y) (x' + y') :=
  alike_iff.2 ((alike_iff.1 h).add (alike_iff.1 h')).packed

theorem Alike.sub (h : Alike x x') (h' : Alike y y') : Alike (x - y) (x' - y') :=
  alike_iff.2 ((alike_iff.1 h).sub (alike_iff.1 h')).packed

theorem Alike.mul (y : Float) (h : Alike x x') : Alike (y * x) (y * x') :=
  alike_iff.2 (same_mul _ (alike_iff.1 h)).packed

end

end PixelKernel
