import PixelKernel.Pixel.Layout
import PixelKernel.Proofs.Number.Doubles
import PixelKernel.Proofs.Pixel.Grids

/-! # Sampling at any point

Columns and rows are integers of 64 bits that come from floors of coordinates, and smooth reading
looks at the next ones as well. For coordinates below the end of the range all of them fit, and what
is looked up is in the grid. From there on the next one does not fit.

Outside a grid there is nothing to see. Smooth reading takes the point by half a unit to the side
before, and that is rounded: a point a little more than half a unit outside can be taken for one
that is just half a unit outside. Then the texels beside it are blended with no weight at all, which
is not the same as leaving them out when they are not finite.
-/

namespace PixelKernel

open Float.Model Float.Model.UnpackedFloat Nearest

/-! ## Blends -/

/-- A finite channel, and far enough from the greatest one for differences. -/
def Moderate (v : Float32) : Prop :=
  Scalar.finite v = true ∧ |(Binary.ofFloat32 v).value| ≤ 2 ^ 125

/-- A finite share of one. -/
def Share (t : Float32) : Prop :=
  Proper .binary32 t.toModel.unpack ∧ |value t.toModel.unpack| ≤ 1

/-- Zero of either sign. -/
def Null (t : Float32) : Prop := ∃ s, t.toModel.unpack = .zero s

section

variable {a b t : Float32}

theorem Moderate.proper (h : Moderate a) :
    Proper .binary32 a.toModel.unpack ∧ |value a.toModel.unpack| ≤ 2 ^ 125 := by
  obtain ⟨finite, small⟩ := h
  rw [Binary.ofFloat32_eq, Binary.value_ofUnpacked] at small
  exact ⟨(read_unpack (by decide) _).proper finite, small⟩

theorem moderate_zero : Moderate Scalar.zero := by
  refine ⟨rfl, ?_⟩
  have read : Binary.ofFloat32 Scalar.zero = .finite false 0 (-149) := by decide
  rw [read]
  norm_num [Binary.value]

theorem zero_add_null (h : Null b) : Scalar.zero + b = Scalar.zero := by
  obtain ⟨s, eq⟩ := h
  change Float32.ofModel (Float32.Model.pack (UnpackedFloat.add .binary32 (.zero .positive)
    b.toModel.unpack)) = _
  rw [eq]
  cases s <;> rfl

theorem null_mul (ha : Proper .binary32 a.toModel.unpack) (ht : Proper .binary32 t.toModel.unpack)
    (h : Null a ∨ Null t) : Null (a * t) := by
  obtain ⟨s, eq⟩ : ∃ s,
      UnpackedFloat.mul .binary32 a.toModel.unpack t.toModel.unpack = .zero s := by
    rcases h with ⟨s, eq⟩ | ⟨s, eq⟩
    · rw [eq]
      cases unpacked : t.toModel.unpack with
      | zero s' | finite s' => exact ⟨_, rfl⟩
      | _ =>
          rw [unpacked] at ht
          exact ht.elim
    · rw [eq]
      cases unpacked : a.toModel.unpack with
      | zero s' | finite s' => exact ⟨_, rfl⟩
      | _ =>
          rw [unpacked] at ha
          exact ha.elim
  refine ⟨s, ?_⟩
  change UnpackedFloat.unpack .binary32 (UnpackedFloat.pack .binary32
    (UnpackedFloat.mul .binary32 a.toModel.unpack t.toModel.unpack)) = .zero s
  rw [eq]
  exact unpack_pack_zero s

/-- From zero to a channel with no weight there is no way. -/
theorem blend_zero (h : Null (b * t)) :
    (Scalar.zero : Float32) + (b - Scalar.zero) * t = Scalar.zero := by
  rw [Words.float32_sub_zero]
  exact zero_add_null h

/-- A blend of moderate channels is finite. -/
theorem blend_proper (ha : Moderate a) (hb : Moderate b) (ht : Share t) :
    Proper .binary32 (a + (b - a) * t).toModel.unpack := by
  obtain ⟨ha, a_le⟩ := ha.proper
  obtain ⟨hb, b_le⟩ := hb.proper
  obtain ⟨ht, t_le⟩ := ht
  have difference : Proper .binary32 (b - a).toModel.unpack ∧
      |value (b - a).toModel.unpack| ≤ 2 ^ 126 := by
    refine Rounds.reached (by decide) (by decide) (sub_rounds hb ha) ?_ (by decide)
    calc |value b.toModel.unpack - value a.toModel.unpack| ≤ 2 ^ 125 + 2 ^ 125 :=
          (abs_sub _ _).trans (add_le_add b_le a_le)
      _ = 2 ^ 126 := by norm_num
  have product : Proper .binary32 ((b - a) * t).toModel.unpack ∧
      |value ((b - a) * t).toModel.unpack| ≤ 2 ^ 126 := by
    refine Rounds.reached (by decide) (by decide) (mul_rounds (by decide) difference.1 ht) ?_
      (by decide)
    rw [abs_mul]
    calc _ ≤ (2 : ℚ) ^ 126 * 1 := by gcongr; exact difference.2
      _ = 2 ^ 126 := mul_one _
  refine (@Rounds.reached .binary32 _ (by decide) (by decide) 127 _ (add_rounds ha product.1) ?_
    (by decide)).1
  calc |value a.toModel.unpack + value ((b - a) * t).toModel.unpack| ≤ 2 ^ 125 + 2 ^ 126 :=
        (abs_add_le _ _).trans (add_le_add a_le product.2)
    _ ≤ 2 ^ 127 := by norm_num

/-- All channels of a colour have a property. -/
def Rgba.Each (P : Float32 → Prop) (c : Rgba Float32) : Prop := P c.r ∧ P c.g ∧ P c.b ∧ P c.a

theorem Rgba.Each.imp {P Q : Float32 → Prop} {c : Rgba Float32} (h : c.Each P)
    (weaker : ∀ v, P v → Q v) : c.Each Q :=
  ⟨weaker _ h.1, weaker _ h.2.1, weaker _ h.2.2.1, weaker _ h.2.2.2⟩

/-- Blending transparent black with something that comes to nothing leaves it as it is. -/
theorem lerp_eq_transparent {c : Rgba Float32} (h : c.Each fun v => Null (v * t)) :
    Rgba.lerp .transparent c t = .transparent := by
  obtain ⟨red, green, blue, alpha⟩ := h
  rw [Rgba.lerp, Rgba.transparent, blend_zero red, blend_zero green, blend_zero blue,
    blend_zero alpha]

theorem lerp_proper {c d : Rgba Float32} (hc : c.Each Moderate) (hd : d.Each Moderate)
    (ht : Share t) : (Rgba.lerp c d t).Each fun v => Proper .binary32 v.toModel.unpack :=
  ⟨blend_proper hc.1 hd.1 ht, blend_proper hc.2.1 hd.2.1 ht, blend_proper hc.2.2.1 hd.2.2.1 ht,
    blend_proper hc.2.2.2 hd.2.2.2 ht⟩

theorem lerp_weightless {c : Rgba Float32}
    (hc : c.Each fun v => Proper .binary32 v.toModel.unpack) (ht : Share t) (none_ : Null t) :
    Rgba.lerp .transparent c t = .transparent :=
  lerp_eq_transparent (hc.imp fun _ proper => null_mul proper ht.1 (.inr none_))

theorem lerp_transparent_share (ht : Share t) :
    Rgba.lerp (.transparent : Rgba Float32) .transparent t = .transparent := by
  have zero : Null (Scalar.zero * t) := null_mul trivial ht.1 (.inl ⟨.positive, rfl⟩)
  exact lerp_eq_transparent ⟨zero, zero, zero, zero⟩

end

/-- Both coordinates of the point are finite. -/
def Point.Finite {κ : Type} [Scalar κ] (p : Point κ) : Prop :=
  Scalar.finite p.x = true ∧ Scalar.finite p.y = true

namespace Pixel.Grid

/-! ## Checked sampling -/

section

variable {κ χ : Type} [Scalar κ] [Scalar χ] [Narrow κ χ]

/-- `n` as a signed integer of 64 bits, if it is one. -/
def int64? (n : Int) : Option Int := if -2 ^ 63 ≤ n ∧ n < 2 ^ 63 then some n else none

/-- The texel at integer coordinates, provided that its place is a size of 64 bits and in the
    array. -/
def texelChecked (g : Grid χ) (x y : Int) : Option (Rgba χ) :=
  if x < 0 ∨ y < 0 ∨ (g.width : Int) ≤ x ∨ (g.height : Int) ≤ y then some Rgba.transparent
  else do
    let start ← size64? (y.toNat * g.width)
    let place ← size64? (start + x.toNat)
    g.texels[place]?

/-- The texel whose square holds the point, provided that all integers on the way fit. -/
def nearestChecked (g : Grid χ) (p : Point κ) : Option (Rgba χ) :=
  if !Scalar.finite p.x || !Scalar.finite p.y then some Rgba.transparent
  else do
    let x ← int64? (Scalar.floor p.x)
    let y ← int64? (Scalar.floor p.y)
    g.texelChecked x y

/-- The blend of four texels, provided that all integers on the way fit. -/
def bilinearChecked (g : Grid χ) (p : Point κ) : Option (Rgba χ) :=
  if !Scalar.finite p.x || !Scalar.finite p.y then some Rgba.transparent
  else do
    let (x, dx) := split (p.x - Scalar.half)
    let (y, dy) := split (p.y - Scalar.half)
    let tx : χ := Narrow.narrow dx
    let ty : χ := Narrow.narrow dy
    let left ← int64? x
    let upper ← int64? y
    let right ← int64? (left + 1)
    let lower ← int64? (upper + 1)
    let top := Rgba.lerp (← g.texelChecked left upper) (← g.texelChecked right upper) tx
    let bottom := Rgba.lerp (← g.texelChecked left lower) (← g.texelChecked right lower) tx
    return Rgba.lerp top bottom ty

variable {g : Grid χ} {p : Point κ} {x y : Int}

theorem int64?_eq_some (range : -2 ^ 63 ≤ x ∧ x < 2 ^ 63) : int64? x = some x := if_pos range

theorem int64?_eq_none (great : 2 ^ 63 ≤ x) : int64? x = none := if_neg (by omega)

/-- Whatever passes the comparisons with the size is in the array. -/
theorem texelChecked_eq (wide : g.width < 2 ^ 32) (high : g.height < 2 ^ 32) (x y : Int) :
    g.texelChecked x y = some (g.texel x y) := by
  unfold texelChecked
  split
  next outside => rw [texel_outside outside]
  next inside =>
    obtain ⟨i, rfl⟩ : ∃ i : Nat, x = i := ⟨x.toNat, by omega⟩
    obtain ⟨j, rfl⟩ : ∃ j : Nat, y = j := ⟨y.toNat, by omega⟩
    have column : i < g.width := by omega
    have row : j < g.height := by omega
    have place := place_lt column row
    have area : g.width * g.height < 2 ^ 32 * 2 ^ 32 := Nat.mul_lt_mul'' wide high
    simp only [Int.toNat_natCast, size64?]
    rw [if_pos (by omega), Option.bind_eq_bind, Option.bind_some, if_pos (by omega),
      Option.bind_some]
    exact getElem?_texels column row

omit [Narrow κ χ] in
theorem nearestChecked_eq (wide : g.width < 2 ^ 32) (high : g.height < 2 ^ 32)
    (column : -2 ^ 63 ≤ Scalar.floor p.x ∧ Scalar.floor p.x < 2 ^ 63)
    (row : -2 ^ 63 ≤ Scalar.floor p.y ∧ Scalar.floor p.y < 2 ^ 63) :
    g.nearestChecked p = some (g.nearest p) := by
  unfold nearestChecked nearest
  split
  · rfl
  · rw [int64?_eq_some column, int64?_eq_some row]
    exact texelChecked_eq wide high ..

theorem bilinearChecked_eq (wide : g.width < 2 ^ 32) (high : g.height < 2 ^ 32)
    (column : -2 ^ 63 ≤ Scalar.floor (p.x - Scalar.half) ∧
      Scalar.floor (p.x - Scalar.half) + 1 < 2 ^ 63)
    (row : -2 ^ 63 ≤ Scalar.floor (p.y - Scalar.half) ∧
      Scalar.floor (p.y - Scalar.half) + 1 < 2 ^ 63) :
    g.bilinearChecked p = some (g.bilinear p) := by
  unfold bilinearChecked bilinear
  split
  · rfl
  · simp only [split]
    rw [int64?_eq_some ⟨column.1, by omega⟩, Option.bind_eq_bind, Option.bind_some,
      int64?_eq_some ⟨row.1, by omega⟩, Option.bind_some,
      int64?_eq_some ⟨by omega, column.2⟩, Option.bind_some,
      int64?_eq_some ⟨by omega, row.2⟩, Option.bind_some]
    simp only [texelChecked_eq wide high]
    rfl

/-- A neighbour that does not fit ends checked sampling. -/
theorem bilinearChecked_eq_none (finite : p.Finite)
    (column : -2 ^ 63 ≤ Scalar.floor (p.x - Scalar.half) ∧
      Scalar.floor (p.x - Scalar.half) < 2 ^ 63)
    (row : -2 ^ 63 ≤ Scalar.floor (p.y - Scalar.half) ∧
      Scalar.floor (p.y - Scalar.half) < 2 ^ 63)
    (far : 2 ^ 63 ≤ Scalar.floor (p.x - Scalar.half) + 1 ∨
      2 ^ 63 ≤ Scalar.floor (p.y - Scalar.half) + 1) : g.bilinearChecked p = none := by
  unfold bilinearChecked
  rw [finite.1, finite.2, Bool.not_true, Bool.or_self, if_neg Bool.false_ne_true]
  simp only [split]
  rw [int64?_eq_some column, Option.bind_eq_bind, Option.bind_some, int64?_eq_some row,
    Option.bind_some]
  rcases far with far | far
  · rw [int64?_eq_none far]
    rfl
  · rw [int64?_eq_none far]
    cases int64? (Scalar.floor (p.x - Scalar.half) + 1) <;> rfl

end

/-! ## Outside -/

/-- No texel has a channel that is infinite, NaN or almost as great as can be. -/
def Mild (g : Grid Float32) : Prop := ∀ c ∈ g.texels, c.Each Moderate

theorem Mild.texel {g : Grid Float32} (h : g.Mild) (x y : Int) : (g.texel x y).Each Moderate := by
  have transparent : (Rgba.transparent : Rgba Float32).Each Moderate :=
    ⟨moderate_zero, moderate_zero, moderate_zero, moderate_zero⟩
  rw [Grid.texel]
  split
  · exact transparent
  · rw [Array.getD_eq_getD_getElem?]
    cases there : g.texels[y.toNat * g.width + x.toNat]? with
    | none => exact transparent
    | some c => exact h c (Array.mem_of_getElem? there)

/-- What is above the floor is a weight, and for `-1` it is none. -/
theorem share_above_floor {x : Float} (finite : Scalar.finite x = true) :
    Share (Binary.narrow (x - Scalar.whole x)) ∧
      (denoted x = -1 → Null (Binary.narrow (x - Scalar.whole x))) := by
  obtain ⟨finite', low, high, whole⟩ := above_floor finite
  obtain ⟨proper, small, zero⟩ := narrow_share finite' low high
  refine ⟨⟨proper, small⟩, fun minus_one => zero (whole ?_)⟩
  have : (-1 : ℚ) = ((-1 : Int) : ℚ) := by norm_num
  rw [minus_one, this, Int.floor_intCast]

/-- Four neighbours that are blended: their first column and row, and the weights of the others. -/
theorem bilinear_of_split {g : Grid Float32} {p : Point Float} {x y : Int} {tx ty : Float32}
    (finite : p.Finite)
    (column : Scalar.floor (p.x - Scalar.half) = x) (row : Scalar.floor (p.y - Scalar.half) = y)
    (right : Binary.narrow (p.x - Scalar.half - Scalar.whole (p.x - Scalar.half)) = tx)
    (lower : Binary.narrow (p.y - Scalar.half - Scalar.whole (p.y - Scalar.half)) = ty) :
    g.bilinear p = Rgba.lerp (Rgba.lerp (g.texel x y) (g.texel (x + 1) y) tx)
      (Rgba.lerp (g.texel x (y + 1)) (g.texel (x + 1) (y + 1)) tx) ty := by
  subst column row right lower
  rw [bilinear, finite.1, finite.2]
  rfl

section

variable {g : Grid Float32} {p : Point Float}

theorem nearest_outside (columns : g.width < 2 ^ 53) (rows : g.height < 2 ^ 53)
    (finite : p.Finite)
    (apart : Apart 0 g.width p.x ∨ Apart 0 g.height p.y) : g.nearest p = .transparent := by
  have outside {x : Float} {n : Nat} (few : n < 2 ^ 53) (finite : Scalar.finite x = true)
      (apart : Apart 0 n x) : Scalar.floor x < 0 ∨ (n : Int) ≤ Scalar.floor x := by
    rcases apart with before | behind
    · exact .inl (floor_lt finite (by decide) (by simpa using before))
    · exact .inr (le_floor finite (by omega) (by push_cast; linarith))
  rw [nearest, finite.1, finite.2]
  refine texel_outside ?_
  rcases apart with apart | apart
  · have := outside columns finite.1 apart
    omega
  · have := outside rows finite.2 apart
    omega

/-- Beside the columns nothing shows, unless a texel that should not count spoils it. -/
theorem bilinear_beside (columns : g.width < 2 ^ 53)
    (finite : p.Finite)
    (apart : Apart (1 / 2) g.width p.x) (fair : denoted (p.x - Scalar.half) ≠ -1 ∨ g.Mild) :
    g.bilinear p = .transparent := by
  have finite_x := (shifted finite.1).1
  obtain ⟨right, no_right⟩ := share_above_floor finite_x
  obtain ⟨lower, -⟩ := share_above_floor (shifted finite.2).1
  rw [bilinear_of_split finite rfl rfl rfl rfl]
  have clear (y : Int) : Rgba.lerp (g.texel (Scalar.floor (p.x - Scalar.half)) y)
      (g.texel (Scalar.floor (p.x - Scalar.half) + 1) y)
      (Binary.narrow (p.x - Scalar.half - Scalar.whole (p.x - Scalar.half))) = .transparent := by
    rcases floor_shifted_outside columns finite.1 apart with minus_one | outside
    · have column : Scalar.floor (p.x - Scalar.half) < 0 :=
        floor_lt finite_x (by decide) (by rw [minus_one]; norm_num)
      have mild := fair.resolve_left (not_not.2 minus_one)
      rw [texel_outside (.inl column)]
      exact lerp_weightless ((mild.texel _ _).imp fun _ h => h.proper.1) right (no_right minus_one)
    · rw [texel_outside (by omega), texel_outside (by omega)]
      exact lerp_transparent_share right
  rw [clear, clear]
  exact lerp_transparent_share lower

/-- Nor does anything above or below the rows. -/
theorem bilinear_above (rows : g.height < 2 ^ 53)
    (finite : p.Finite)
    (apart : Apart (1 / 2) g.height p.y) (fair : denoted (p.y - Scalar.half) ≠ -1 ∨ g.Mild) :
    g.bilinear p = .transparent := by
  have finite_y := (shifted finite.2).1
  obtain ⟨right, -⟩ := share_above_floor (shifted finite.1).1
  obtain ⟨lower, no_lower⟩ := share_above_floor finite_y
  rw [bilinear_of_split finite rfl rfl rfl rfl]
  rcases floor_shifted_outside rows finite.2 apart with minus_one | outside
  · have row : Scalar.floor (p.y - Scalar.half) < 0 :=
      floor_lt finite_y (by decide) (by rw [minus_one]; norm_num)
    have mild := fair.resolve_left (not_not.2 minus_one)
    rw [texel_outside (.inr (.inl row)), texel_outside (.inr (.inl row)),
      lerp_transparent_share right]
    exact lerp_weightless (lerp_proper (mild.texel _ _) (mild.texel _ _) right) lower
      (no_lower minus_one)
  · rw [texel_outside (by omega), texel_outside (by omega), texel_outside (by omega),
      texel_outside (by omega), lerp_transparent_share right]
    exact lerp_transparent_share lower

end

/-- Coordinates behind the 64-bit range are far from every grid. -/
theorem apart_of_far {x : Float} {n : Nat} (few : n < 2 ^ 32) (finite : Scalar.finite x = true)
    (far : 2 ^ 63 ≤ denoted x) : Apart (1 / 2) n x ∧ denoted (x - Scalar.half) ≠ -1 := by
  refine ⟨.inr ?_, fun minus_one => ?_⟩
  · have count : (n : ℚ) ≤ 2 ^ 32 := by exact_mod_cast few.le
    linarith
  · have last := floor_shifted_eq finite far
    have first := @floor_lt _ 0 (shifted finite).1 (by decide) (by rw [minus_one]; norm_num)
    omega

/-- What sampling does at points with finite coordinates. -/
structure SampledSafely (g : Grid Float32) : Prop where
  /-- The nearest texel is found with integers of 64 bits only, within the array. -/
  nearest : ∀ p : Point Float, p.Finite → g.nearestChecked p = some (g.nearest p)
  /-- So are the four that are blended, below the end of the 64-bit range. -/
  bilinear : ∀ p : Point Float, p.Finite →
    denoted p.x < 2 ^ 63 ∧ denoted p.y < 2 ^ 63 → g.bilinearChecked p = some (g.bilinear p)
  /-- From there on the next column or row does not fit, but nothing shows there anyway. -/
  overflow : ∀ p : Point Float, p.Finite →
    2 ^ 63 ≤ denoted p.x ∨ 2 ^ 63 ≤ denoted p.y →
      g.bilinearChecked p = none ∧ g.bilinear p = .transparent
  /-- No texel is nearest to a point outside. -/
  outside : ∀ p : Point Float, p.Finite →
    Apart 0 g.width p.x ∨ Apart 0 g.height p.y → g.nearest p = .transparent
  /-- Blends are transparent more than half a unit outside. Only where rounding takes a coordinate
      for one that is just half a unit outside this needs mild texels. -/
  faded : ∀ p : Point Float, p.Finite →
    (Apart (1 / 2) g.width p.x ∧ (denoted (p.x - Scalar.half) ≠ -1 ∨ g.Mild)) ∨
      (Apart (1 / 2) g.height p.y ∧ (denoted (p.y - Scalar.half) ≠ -1 ∨ g.Mild)) →
    g.bilinear p = .transparent

theorem sampledSafely (g : Grid Float32) (wide : g.width < 2 ^ 32) (high : g.height < 2 ^ 32) :
    g.SampledSafely where
  nearest p finite := nearestChecked_eq wide high (floor_range finite.1) (floor_range finite.2)
  bilinear p finite below := by
    obtain ⟨least_x, -⟩ := floor_range (shifted finite.1).1
    obtain ⟨least_y, -⟩ := floor_range (shifted finite.2).1
    exact bilinearChecked_eq wide high ⟨least_x, floor_shifted_lt finite.1 below.1⟩
      ⟨least_y, floor_shifted_lt finite.2 below.2⟩
  overflow p finite far := by
    have next : 2 ^ 63 ≤ Scalar.floor (p.x - Scalar.half) + 1 ∨
        2 ^ 63 ≤ Scalar.floor (p.y - Scalar.half) + 1 :=
      far.imp (fun far => (floor_shifted_eq finite.1 far).ge)
        fun far => (floor_shifted_eq finite.2 far).ge
    refine ⟨bilinearChecked_eq_none finite (floor_range (shifted finite.1).1)
      (floor_range (shifted finite.2).1) next, ?_⟩
    rcases far with far | far
    · obtain ⟨apart, fair⟩ := apart_of_far wide finite.1 far
      exact bilinear_beside (by omega) finite apart (.inl fair)
    · obtain ⟨apart, fair⟩ := apart_of_far high finite.2 far
      exact bilinear_above (by omega) finite apart (.inl fair)
  outside p finite apart := nearest_outside (by omega) (by omega) finite apart
  faded p finite apart := by
    rcases apart with ⟨apart, fair⟩ | ⟨apart, fair⟩
    · exact bilinear_beside (by omega) finite apart fair
    · exact bilinear_above (by omega) finite apart fair

/-- One texel that is infinitely red. -/
def glaring : Grid Float32 := ⟨1, 1, #[⟨1 / 0, 0, 0, 1⟩], rfl⟩

/-- The check fails at the end of the 64-bit range. And a point that is more than half a unit
    outside by as little as coordinates can tell is seen in a colour that is not a number. -/
theorem glaring_sampledSafely : glaring.SampledSafely ∧
    glaring.bilinearChecked (⟨9223372036854775808, 0⟩ : Point Float) = none ∧
    (Scalar.isNaN (glaring.bilinear (⟨-0.5000000000000001, 0.5⟩ : Point Float)).r = true ∧
      denoted (-0.5000000000000001) < -(1 / 2)) := by
  refine ⟨sampledSafely glaring (by decide) (by decide), ?_, ?_, ?_⟩
  · decide +kernel
  · decide +kernel
  · have read : Binary.ofFloat (-0.5000000000000001) = .finite true 4503599627370497 (-53) := by
      decide +kernel
    rw [denoted, read]
    norm_num [Binary.value]

end Pixel.Grid

end PixelKernel
