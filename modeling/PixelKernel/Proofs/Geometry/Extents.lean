import PixelKernel.Geometry.Rect
import PixelKernel.Proofs.Number.Order

/-! # Extents with rounded corners

Extents are intersected and united edge by edge. Whether one stands for the whole plane depends on
its rounded width and height. Rounding keeps the order, so no part of an extent is wider than the
extent, and nothing around it is narrower.
-/

namespace PixelKernel

/-! ## Spans -/

section

variable {a a' b b' d p : Float}

theorem level_reach : Ordered (Rect.reach : Float) ∧ 0 < level Rect.reach := by
  obtain ⟨-, reach, positive⟩ :=
    less_iff_level.1 (show Scalar.less (Scalar.zero : Float) Rect.reach = true by decide +kernel)
  exact ⟨reach, level_zero.2 ▸ positive⟩

theorem ordered_min (ha : Ordered a) (hb : Ordered b) : Ordered (Scalar.min a b) := by
  rcases min_or ha hb with eq | eq <;> rwa [eq]

theorem ordered_max (ha : Ordered a) (hb : Ordered b) : Ordered (Scalar.max a b) := by
  rcases max_or ha hb with eq | eq <;> rwa [eq]

theorem finite_min (ha : Scalar.finite a = true) (hb : Scalar.finite b = true) :
    Scalar.finite (Scalar.min a b) = true := by
  rcases min_or (ordered_of_finite ha) (ordered_of_finite hb) with eq | eq <;> rwa [eq]

theorem finite_max (ha : Scalar.finite a = true) (hb : Scalar.finite b = true) :
    Scalar.finite (Scalar.max a b) = true := by
  rcases max_or (ordered_of_finite ha) (ordered_of_finite hb) with eq | eq <;> rwa [eq]

/-- The common part of two spans; it may be empty, but its ends do not cross. -/
def meetSpan (a a' b b' : Float) : Float × Float :=
  (Scalar.max a b, Scalar.max (Scalar.min a' b') (Scalar.max a b))

section

variable (ha : Scalar.finite a = true) (ha' : Scalar.finite a' = true)
  (hb : Scalar.finite b = true) (hb' : Scalar.finite b' = true)

include ha ha' hb hb'

theorem finite_meetSpan : Scalar.finite (meetSpan a a' b b').1 = true ∧
    Scalar.finite (meetSpan a a' b b').2 = true :=
  ⟨finite_max ha hb, finite_max (finite_min ha' hb') (finite_max ha hb)⟩

theorem level_meetSpan : level (meetSpan a a' b b').1 = max (level a) (level b) ∧
    level (meetSpan a a' b b').2 = max (min (level a') (level b')) (max (level a) (level b)) := by
  have oa := ordered_of_finite ha
  have oa' := ordered_of_finite ha'
  have ob := ordered_of_finite hb
  have ob' := ordered_of_finite hb'
  refine ⟨level_max oa ob, ?_⟩
  rw [meetSpan, level_max (ordered_min oa' ob') (ordered_max oa ob), level_min oa' ob',
    level_max oa ob]

/-- A coordinate is in the common part if it is in both spans. -/
theorem within_meetSpan_iff :
    (Scalar.atMost (meetSpan a a' b b').1 p && Scalar.less p (meetSpan a a' b b').2) = true ↔
      (Scalar.atMost a p && Scalar.less p a') = true ∧
        (Scalar.atMost b p && Scalar.less p b') = true := by
  obtain ⟨low, high⟩ := level_meetSpan ha ha' hb hb'
  obtain ⟨first, last⟩ := finite_meetSpan ha ha' hb hb'
  simp only [Bool.and_eq_true, atMost_iff_level, less_iff_level, low, high, ordered_of_finite,
    first, last, ha, ha', hb, hb', true_and, max_le_iff, lt_max_iff, lt_min_iff]
  constructor
  · rintro ⟨⟨hp, left, left'⟩, -, ⟨right, right'⟩ | crossed | crossed⟩
    · exact ⟨⟨⟨hp, left⟩, hp, right⟩, ⟨hp, left'⟩, hp, right'⟩
    · exact absurd crossed (not_lt.2 left)
    · exact absurd crossed (not_lt.2 left')
  · rintro ⟨⟨⟨hp, left⟩, -, right⟩, ⟨-, left'⟩, -, right'⟩
    exact ⟨⟨hp, left, left'⟩, hp, .inl ⟨right, right'⟩⟩

theorem upright_meetSpan :
    Scalar.atMost (meetSpan a a' b b').1 (meetSpan a a' b b').2 = true := by
  obtain ⟨low, high⟩ := level_meetSpan ha ha' hb hb'
  obtain ⟨first, last⟩ := finite_meetSpan ha ha' hb hb'
  exact atMost_iff_level.2 ⟨ordered_of_finite first, ordered_of_finite last,
    low ▸ high ▸ le_max_right _ _⟩

/-- The common part is not longer than the first span. -/
theorem short_meetSpan (short : Scalar.atMost Rect.reach (a' - a) = false) :
    Scalar.atMost Rect.reach ((meetSpan a a' b b').2 - (meetSpan a a' b b').1) = false := by
  obtain ⟨low, high⟩ := level_meetSpan ha ha' hb hb'
  obtain ⟨first, last⟩ := finite_meetSpan ha ha' hb hb'
  obtain ⟨reach, positive⟩ := level_reach
  rw [← Bool.not_eq_true, atMost_iff_level] at short ⊢
  rintro ⟨-, -, long⟩
  rcases le_total (min (level a') (level b')) (max (level a) (level b)) with crossed | regular
  · -- the ends meet
    have none_ := level_sub_self first
    have same := alike_of_level (ordered_of_finite last) (ordered_of_finite first)
      (by rw [low, high, max_eq_right crossed])
    rw [(same.sub (.refl _)).level, none_] at long
    exact absurd positive (not_lt.2 long)
  · refine short ⟨reach, ordered_sub ha' (ordered_of_finite ha), long.trans ?_⟩
    refine level_sub_le last ha' (ordered_of_finite first) (ordered_of_finite ha) ?_ ?_
    · rw [high, max_eq_left regular]
      exact min_le_left _ _
    · rw [low]
      exact le_max_left _ _

end

end

namespace Rect

variable {a b r : Rect Float} {p : Point Float}

/-! ## Intersections -/

/-- What a rectangle stands for as an extent: the whole plane if it is wide or high enough. -/
def Shows (r : Rect Float) (p : Point Float) : Prop := r.isInfinite = true ∨ r.contains p = true

/-- A rectangle that stands for the whole plane also covers it. -/
def Sincere (r : Rect Float) : Prop :=
  r.isInfinite = true → ∀ p, plane.contains p = true → r.contains p = true

/-- The edges do not cross. -/
def Upright (r : Rect Float) : Prop :=
  Scalar.atMost r.x0 r.x1 = true ∧ Scalar.atMost r.y0 r.y1 = true

theorem isFinite_iff : r.isFinite = true ↔
    (Scalar.finite r.x0 = true ∧ Scalar.finite r.x1 = true) ∧
      Scalar.finite r.y0 = true ∧ Scalar.finite r.y1 = true := by
  simp only [isFinite, Bool.and_eq_true]
  tauto

theorem isInfinite_eq_false : r.isInfinite = false ↔
    Scalar.atMost reach (r.x1 - r.x0) = false ∧ Scalar.atMost reach (r.y1 - r.y0) = false :=
  Bool.or_eq_false_iff

theorem contains_iff : r.contains p = true ↔
    (Scalar.atMost r.x0 p.x && Scalar.less p.x r.x1) = true ∧
      (Scalar.atMost r.y0 p.y && Scalar.less p.y r.y1) = true := by
  rw [contains, Bool.and_assoc, Bool.and_eq_true]

/-- The common spans of two rectangles. -/
def meet (a b : Rect Float) : Rect Float :=
  ⟨(meetSpan a.x0 a.x1 b.x0 b.x1).1, (meetSpan a.y0 a.y1 b.y0 b.y1).1,
    (meetSpan a.x0 a.x1 b.x0 b.x1).2, (meetSpan a.y0 a.y1 b.y0 b.y1).2⟩

section

variable (ha : a.isFinite = true) (hb : b.isFinite = true)

include ha hb

theorem isFinite_meet : (meet a b).isFinite = true := by
  obtain ⟨⟨x0, x1⟩, y0, y1⟩ := isFinite_iff.1 ha
  obtain ⟨⟨x0', x1'⟩, y0', y1'⟩ := isFinite_iff.1 hb
  exact isFinite_iff.2 ⟨finite_meetSpan x0 x1 x0' x1', finite_meetSpan y0 y1 y0' y1'⟩

theorem upright_meet : (meet a b).Upright := by
  obtain ⟨⟨x0, x1⟩, y0, y1⟩ := isFinite_iff.1 ha
  obtain ⟨⟨x0', x1'⟩, y0', y1'⟩ := isFinite_iff.1 hb
  exact ⟨upright_meetSpan x0 x1 x0' x1', upright_meetSpan y0 y1 y0' y1'⟩

theorem contains_meet :
    (meet a b).contains p = true ↔ a.contains p = true ∧ b.contains p = true := by
  obtain ⟨⟨x0, x1⟩, y0, y1⟩ := isFinite_iff.1 ha
  obtain ⟨⟨x0', x1'⟩, y0', y1'⟩ := isFinite_iff.1 hb
  rw [contains_iff, contains_iff, contains_iff, meet, within_meetSpan_iff x0 x1 x0' x1',
    within_meetSpan_iff y0 y1 y0' y1']
  tauto

theorem isInfinite_meet (finite : a.isInfinite = false) : (meet a b).isInfinite = false := by
  obtain ⟨⟨x0, x1⟩, y0, y1⟩ := isFinite_iff.1 ha
  obtain ⟨⟨x0', x1'⟩, y0', y1'⟩ := isFinite_iff.1 hb
  obtain ⟨short, low⟩ := isInfinite_eq_false.1 finite
  exact isInfinite_eq_false.2 ⟨short_meetSpan x0 x1 x0' x1' short,
    short_meetSpan y0 y1 y0' y1' low⟩

end

/-- Two extents have in common one of them, if the other one stands for the plane, or else the
    common spans. -/
theorem intersect_cases (a b : Rect Float) :
    a.isInfinite = true ∧ a.intersect b = b ∨
      a.isInfinite = false ∧ b.isInfinite = true ∧ a.intersect b = a ∨
        a.isInfinite = false ∧ b.isInfinite = false ∧ a.intersect b = meet a b := by
  cases ha : a.isInfinite
  · have first : ¬ a.isInfinite = true := Bool.eq_false_iff.1 ha
    cases hb : b.isInfinite
    · have second : ¬ b.isInfinite = true := Bool.eq_false_iff.1 hb
      exact .inr (.inr ⟨rfl, rfl, (if_neg first).trans (if_neg second)⟩)
    · exact .inr (.inl ⟨rfl, rfl, (if_neg first).trans (if_pos hb)⟩)
  · exact .inl ⟨rfl, if_pos ha⟩

section

variable (ha : a.isFinite = true) (hb : b.isFinite = true)

include ha hb

theorem isFinite_intersect : (a.intersect b).isFinite = true := by
  obtain ⟨-, eq⟩ | ⟨-, -, eq⟩ | ⟨-, -, eq⟩ := intersect_cases a b
  · rw [eq]
    exact hb
  · rw [eq]
    exact ha
  · rw [eq]
    exact isFinite_meet ha hb

/-- What two extents have in common stands for the plane only if both do. -/
theorem isInfinite_intersect :
    (a.intersect b).isInfinite = true ↔ a.isInfinite = true ∧ b.isInfinite = true := by
  obtain ⟨infinite, eq⟩ | ⟨finite, infinite, eq⟩ | ⟨finite, -, eq⟩ := intersect_cases a b
  · simp only [eq, infinite, true_and]
  · simp only [eq, infinite, and_true]
  · simp only [eq, finite, isInfinite_meet ha hb finite, Bool.false_eq_true, false_and]

/-- Read as extents, rectangles are intersected point by point. -/
theorem shows_intersect : (a.intersect b).Shows p ↔ a.Shows p ∧ b.Shows p := by
  unfold Shows
  obtain ⟨infinite, eq⟩ | ⟨finite, infinite, eq⟩ | ⟨finite, finite', eq⟩ := intersect_cases a b
  · simp only [eq, infinite, true_or, true_and]
  · simp only [eq, infinite, true_or, and_true]
  · simp only [eq, finite, finite', isInfinite_meet ha hb finite, contains_meet ha hb,
      Bool.false_eq_true, false_or]

theorem Sincere.intersect (h : b.Sincere) : (a.intersect b).Sincere :=
  fun infinite p inside => by
    obtain ⟨first, second⟩ := (isInfinite_intersect ha hb).1 infinite
    have eq : a.intersect b = b := if_pos first
    rw [eq]
    exact h second p inside

theorem Upright.intersect (h : a.Upright) (h' : b.Upright) : (a.intersect b).Upright := by
  obtain ⟨-, eq⟩ | ⟨-, -, eq⟩ | ⟨-, -, eq⟩ := intersect_cases a b
  · rw [eq]
    exact h'
  · rw [eq]
    exact h
  · rw [eq]
    exact upright_meet ha hb

end

theorem Sincere.contains_iff_shows (h : a.Sincere) (inside : plane.contains p = true) :
    a.contains p = true ↔ a.Shows p :=
  ⟨.inr, fun shows => shows.elim (h · p inside) id⟩

/-! ## Unions -/

/-- Equal, but for the signs of zeros. -/
structure Alike (a b : Rect Float) : Prop where
  left : PixelKernel.Alike a.x0 b.x0
  top : PixelKernel.Alike a.y0 b.y0
  right : PixelKernel.Alike a.x1 b.x1
  bottom : PixelKernel.Alike a.y1 b.y1

/-- No edge of the second rectangle is beyond the edge of the first one. -/
structure Encloses (r a : Rect Float) : Prop where
  left : Scalar.atMost r.x0 a.x0 = true
  top : Scalar.atMost r.y0 a.y0 = true
  right : Scalar.atMost a.x1 r.x1 = true
  bottom : Scalar.atMost a.y1 r.y1 = true

/-- The smallest rectangle around the rectangles of a list that are not empty. -/
structure Spans (r : Rect Float) (l : List (Rect Float)) : Prop where
  encloses : ∀ a ∈ l, a.isEmpty = false → r.Encloses a
  left : ∃ a ∈ l, a.isEmpty = false ∧ r.x0 = a.x0
  top : ∃ a ∈ l, a.isEmpty = false ∧ r.y0 = a.y0
  right : ∃ a ∈ l, a.isEmpty = false ∧ r.x1 = a.x1
  bottom : ∃ a ∈ l, a.isEmpty = false ∧ r.y1 = a.y1

theorem Alike.refl (a : Rect Float) : a.Alike a := ⟨.refl _, .refl _, .refl _, .refl _⟩

theorem Alike.symm (h : a.Alike b) : b.Alike a :=
  ⟨h.left.symm, h.top.symm, h.right.symm, h.bottom.symm⟩

theorem Alike.trans (h : a.Alike b) (h' : b.Alike r) : a.Alike r :=
  ⟨h.left.trans h'.left, h.top.trans h'.top, h.right.trans h'.right, h.bottom.trans h'.bottom⟩

theorem Alike.isInfinite (h : a.Alike b) : a.isInfinite = b.isInfinite := by
  have reach := PixelKernel.Alike.refl Rect.reach
  rw [Rect.isInfinite, Rect.isInfinite, width, width, height, height,
    reach.atMost (h.right.sub h.left), reach.atMost (h.bottom.sub h.top)]

theorem isEmpty_eq_false : r.isEmpty = false ↔ Scalar.less Scalar.zero (r.x1 - r.x0) = true ∧
    Scalar.less Scalar.zero (r.y1 - r.y0) = true := by
  rw [isEmpty, Bool.not_eq_false', Bool.and_eq_true]
  rfl

section

variable {x y : Float}

theorem finite_of_short (long : Scalar.less Scalar.zero (x - y) = true)
    (short : Scalar.atMost reach (x - y) = false) :
    Scalar.finite x = true ∧ Scalar.finite y = true := by
  obtain ⟨-, number, above⟩ := less_iff_level.1 long
  obtain ⟨reach, positive⟩ := level_reach
  have below : level (x - y) < level Rect.reach := by
    rw [← Bool.not_eq_true, atMost_iff_level] at short
    exact not_le.1 fun le => short ⟨reach, number, le⟩
  have most := (abs_le.1 (read_float (Rect.reach : Float)).abs_rank_le).2
  rw [level_zero.2] at above
  refine finite_of_sub number ?_
  rw [abs_of_pos above]
  exact below.trans_le most

theorem level_le_of_long (hx : Scalar.finite x = true) (hy : Scalar.finite y = true)
    (long : Scalar.less Scalar.zero (x - y) = true) : level y ≤ level x := by
  obtain ⟨-, -, above⟩ := less_iff_level.1 long
  by_contra crossed
  have oy := ordered_of_finite hy
  have below := level_sub_le hx hy oy oy (not_le.1 crossed).le le_rfl
  rw [level_sub_self hy] at below
  rw [level_zero.2] at above
  exact absurd above (not_lt.2 below)

end

/-- A rectangle that covers an area and does not stand for the plane has finite corners. -/
theorem isFinite_of_solid (solid : a.isEmpty = false) (finite : a.isInfinite = false) :
    a.isFinite = true := by
  obtain ⟨wide, high⟩ := isEmpty_eq_false.1 solid
  obtain ⟨narrow, low⟩ := isInfinite_eq_false.1 finite
  exact isFinite_iff.2 ⟨(finite_of_short wide narrow).symm, (finite_of_short high low).symm⟩

/-- What is around a rectangle is not narrower and not lower. -/
theorem Encloses.level_le (h : r.Encloses a) (finite : r.isFinite = true)
    (finite' : a.isFinite = true) : level (a.x1 - a.x0) ≤ level (r.x1 - r.x0) ∧
      level (a.y1 - a.y0) ≤ level (r.y1 - r.y0) := by
  obtain ⟨⟨x0, x1⟩, y0, y1⟩ := isFinite_iff.1 finite
  obtain ⟨⟨x0', x1'⟩, y0', y1'⟩ := isFinite_iff.1 finite'
  obtain ⟨ox, ox', left⟩ := atMost_iff_level.1 h.left
  obtain ⟨oy, oy', top⟩ := atMost_iff_level.1 h.top
  exact ⟨level_sub_le x1' x1 ox' ox (atMost_iff_level.1 h.right).2.2 left,
    level_sub_le y1' y1 oy' oy (atMost_iff_level.1 h.bottom).2.2 top⟩

theorem Encloses.isInfinite (h : r.Encloses a) (finite : r.isFinite = true)
    (finite' : a.isFinite = true) (infinite : a.isInfinite = true) : r.isInfinite = true := by
  obtain ⟨wide, high⟩ := h.level_le finite finite'
  obtain ⟨⟨x0, x1⟩, y0, y1⟩ := isFinite_iff.1 finite
  rw [Rect.isInfinite, Bool.or_eq_true, atMost_iff_level, atMost_iff_level] at infinite ⊢
  exact infinite.imp (fun ⟨o, _, le⟩ => ⟨o, ordered_sub x1 (ordered_of_finite x0), le.trans wide⟩)
    fun ⟨o, _, le⟩ => ⟨o, ordered_sub y1 (ordered_of_finite y0), le.trans high⟩

theorem Encloses.isEmpty (h : r.Encloses a) (finite : r.isFinite = true)
    (finite' : a.isFinite = true) (solid : a.isEmpty = false) : r.isEmpty = false := by
  obtain ⟨wide, high⟩ := h.level_le finite finite'
  obtain ⟨⟨x0, x1⟩, y0, y1⟩ := isFinite_iff.1 finite
  rw [isEmpty_eq_false, less_iff_level, less_iff_level] at solid ⊢
  obtain ⟨⟨o, _, lt⟩, _, _, lt'⟩ := solid
  exact ⟨⟨o, ordered_sub x1 (ordered_of_finite x0), lt.trans_le wide⟩, o,
    ordered_sub y1 (ordered_of_finite y0), lt'.trans_le high⟩

section

variable {l l' : List (Rect Float)}

theorem alike_of_atMost {x y : Float} (h : Scalar.atMost x y = true)
    (h' : Scalar.atMost y x = true) : PixelKernel.Alike x y := by
  obtain ⟨hx, hy, le⟩ := atMost_iff_level.1 h
  exact alike_of_level hx hy (le_antisymm le (atMost_iff_level.1 h').2.2)

/-- The smallest rectangle depends only on which rectangles are not empty. -/
theorem Spans.alike (h : a.Spans l) (h' : b.Spans l')
    (same : ∀ r, r.isEmpty = false → (r ∈ l ↔ r ∈ l')) : a.Alike b := by
  obtain ⟨left, hl, sl, el⟩ := h.left
  obtain ⟨left', hl', sl', el'⟩ := h'.left
  obtain ⟨top, ht, st, et⟩ := h.top
  obtain ⟨top', ht', st', et'⟩ := h'.top
  obtain ⟨right, hr, sr, er⟩ := h.right
  obtain ⟨right', hr', sr', er'⟩ := h'.right
  obtain ⟨bottom, hb, sb, eb⟩ := h.bottom
  obtain ⟨bottom', hb', sb', eb'⟩ := h'.bottom
  exact ⟨alike_of_atMost (el' ▸ (h.encloses _ ((same _ sl').2 hl') sl').left)
      (el ▸ (h'.encloses _ ((same _ sl).1 hl) sl).left),
    alike_of_atMost (et' ▸ (h.encloses _ ((same _ st').2 ht') st').top)
      (et ▸ (h'.encloses _ ((same _ st).1 ht) st).top),
    alike_of_atMost (er ▸ (h'.encloses _ ((same _ sr).1 hr) sr).right)
      (er' ▸ (h.encloses _ ((same _ sr').2 hr') sr').right),
    alike_of_atMost (eb ▸ (h'.encloses _ ((same _ sb).1 hb) sb).bottom)
      (eb' ▸ (h.encloses _ ((same _ sb').2 hb') sb').bottom)⟩

/-- Its corners are those of rectangles that do not stand for the plane, if none does. -/
theorem Spans.isFinite (h : r.Spans l) (finite : ∀ a ∈ l, a.isInfinite = false) :
    r.isFinite = true := by
  obtain ⟨left, hl, sl, el⟩ := h.left
  obtain ⟨top, ht, st, et⟩ := h.top
  obtain ⟨right, hr, sr, er⟩ := h.right
  obtain ⟨bottom, hb, sb, eb⟩ := h.bottom
  have corners {a} (there : a ∈ l) (solid : a.isEmpty = false) :=
    isFinite_iff.1 (isFinite_of_solid solid (finite a there))
  exact isFinite_iff.2 ⟨⟨el ▸ (corners hl sl).1.1, er ▸ (corners hr sr).1.2⟩,
    et ▸ (corners ht st).2.1, eb ▸ (corners hb sb).2.2⟩

theorem Spans.isEmpty (h : r.Spans l) (finite : ∀ a ∈ l, a.isInfinite = false) :
    r.isEmpty = false := by
  obtain ⟨a, there, solid, -⟩ := h.left
  exact (h.encloses a there solid).isEmpty (h.isFinite finite)
    (isFinite_of_solid solid (finite a there)) solid

theorem Encloses.refl (finite : a.isFinite = true) : a.Encloses a := by
  obtain ⟨⟨x0, x1⟩, y0, y1⟩ := isFinite_iff.1 finite
  have self {x : Float} (h : Scalar.finite x = true) : Scalar.atMost x x = true :=
    atMost_iff_level.2 ⟨ordered_of_finite h, ordered_of_finite h, le_rfl⟩
  exact ⟨self x0, self y0, self x1, self y1⟩

theorem Encloses.trans (h : r.Encloses a) (h' : a.Encloses b) : r.Encloses b := by
  have chain {x y z : Float} (h : Scalar.atMost x y = true) (h' : Scalar.atMost y z = true) :
      Scalar.atMost x z = true := by
    rw [atMost_iff_level] at h h' ⊢
    exact ⟨h.1, h'.2.1, h.2.2.trans h'.2.2⟩
  exact ⟨chain h.left h'.left, chain h.top h'.top, chain h'.right h.right,
    chain h'.bottom h.bottom⟩

theorem encloses_hull (ha : a.isFinite = true) (hb : b.isFinite = true) :
    (hull a b).Encloses a ∧ (hull a b).Encloses b := by
  have least {x y : Float} (hx : Scalar.finite x = true) (hy : Scalar.finite y = true) :
      Scalar.atMost (Scalar.min x y) x = true ∧ Scalar.atMost (Scalar.min x y) y = true := by
    have ox := ordered_of_finite hx
    have oy := ordered_of_finite hy
    rw [atMost_iff_level, atMost_iff_level, level_min ox oy]
    exact ⟨⟨ordered_min ox oy, ox, min_le_left _ _⟩, ordered_min ox oy, oy, min_le_right _ _⟩
  have greatest {x y : Float} (hx : Scalar.finite x = true) (hy : Scalar.finite y = true) :
      Scalar.atMost x (Scalar.max x y) = true ∧ Scalar.atMost y (Scalar.max x y) = true := by
    have ox := ordered_of_finite hx
    have oy := ordered_of_finite hy
    rw [atMost_iff_level, atMost_iff_level, level_max ox oy]
    exact ⟨⟨ox, ordered_max ox oy, le_max_left _ _⟩, oy, ordered_max ox oy, le_max_right _ _⟩
  obtain ⟨⟨x0, x1⟩, y0, y1⟩ := isFinite_iff.1 ha
  obtain ⟨⟨x0', x1'⟩, y0', y1'⟩ := isFinite_iff.1 hb
  exact ⟨⟨(least x0 x0').1, (least y0 y0').1, (greatest x1 x1').1, (greatest y1 y1').1⟩,
    (least x0 x0').2, (least y0 y0').2, (greatest x1 x1').2, (greatest y1 y1').2⟩

/-- An edge of a rectangle in the list, or of one more. -/
theorem edge_append {edge : Rect Float → Float} {x : Float}
    (h : ∃ a ∈ l, a.isEmpty = false ∧ edge r = edge a)
    (eq : x = edge r ∨ b.isEmpty = false ∧ x = edge b) :
    ∃ a ∈ l ++ [b], a.isEmpty = false ∧ x = edge a := by
  rcases eq with rfl | ⟨solid, rfl⟩
  · obtain ⟨a, there, solid, eq⟩ := h
    exact ⟨a, List.mem_append_left _ there, solid, eq⟩
  · exact ⟨b, List.mem_append_right _ (List.mem_singleton_self b), solid, rfl⟩

theorem Spans.append_empty (h : r.Spans l) (empty : b.isEmpty = true) : r.Spans (l ++ [b]) := by
  refine ⟨fun a there solid => ?_, edge_append h.left (.inl rfl), edge_append h.top (.inl rfl),
    edge_append h.right (.inl rfl), edge_append h.bottom (.inl rfl)⟩
  rcases List.mem_append.1 there with old | new
  · exact h.encloses a old solid
  · rw [List.mem_singleton.1 new, empty] at solid
    cases solid

theorem Spans.append (h : r.Spans l) (finite : r.isFinite = true) (finite' : b.isFinite = true)
    (solid : b.isEmpty = false) : (hull r b).Spans (l ++ [b]) := by
  obtain ⟨around, around'⟩ := encloses_hull finite finite'
  obtain ⟨⟨x0, x1⟩, y0, y1⟩ := isFinite_iff.1 finite
  obtain ⟨⟨x0', x1'⟩, y0', y1'⟩ := isFinite_iff.1 finite'
  have low {x y : Float} (hx : Scalar.finite x = true) (hy : Scalar.finite y = true) :
      Scalar.min x y = x ∨ b.isEmpty = false ∧ Scalar.min x y = y :=
    (min_or (ordered_of_finite hx) (ordered_of_finite hy)).imp_right (⟨solid, ·⟩)
  have high {x y : Float} (hx : Scalar.finite x = true) (hy : Scalar.finite y = true) :
      Scalar.max x y = x ∨ b.isEmpty = false ∧ Scalar.max x y = y :=
    (max_or (ordered_of_finite hx) (ordered_of_finite hy)).imp_right (⟨solid, ·⟩)
  refine ⟨fun a there solid => ?_, edge_append h.left (low x0 x0'), edge_append h.top (low y0 y0'),
    edge_append h.right (high x1 x1'), edge_append h.bottom (high y1 y1')⟩
  rcases List.mem_append.1 there with old | new
  · exact around.trans (h.encloses a old solid)
  · rw [List.mem_singleton.1 new]
    exact around'

theorem spans_last (empty : ∀ a ∈ l, a.isEmpty = true) (finite : b.isFinite = true)
    (solid : b.isEmpty = false) : b.Spans (l ++ [b]) := by
  have there : b ∈ l ++ [b] := List.mem_append_right _ (List.mem_singleton_self b)
  refine ⟨fun a member filled => ?_, ⟨b, there, solid, rfl⟩, ⟨b, there, solid, rfl⟩,
    ⟨b, there, solid, rfl⟩, b, there, solid, rfl⟩
  rcases List.mem_append.1 member with old | new
  · rw [empty a old] at filled
    cases filled
  · rw [List.mem_singleton.1 new]
    exact .refl finite

/-! ### One after the other -/

/-- What uniting the extents of a list gives. -/
inductive Gathered (l : List (Rect Float)) (r : Rect Float) : Prop where
  /-- One of them stands for the plane. -/
  | infinite (wide : r.isInfinite = true) (some_ : ∃ a ∈ l, a.isInfinite = true)
  /-- None does, but the smallest rectangle around those that are not empty. -/
  | reached (wide : r.isInfinite = true) (none_ : ∀ a ∈ l, a.isInfinite = false)
      {a : Rect Float} (spans : a.Spans l) (wide' : a.isInfinite = true)
  /-- It is the smallest rectangle around those that are not empty. -/
  | spanned (finite : r.isInfinite = false) (none_ : ∀ a ∈ l, a.isInfinite = false)
      (spans : r.Spans l)
  /-- All are empty, and it is the last one of them. -/
  | empty (none_ : ∀ a ∈ l, a.isInfinite = false) (empty : ∀ a ∈ l, a.isEmpty = true)
      (last : l.getLast? = some r)

theorem isInfinite_plane_float : (plane : Rect Float).isInfinite = true := by
  decide +kernel

theorem union_infinite (h : a.isInfinite = true ∨ b.isInfinite = true) :
    (a.union b).isInfinite = true := by
  rw [union, if_pos (by simpa using h)]
  exact isInfinite_plane_float

theorem union_finite (ha : a.isInfinite = false) (hb : b.isInfinite = false) : a.union b =
    if a.isEmpty then b else if b.isEmpty then a else hull a b := by
  rw [union, if_neg (by simp [ha, hb])]

theorem forall_append {P : Rect Float → Prop} (h : ∀ a ∈ l, P a) (h' : P b) :
    ∀ a ∈ l ++ [b], P a := fun a there => by
  rcases List.mem_append.1 there with old | new
  · exact h a old
  · exact List.mem_singleton.1 new ▸ h'

/-- Uniting one more extent. -/
theorem Gathered.union (h : Gathered l r) (b : Rect Float) : Gathered (l ++ [b]) (r.union b) := by
  cases infinite' : b.isInfinite
  case true =>
    exact .infinite (union_infinite (.inr infinite'))
      ⟨b, List.mem_append_right _ (List.mem_singleton_self b), infinite'⟩
  cases h with
  | infinite wide some_ =>
      obtain ⟨a, there, infinite⟩ := some_
      exact .infinite (union_infinite (.inl wide)) ⟨a, List.mem_append_left _ there, infinite⟩
  | @reached wide none_ a spans wide' =>
      have all := forall_append none_ infinite'
      have result := union_infinite (a := r) (b := b) (.inl wide)
      cases solid : b.isEmpty
      · have finite := spans.isFinite none_
        have finite' := isFinite_of_solid solid infinite'
        have spans' := spans.append finite finite' solid
        exact .reached result all spans' ((encloses_hull finite finite').1.isInfinite
          (spans'.isFinite all) finite wide')
      · exact .reached result all (spans.append_empty solid) wide'
  | spanned finite none_ spans =>
      have all := forall_append none_ infinite'
      rw [union_finite finite infinite', spans.isEmpty none_, if_neg Bool.false_ne_true]
      cases solid : b.isEmpty
      · have finite' := spans.isFinite none_
        have spans' := spans.append finite' (isFinite_of_solid solid infinite') solid
        rw [if_neg Bool.false_ne_true]
        cases wide : (hull r b).isInfinite
        · exact .spanned wide all spans'
        · exact .reached wide all spans' wide
      · rw [if_pos rfl]
        exact .spanned finite all (spans.append_empty solid)
  | empty none_ empty last =>
      have there : r ∈ l := List.mem_of_getLast? last
      have all := forall_append none_ infinite'
      rw [union_finite (none_ r there) infinite', empty r there, if_pos rfl]
      cases solid : b.isEmpty
      · exact .spanned infinite' all (spans_last empty (isFinite_of_solid solid infinite') solid)
      · exact .empty all (forall_append empty solid) (by simp)

theorem gathered_single (r : Rect Float) : Gathered [r] r := by
  cases infinite : r.isInfinite
  · have all : ∀ a ∈ [r], a.isInfinite = false :=
      fun a there => List.mem_singleton.1 there ▸ infinite
    cases solid : r.isEmpty
    · have alone := @spans_last r [] nofun (isFinite_of_solid solid infinite) solid
      exact .spanned infinite all alone
    · exact .empty all (fun a there => List.mem_singleton.1 there ▸ solid) rfl
  · exact .infinite infinite ⟨r, List.mem_singleton_self r, infinite⟩

theorem Gathered.foldl {rest : List (Rect Float)} (h : Gathered l r) :
    Gathered (l ++ rest) (rest.foldl Rect.union r) := by
  induction rest generalizing l r with
  | nil => simpa using h
  | cons b rest ih =>
      rw [List.append_cons, List.foldl_cons]
      exact ih (h.union b)

/-- The union of the extents of a list; without any it is the whole plane. -/
def unite : List (Rect Float) → Rect Float
  | [] => plane
  | r :: rest => rest.foldl Rect.union r

theorem gathered_unite (some_ : l ≠ []) : Gathered l (unite l) := by
  cases l with
  | nil => exact absurd rfl some_
  | cons r rest =>
      have all : Gathered ([r] ++ rest) (rest.foldl Rect.union r) := (gathered_single r).foldl
      exact all

/-! ## Margins -/

section

variable {lo hi lo' hi' dx dy : Float}

theorem inset_infinite (h : r.isInfinite = true) : r.inset dx dy = plane := if_pos h

theorem inset_finite (h : r.isInfinite = false) : r.inset dx dy =
    ⟨(shrinkSpan r.x0 r.x1 dx).1, (shrinkSpan r.y0 r.y1 dy).1, (shrinkSpan r.x0 r.x1 dx).2,
      (shrinkSpan r.y0 r.y1 dy).2⟩ := if_neg (Bool.eq_false_iff.1 h)

theorem alike_shrinkSpan (low : PixelKernel.Alike lo lo') (high : PixelKernel.Alike hi hi')
    (d : Float) : PixelKernel.Alike (shrinkSpan lo hi d).1 (shrinkSpan lo' hi' d).1 ∧
      PixelKernel.Alike (shrinkSpan lo hi d).2 (shrinkSpan lo' hi' d).2 := by
  have margin := PixelKernel.Alike.refl d
  have left := low.add margin
  have right := high.sub margin
  simp only [shrinkSpan]
  rw [right.less left]
  split
  · have middle := (left.add right).mul Scalar.half
    exact ⟨middle, middle⟩
  · exact ⟨left, right⟩

theorem Alike.inset (h : a.Alike b) (dx dy : Float) : (a.inset dx dy).Alike (b.inset dx dy) := by
  cases infinite : a.isInfinite
  · rw [inset_finite infinite, inset_finite (h.isInfinite.symm.trans infinite)]
    obtain ⟨left, right⟩ := alike_shrinkSpan h.left h.right dx
    obtain ⟨top, bottom⟩ := alike_shrinkSpan h.top h.bottom dy
    exact ⟨left, top, right, bottom⟩
  · rw [inset_infinite infinite, inset_infinite (h.isInfinite.symm.trans infinite)]
    exact .refl plane

/-- Growing a span keeps what is around its ends around the grown ends. -/
theorem atMost_shrinkSpan {x y d : Float} (finite : Scalar.finite lo = true)
    (finite' : Scalar.finite hi = true) (hx : Scalar.finite x = true) (hy : Scalar.finite y = true)
    (le : level lo ≤ level hi) (left : Scalar.atMost lo x = true)
    (right : Scalar.atMost y hi = true) (grow : Scalar.atMost d Scalar.zero = true) :
    Scalar.atMost (shrinkSpan lo hi d).1 (x + d) = true ∧
      Scalar.atMost (y - d) (shrinkSpan lo hi d).2 = true := by
  obtain ⟨number, -, most⟩ := atMost_iff_level.1 grow
  have low := ordered_add finite number
  have high := ordered_sub finite' number
  have regular : Scalar.less (hi - d) (lo + d) = false := by
    rw [less_eq_false high low]
    exact level_add_le_sub finite finite' number le (level_zero.2 ▸ most)
  simp only [shrinkSpan]
  rw [regular, if_neg Bool.false_ne_true, atMost_iff_level, atMost_iff_level]
  exact ⟨⟨low, ordered_add hx number,
      level_add_le finite hx number number (atMost_iff_level.1 left).2.2 le_rfl⟩,
    ordered_sub hy number, high,
    level_sub_le hy finite' number number (atMost_iff_level.1 right).2.2 le_rfl⟩

/-- The rectangle with margins on each side that are taken away, or added if they are negative. -/
def shrunk (r : Rect Float) (dx dy : Float) : Rect Float :=
  ⟨r.x0 + dx, r.y0 + dy, r.x1 - dx, r.y1 - dy⟩

theorem encloses_inset (infinite : r.isInfinite = false) (h : r.Encloses a)
    (finite : r.isFinite = true) (finite' : a.isFinite = true) (solid : r.isEmpty = false)
    (across : Scalar.atMost dx Scalar.zero = true) (down : Scalar.atMost dy Scalar.zero = true) :
    (r.inset dx dy).Encloses (a.shrunk dx dy) := by
  obtain ⟨⟨x0, x1⟩, y0, y1⟩ := isFinite_iff.1 finite
  obtain ⟨⟨x0', x1'⟩, y0', y1'⟩ := isFinite_iff.1 finite'
  obtain ⟨wide, high⟩ := isEmpty_eq_false.1 solid
  have wide := level_le_of_long x1 x0 wide
  have high := level_le_of_long y1 y0 high
  obtain ⟨left, right⟩ := atMost_shrinkSpan x0 x1 x0' x1' wide h.left h.right across
  obtain ⟨top, bottom⟩ := atMost_shrinkSpan y0 y1 y0' y1' high h.top h.bottom down
  rw [inset_finite infinite]
  exact ⟨left, top, right, bottom⟩

end

/-! ### Inputs with margins -/

section

variable {dx dy : Float}

/-- If an extent stands for the plane, so does the union. -/
theorem united_infinite (infinite : ∃ a ∈ l, a.isInfinite = true) :
    (unite l).inset dx dy = plane := by
  obtain ⟨a, there, wide⟩ := infinite
  cases gathered_unite (List.ne_nil_of_mem there) with
  | infinite wide | reached wide => exact inset_infinite wide
  | spanned _ none_ | empty none_ =>
      rw [none_ a there] at wide
      cases wide

/-- If none does, the union is the smallest rectangle around those that are not empty. -/
theorem united_spans (finite : ∀ a ∈ l, a.isInfinite = false) (spans : r.Spans l)
    (dx dy : Float) : ((unite l).inset dx dy).Alike (r.inset dx dy) := by
  obtain ⟨a, there, solid, -⟩ := spans.left
  cases gathered_unite (List.ne_nil_of_mem there) with
  | infinite wide some_ =>
      obtain ⟨b, there', infinite⟩ := some_
      rw [finite b there'] at infinite
      cases infinite
  | @reached wide _ b spans' wide' =>
      have same := spans.alike spans' fun _ _ => Iff.rfl
      rw [inset_infinite wide, inset_infinite (same.isInfinite.trans wide')]
      exact .refl plane
  | spanned _ _ spans' =>
      have same := spans'.alike spans fun _ _ => Iff.rfl
      exact same.inset dx dy
  | empty _ empty =>
      rw [empty a there] at solid
      cases solid

theorem exists_spans (finite : ∀ a ∈ l, a.isInfinite = false)
    (solid : ∃ a ∈ l, a.isEmpty = false) : ∃ r : Rect Float, r.Spans l := by
  obtain ⟨a, there, solid⟩ := solid
  cases gathered_unite (List.ne_nil_of_mem there) with
  | infinite wide some_ =>
      obtain ⟨b, there', infinite⟩ := some_
      rw [finite b there'] at infinite
      cases infinite
  | reached _ _ spans => exact ⟨_, spans⟩
  | spanned _ _ spans => exact ⟨_, spans⟩
  | empty _ empty =>
      rw [empty a there] at solid
      cases solid

/-- If all are empty, the last one is taken. -/
theorem united_empty (finite : ∀ a ∈ l, a.isInfinite = false) (empty : ∀ a ∈ l, a.isEmpty = true)
    (last : l.getLast? = some r) : unite l = r := by
  cases gathered_unite (List.ne_nil_of_mem (List.mem_of_getLast? last)) with
  | infinite wide some_ =>
      obtain ⟨b, there, infinite⟩ := some_
      rw [finite b there] at infinite
      cases infinite
  | reached _ _ spans | spanned _ _ spans =>
      obtain ⟨b, there, solid, -⟩ := spans.left
      rw [empty b there] at solid
      cases solid
  | empty _ _ last' => exact Option.some.inj (last'.symm.trans last)

/-- The union depends on which extents are not empty and on whether one stands for the plane. -/
theorem united_alike (same : ∀ r, r.isEmpty = false → (r ∈ l ↔ r ∈ l'))
    (wide : (∃ a ∈ l, a.isInfinite = true) ↔ ∃ a ∈ l', a.isInfinite = true)
    (some_ : ∃ a ∈ l, a.isInfinite = true ∨ a.isEmpty = false) :
    ((unite l).inset dx dy).Alike ((unite l').inset dx dy) := by
  by_cases infinite : ∃ a ∈ l, a.isInfinite = true
  · rw [united_infinite infinite, united_infinite (wide.1 infinite)]
    exact .refl plane
  · have finite {l : List (Rect Float)} (h : ¬ ∃ a ∈ l, a.isInfinite = true) :
        ∀ a ∈ l, a.isInfinite = false :=
      fun a there => Bool.eq_false_iff.2 fun is => h ⟨a, there, is⟩
    obtain ⟨a, there, solid⟩ := some_
    have solid : ∃ a ∈ l, a.isEmpty = false :=
      ⟨a, there, solid.resolve_left fun is => infinite ⟨a, there, is⟩⟩
    obtain ⟨r, spans⟩ := exists_spans (finite infinite) solid
    obtain ⟨b, there', solid'⟩ := solid
    obtain ⟨r', spans'⟩ := exists_spans (finite (mt wide.2 infinite))
      ⟨b, (same b solid').1 there', solid'⟩
    have first := united_spans (finite infinite) spans dx dy
    have second := united_spans (finite (mt wide.2 infinite)) spans' dx dy
    have between := (spans.alike spans' same).inset dx dy
    exact (first.trans between).trans second.symm

/-- Unless it stands for the whole plane, the union with margins is around all that is not empty. -/
theorem united_encloses (finite : (unite l).inset dx dy ≠ plane) (there : a ∈ l)
    (solid : a.isEmpty = false) (across : Scalar.atMost dx Scalar.zero = true)
    (down : Scalar.atMost dy Scalar.zero = true) :
    ((unite l).inset dx dy).Encloses (a.shrunk dx dy) := by
  cases gathered_unite (List.ne_nil_of_mem there) with
  | infinite wide | reached wide => exact absurd (inset_infinite wide) finite
  | spanned regular none_ spans =>
      exact encloses_inset regular (spans.encloses a there solid) (spans.isFinite none_)
        (isFinite_of_solid solid (none_ a there)) (spans.isEmpty none_) across down
  | empty _ empty =>
      rw [empty a there] at solid
      cases solid

end

end

end Rect

end PixelKernel
