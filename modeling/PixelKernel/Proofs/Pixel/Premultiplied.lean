import PixelKernel.Proofs.Graph.Regions

/-! # Premultiplied colours

A premultiplied colour is valid if no channel is brighter than its alpha allows. In exact arithmetic
all that is done to colours keeps them valid: a share of the way from one valid colour to another is
valid, since valid colours are a convex set, and so is one valid colour over another. Smooth reading
is three such shares, and so it never overshoots the four texels around a point.
-/

namespace PixelKernel

/-- A channel between nothing and alpha. -/
def Between (v a : Rat) : Prop := 0 ≤ v ∧ v ≤ a

namespace Rgba

/-- No channel is negative or more than alpha, and alpha is at most one. -/
structure Premultiplied (c : Rgba Rat) : Prop where
  r : Between c.r c.a
  g : Between c.g c.a
  b : Between c.b c.a
  a : Between c.a 1

instance (c : Rgba Rat) : Decidable c.Premultiplied :=
  decidable_of_iff ((0 ≤ c.r ∧ c.r ≤ c.a) ∧ (0 ≤ c.g ∧ c.g ≤ c.a) ∧ (0 ≤ c.b ∧ c.b ≤ c.a) ∧
      0 ≤ c.a ∧ c.a ≤ 1)
    ⟨fun ⟨r, g, b, a⟩ => ⟨r, g, b, a⟩, fun ⟨r, g, b, a⟩ => ⟨r, g, b, a⟩⟩

end Rgba

/-! ## Channels -/

section

variable {v w a b t lo hi : Rat}

theorem le_share (ht : Between t 1) (left : lo ≤ v) (right : lo ≤ w) : lo ≤ v + (w - v) * t := by
  have away := mul_nonneg (sub_nonneg.2 left) (sub_nonneg.2 ht.2)
  have along := mul_nonneg (sub_nonneg.2 right) ht.1
  linarith

theorem share_le (ht : Between t 1) (left : v ≤ hi) (right : w ≤ hi) : v + (w - v) * t ≤ hi := by
  have away := mul_nonneg (sub_nonneg.2 left) (sub_nonneg.2 ht.2)
  have along := mul_nonneg (sub_nonneg.2 right) ht.1
  linarith

/-- Channels that alpha bounds are a convex set. -/
theorem Between.share (ht : Between t 1) (left : Between v a) (right : Between w b) :
    Between (v + (w - v) * t) (a + (b - a) * t) := by
  have away := mul_nonneg (sub_nonneg.2 left.2) (sub_nonneg.2 ht.2)
  have along := mul_nonneg (sub_nonneg.2 right.2) ht.1
  exact ⟨le_share ht left.1 right.1, by linarith⟩

/-- One channel over another, where an alpha of `a` hides what is below. -/
theorem Between.over (src : Between v a) (opaque_ : a ≤ 1) (dst : Between w b) :
    Between (v + w * (1 - a)) (a + b * (1 - a)) := by
  have shown := mul_nonneg dst.1 (sub_nonneg.2 opaque_)
  have room := mul_nonneg (sub_nonneg.2 dst.2) (sub_nonneg.2 opaque_)
  exact ⟨by linarith [src.1], by linarith [src.2]⟩

end

/-! ## Colours -/

namespace Rgba

variable {c d : Rgba Rat} {t : Rat} {cs : List (Rgba Rat)}

theorem premultiplied_transparent : (transparent : Rgba Rat).Premultiplied := by decide +kernel

theorem Premultiplied.lerp (hc : c.Premultiplied) (hd : d.Premultiplied) (ht : Between t 1) :
    (Rgba.lerp c d t).Premultiplied where
  r := .share ht hc.r hd.r
  g := .share ht hc.g hd.g
  b := .share ht hc.b hd.b
  a := ⟨le_share ht hc.a.1 hd.a.1, share_le ht hc.a.2 hd.a.2⟩

theorem Premultiplied.onto (hc : c.Premultiplied) (hd : d.Premultiplied) :
    (c.onto d).Premultiplied where
  r := .over hc.r hc.a.2 hd.r
  g := .over hc.g hc.a.2 hd.g
  b := .over hc.b hc.a.2 hd.b
  a := by
    -- What the source leaves free is at least what alpha below it can fill.
    have within : Between (c.a + d.a * (1 - c.a)) (c.a + 1 * (1 - c.a)) :=
      .over ⟨hc.a.1, le_rfl⟩ hc.a.2 hd.a
    exact ⟨within.1, within.2.trans (by linarith)⟩

/-- A colour that is laid over another never takes alpha away. -/
theorem Premultiplied.le_onto (hc : c.Premultiplied) (hd : d.Premultiplied) :
    d.a ≤ (c.onto d).a := by
  have gain := mul_nonneg hc.a.1 (sub_nonneg.2 hd.a.2)
  have alpha : (c.onto d).a = c.a + d.a * (1 - c.a) := rfl
  linarith

/-- In the channel that `f` reads, some of the colours are at most `c`, and some at least. -/
def Bounds (cs : List (Rgba Rat)) (c : Rgba Rat) (f : Rgba Rat → Rat) : Prop :=
  (∃ lo ∈ cs, f lo ≤ f c) ∧ ∃ hi ∈ cs, f c ≤ f hi

/-- Each channel lies between the least and the greatest of the colours. -/
structure Among (cs : List (Rgba Rat)) (c : Rgba Rat) : Prop where
  r : Bounds cs c (·.r)
  g : Bounds cs c (·.g)
  b : Bounds cs c (·.b)
  a : Bounds cs c (·.a)

theorem Among.of_mem (h : c ∈ cs) : Among cs c :=
  have bounds (f : Rgba Rat → Rat) : Bounds cs c f := ⟨⟨c, h, le_rfl⟩, c, h, le_rfl⟩
  ⟨bounds _, bounds _, bounds _, bounds _⟩

/-- The lesser of two lower bounds is one of a share, and so is the greater of two upper bounds. -/
theorem Bounds.lerp {f : Rgba Rat → Rat} (hc : Bounds cs c f) (ht : Between t 1)
    (hd : Bounds cs d f) (share : f (Rgba.lerp c d t) = f c + (f d - f c) * t) :
    Bounds cs (Rgba.lerp c d t) f := by
  obtain ⟨⟨lo, lo_mem, below⟩, hi, hi_mem, above⟩ := hc
  obtain ⟨⟨lo', lo_mem', below'⟩, hi', hi_mem', above'⟩ := hd
  rw [Bounds, share]
  constructor
  · rcases le_total (f lo) (f lo') with first | second
    · exact ⟨lo, lo_mem, le_share ht below (first.trans below')⟩
    · exact ⟨lo', lo_mem', le_share ht (second.trans below) below'⟩
  · rcases le_total (f hi) (f hi') with second | first
    · exact ⟨hi', hi_mem', share_le ht (above.trans second) above'⟩
    · exact ⟨hi, hi_mem, share_le ht above (above'.trans first)⟩

theorem Among.lerp (hc : Among cs c) (ht : Between t 1) (hd : Among cs d) :
    Among cs (Rgba.lerp c d t) where
  r := hc.r.lerp ht hd.r rfl
  g := hc.g.lerp ht hd.g rfl
  b := hc.b.lerp ht hd.b rfl
  a := hc.a.lerp ht hd.a rfl

end Rgba

/-! ## Grids -/

namespace Pixel.Grid

variable {g : Grid Rat} {p : Point Rat}

/-- All texels are valid. -/
def Premultiplied (g : Grid Rat) : Prop := ∀ c ∈ g.texels, c.Premultiplied

theorem Premultiplied.texel (h : g.Premultiplied) (x y : Int) : (g.texel x y).Premultiplied := by
  by_cases outside : x < 0 ∨ y < 0 ∨ (g.width : Int) ≤ x ∨ (g.height : Int) ≤ y
  · rw [texel_outside outside]
    exact Rgba.premultiplied_transparent
  · have found := getElem?_texels (g := g) (x := x.toNat) (y := y.toNat) (by omega) (by omega)
    rw [Int.toNat_of_nonneg (by omega), Int.toNat_of_nonneg (by omega)] at found
    exact h _ (Array.mem_of_getElem? found)

/-- A grid is valid if it is valid place by place. -/
theorem premultiplied_of_texels
    (h : ∀ x < g.width, ∀ y < g.height, (g.texel x y).Premultiplied) : g.Premultiplied := by
  intro c there
  obtain ⟨i, inside, rfl⟩ := Array.mem_iff_getElem.1 there
  obtain ⟨column, row⟩ := column_row (g.full ▸ inside)
  have found := getElem?_texels (g := g) column row
  rw [Nat.div_add_mod', Array.getElem?_eq_getElem inside] at found
  rw [Option.some.inj found]
  exact h _ column _ row

theorem premultiplied_fill {c : Rgba Rat} (hc : c.Premultiplied) : (g.fill c).Premultiplied := by
  intro d there
  rw [(Array.mem_replicate.1 there).2]
  exact hc

/-- The texels in the two columns and the two rows whose centers surround the point. -/
def around (g : Grid Rat) (p : Point Rat) : List (Rgba Rat) :=
  let x := (p.x - 1 / 2).floor
  let y := (p.y - 1 / 2).floor
  [g.texel x y, g.texel (x + 1) y, g.texel x (y + 1), g.texel (x + 1) (y + 1)]

/-- Coordinates that are held in the range of whole numbers are outside the grid both before and
    after. -/
theorem texel_clamp (fits : g.Fits) {x y i j : Int} (hi : i = 0 ∨ i = 1) (hj : j = 0 ∨ j = 1) :
    g.texel (clampInt64 x + i) (clampInt64 y + j) = g.texel (x + i) (y + j) := by
  obtain ⟨columns, rows⟩ := fits
  by_cases same : clampInt64 x = x ∧ clampInt64 y = y
  · rw [same.1, same.2]
  · simp only [clampInt64] at same ⊢
    rw [texel_outside (by omega), texel_outside (by omega)]

/-- What is above the floor of a number, as a share of the way to the next. -/
theorem between_fraction (v : Rat) : Between (v - v.floor) 1 := by
  have above := Rat.lt_floor_add_one v
  push_cast at above
  exact ⟨sub_nonneg.2 (Rat.floor_le v), by linarith⟩

/-- Smooth reading blends the texels around the point, by the shares of the way between them. -/
theorem bilinear_around {x y : Int} (fits : g.Fits) (column : (p.x - 1 / 2).floor = x)
    (row : (p.y - 1 / 2).floor = y) : g.bilinear p =
      Rgba.lerp (Rgba.lerp (g.texel x y) (g.texel (x + 1) y) (p.x - 1 / 2 - x))
        (Rgba.lerp (g.texel x (y + 1)) (g.texel (x + 1) (y + 1)) (p.x - 1 / 2 - x))
        (p.y - 1 / 2 - y) := by
  have here := texel_clamp fits (x := x) (y := y) (.inl rfl) (.inl rfl)
  have right := texel_clamp fits (x := x) (y := y) (.inr rfl) (.inl rfl)
  have under := texel_clamp fits (x := x) (y := y) (.inl rfl) (.inr rfl)
  have across := texel_clamp fits (x := x) (y := y) (.inr rfl) (.inr rfl)
  simp only [Int.add_zero] at here right under across
  subst column row
  rw [← here, ← right, ← under, ← across]
  exact bilinear_eq rfl rfl

/-- What smooth reading gives. -/
structure Smooth (g : Grid Rat) : Prop where
  valid : ∀ p : Point Rat, (g.bilinear p).Premultiplied
  among : ∀ p : Point Rat, Rgba.Among (g.around p) (g.bilinear p)
  clear : ∀ p : Point Rat, ¬ (g.footprint true).Holds p → g.bilinear p = .transparent
  center : ∀ x y : Int, g.bilinear (⟨x + 1 / 2, y + 1 / 2⟩ : Point Rat) = g.texel x y

theorem among_bilinear (fits : g.Fits) (p : Point Rat) :
    Rgba.Among (g.around p) (g.bilinear p) := by
  rw [bilinear_around fits rfl rfl]
  have across := between_fraction (p.x - 1 / 2)
  have mem {c : Rgba Rat} (h : c ∈ g.around p) : Rgba.Among (g.around p) c := .of_mem h
  have top := (mem (.head _)).lerp across (mem (.tail _ (.head _)))
  have bottom := (mem (.tail _ (.tail _ (.head _)))).lerp across
    (mem (.tail _ (.tail _ (.tail _ (.head _)))))
  exact top.lerp (between_fraction (p.y - 1 / 2)) bottom

theorem Premultiplied.bilinear (h : g.Premultiplied) (p : Point Rat) :
    (g.bilinear p).Premultiplied := by
  rw [bilinear_eq rfl rfl]
  have across := between_fraction (p.x - 1 / 2)
  have down := between_fraction (p.y - 1 / 2)
  exact ((h.texel _ _).lerp (h.texel _ _) across).lerp
    ((h.texel _ _).lerp (h.texel _ _) across) down

theorem bilinear_center (fits : g.Fits) (x y : Int) :
    g.bilinear (⟨x + 1 / 2, y + 1 / 2⟩ : Point Rat) = g.texel x y := by
  have column : ((x : Rat) + 1 / 2 - 1 / 2).floor = x := by
    rw [add_sub_cancel_right, Rat.floor_intCast]
  have row : ((y : Rat) + 1 / 2 - 1 / 2).floor = y := by
    rw [add_sub_cancel_right, Rat.floor_intCast]
  rw [bilinear_around fits column row]
  simp only [add_sub_cancel_right, sub_self, lerp_zero]

theorem Premultiplied.smooth (h : g.Premultiplied) (fits : g.Fits) : g.Smooth where
  valid := h.bilinear
  among := among_bilinear fits
  clear p outside := by
    by_contra seen
    exact outside (holds_of_bilinear fits seen)
  center := bilinear_center fits

theorem Premultiplied.sample (h : g.Premultiplied) (interpolate : Bool) (p : Point Rat) :
    (g.sample interpolate p).Premultiplied := by
  cases interpolate with
  | false => exact h.texel _ _
  | true => exact h.bilinear p

end Pixel.Grid
end PixelKernel
