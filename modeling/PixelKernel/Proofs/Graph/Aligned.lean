import PixelKernel.Proofs.Geometry.Centers
import PixelKernel.Proofs.Graph.Canvases
import PixelKernel.Proofs.Graph.Making
import PixelKernel.Proofs.Graph.Rendering

/-! # Pictures on the pixels of the plane

Where pixels lie on those of the plane, pictures that are not read smoothly are copied as they are:
halves of pixels, origins and floors cancel. A canvas shows its own pixels as well, if its sides are
whole numbers.
-/

namespace PixelKernel

open Float.Model Float.Model.UnpackedFloat Nearest

/-! ## Nothing laid over a colour -/

section

variable {v : Float32}

theorem float32_mul_one (v : Float32) : v * Scalar.one = v := by
  have unit : (Scalar.one : Float32).toModel.unpack =
      .finite .positive (2 ^ 23) (-23) (by decide) := rfl
  suffices same : UnpackedFloat.mul .binary32 v.toModel.unpack (Scalar.one : Float32).toModel.unpack =
      v.toModel.unpack by
    have model : (v * Scalar.one).toModel = v.toModel := by
      change Float32.Model.pack (UnpackedFloat.mul .binary32 _ _) = _
      rw [same, Words.pack_unpack_float32]
    obtain ⟨model_⟩ := v
    exact congrArg Float32.ofModel model
  have read : Read .binary32 v.toModel.unpack := read_unpack (by decide) _
  rw [unit]
  cases unpacked : v.toModel.unpack with
  | notANumber => rfl
  | infinity s | zero s => cases s <;> rfl
  | finite s m e pos =>
      rw [unpacked] at read
      have one : value (.finite .positive (2 ^ 23) (-23) (by decide)) = 1 := by
        norm_num [value, Sign.apply]
      have proper : Proper .binary32 (.finite .positive (2 ^ 23) (-23) (by decide)) :=
        show Canonical _ _ _ from ⟨by decide, by decide, fun _ => by decide⟩
      exact (mul_kept (by decide) (by decide) (read.proper rfl) proper read.lt_bound
        (value_ne_zero s pos) one).1

/-- A channel is what it was, but for the sign of zero. -/
theorem channel_kept (v : Float32) : Scalar.zero + v * (Scalar.one - Scalar.zero) = v ∨
    (Scalar.zero + v * (Scalar.one - Scalar.zero) == v) = true := by
  rw [Words.float32_sub_zero, float32_mul_one]
  by_cases null : ∃ s, v.toModel.unpack = .zero s
  · obtain ⟨s, unpacked⟩ := null
    right
    change (UnpackedFloat.compare (UnpackedFloat.unpack .binary32 (UnpackedFloat.pack .binary32
      (UnpackedFloat.add .binary32 (.zero .positive) v.toModel.unpack))) v.toModel.unpack ==
        some .eq) = true
    rw [unpacked]
    cases s <;> rfl
  · left
    have sum : UnpackedFloat.add .binary32 (.zero .positive) v.toModel.unpack = v.toModel.unpack := by
      cases unpacked : v.toModel.unpack with
      | zero s => exact absurd ⟨s, unpacked⟩ null
      | _ => rfl
    have model : (Scalar.zero + v).toModel = v.toModel := by
      change Float32.Model.pack (UnpackedFloat.add .binary32 (.zero .positive) v.toModel.unpack) = _
      rw [sum, Words.pack_unpack_float32]
    obtain ⟨model_⟩ := v
    exact congrArg Float32.ofModel model

end

/-- The channels are equal; a zero may have another sign. -/
structure Rgba.Alike (c d : Rgba Float32) : Prop where
  r : c.r = d.r ∨ (c.r == d.r) = true
  g : c.g = d.g ∨ (c.g == d.g) = true
  b : c.b = d.b ∨ (c.b == d.b) = true
  a : c.a = d.a ∨ (c.a == d.a) = true

theorem Rgba.transparent_onto (c : Rgba Float32) : (Rgba.transparent.onto c).Alike c :=
  ⟨channel_kept c.r, channel_kept c.g, channel_kept c.b, channel_kept c.a⟩

/-! ## Texels under middles of pixels -/

namespace Pixel.Grid

variable {g : Grid Float32} {i j : ℤ}

/-- A grid has fewer columns and rows than words can count. -/
def Countable (g : Grid Float32) : Prop := g.width < 2 ^ 32 ∧ g.height < 2 ^ 32

/-- The texel under the middle of a pixel, when the grid has its first corner at `origin`. -/
theorem nearest_moved {origin : Point Float} {ox oy : ℤ} (countable : g.Countable)
    (near : |i| < 2 ^ 50 ∧ |j| < 2 ^ 50) (hx : Denotes origin.x ox) (hy : Denotes origin.y oy) :
    g.nearest (⟨(Point.middle i j).x - origin.x, (Point.middle i j).y - origin.y⟩ : Point Float) =
      g.texel (i - ox) (j - oy) := by
  obtain ⟨wide, high⟩ := countable
  obtain ⟨finite, across⟩ := floor_moved (denotes_middle (near.1.trans (by decide))) near.1 hx
  obtain ⟨finite', down⟩ := floor_moved (denotes_middle (near.2.trans (by decide))) near.2 hy
  have finite : Scalar.finite ((Point.middle i j).x - origin.x) = true := finite
  have finite' : Scalar.finite ((Point.middle i j).y - origin.y) = true := finite'
  simp only [nearest, finite, finite', Bool.not_true, Bool.or_self, Bool.false_eq_true, if_false]
  simp only [Point.middle]
  rcases across with across | across
  · rcases down with down | down
    · rw [across, down]
    · rw [texel_outside (by omega), texel_outside (by omega)]
  · rw [texel_outside (by omega), texel_outside (by omega)]

end Pixel.Grid

namespace Graph

open Pixel (Grid Layout)

/-! ## Pictures -/

/-- A buffer that is not read smoothly, of a size that words can count. -/
structure Buffer.Rough (b : Buffer Float Float32) : Prop where
  rough : b.interpolate = false
  countable : b.grid.Countable

namespace Store

variable {s : Store Float Float32} {n : Nat}

/-- An image that is nothing but texels can always be planned, and shows them. -/
theorem forImage_pixels {grid : Grid Float32} {origin : Point Float} {interpolate : Bool}
    {extent : Rect Float} (leaf : ∀ visit, Planner.fresh s visit n =
      Planner.add (.pixels grid origin interpolate) .identity extent) (limits : Limits) :
    ∃ plan, Plan.forImage s limits n = .ok plan ∧ ∀ (run : Runner Float Float32) p,
      plan.rootColour run p =
        .ok (grid.sample interpolate (⟨p.x - origin.x, p.y - origin.y⟩ : Point Float)) := by
  refine ⟨⟨#[⟨.pixels grid origin interpolate, .identity, Affine.identity.reciprocalInverse, extent⟩],
    0⟩, ?_, fun run p => ?_⟩
  · rw [Plan.forImage, Planner.visit, leaf]
    rfl
  · rw [Plan.rootColour, Plan.colour]
    rfl

theorem forImage_buffer {b : Buffer Float Float32} (node : s.node n = .buffer b) (limits : Limits) :
    ∃ plan, Plan.forImage s limits n = .ok plan ∧ ∀ (run : Runner Float Float32) p,
      plan.rootColour run p = .ok (b.grid.sample b.interpolate p) := by
  obtain ⟨plan, planned, colours⟩ :=
    forImage_pixels (s := s) (n := n) (fun visit => by rw [Planner.fresh, node]) limits
  refine ⟨plan, planned, fun run p => ?_⟩
  rw [colours, Words.float_sub_zero, Words.float_sub_zero]

theorem forImage_canvas {i : Nat} {c : Canvas Float Float32} (node : s.node n = .canvas i)
    (there : s.canvases[i]? = some c) (limits : Limits) :
    ∃ plan, Plan.forImage s limits n = .ok plan ∧ ∀ (run : Runner Float Float32) p,
      plan.rootColour run p =
        .ok (c.grid.nearest (⟨p.x - c.extent.x0, p.y - c.extent.y0⟩ : Point Float)) :=
  forImage_pixels (fun visit => by rw [Planner.fresh, node]; dsimp only; rw [there]) limits

/-! ### A buffer on its own grid -/

theorem render_own {b : Buffer Float Float32} {rect : Rect Float} (node : s.node n = .buffer b)
    (rough : b.Rough) (whole : rect.Whole ⟨0, 0, b.grid.width, b.grid.height⟩)
    (run : Nat → Runner Float Float32) (limits : Limits) :
    s.render run limits n rect b.grid.width b.grid.height = .ok b.grid := by
  obtain ⟨plan, planned, colours⟩ := forImage_buffer node limits
  refine render_eq_ok.2 ⟨whole.isFinite, plan, planned, Grid.build_eq_ok.2 ⟨rfl, rfl, ?_⟩⟩
  intro i column j row
  obtain ⟨wide, high⟩ := rough.countable
  have size : (Rect.columns ⟨0, 0, b.grid.width, b.grid.height⟩) = b.grid.width ∧
      (Rect.rows ⟨0, 0, b.grid.width, b.grid.height⟩) = b.grid.height := by
    simp [Rect.columns, Rect.rows]
  have center := whole.pixelCenter_eq (size.1.symm ▸ column) (size.2.symm ▸ row)
  rw [size.1, size.2] at center
  have near : |(0 : ℤ) + i| < 2 ^ 50 ∧ |(0 : ℤ) + j| < 2 ^ 50 := by
    simp only [abs_lt]
    omega
  have zero : Denotes Scalar.zero ((0 : ℤ) : ℚ) := by
    exact_mod_cast denotes_ofNat (n := 0) (by decide)
  have texel := @Grid.nearest_moved b.grid i j ⟨Scalar.zero, Scalar.zero⟩ 0 0 rough.countable
    (by simpa using near) zero zero
  simp only [Words.float_sub_zero, sub_zero] at texel
  rw [colours, center, rough.rough]
  simp only [zero_add]
  exact congrArg Except.ok texel

end Store

/-! ### A buffer on a canvas -/

namespace Canvas

variable {c : Canvas Float Float32} {cells : Rect ℤ}

/-- As many pixels cover a whole length as it has units. -/
theorem pixels?_whole {length : Float} {count : Nat} {w : ℤ} (h : pixels? length = some count)
    (positive : Scalar.less length Scalar.zero = false) (whole : Denotes length w) :
    (count : ℤ) = w ∧ count < 2 ^ 32 := by
  have low : 0 ≤ w := by
    rw [less_eq_false (ordered_of_finite whole.finite) level_zero.1, level_zero.2,
      level_eq_denoted whole.finite, whole.value] at positive
    exact_mod_cast positive
  dsimp only [pixels?] at h
  split at h
  · next small =>
    cases h
    have floor : Scalar.floor (-length) = clampInt64 (-w) := by
      rw [floor_eq whole.neg.finite, whole.neg.value, ← Int.cast_neg, Int.floor_intCast]
    rw [Scalar.ceiling, floor] at small ⊢
    simp only [clampInt64] at small ⊢
    omega
  · cases h

/-- The grid of a canvas with whole sides is as large as its extent. -/
theorem Made.size (made : c.Made) {w h : ℤ} (wide : Denotes c.extent.width w)
    (high : Denotes c.extent.height h) : c.extent.isFinite = true ∧
      ((c.grid.width : ℤ) = w ∧ (c.grid.height : ℤ) = h) ∧ c.grid.Countable := by
  obtain ⟨allocates, c₀, new, width, height⟩ := made
  obtain ⟨-, -, finite, wide', high', columns, rows⟩ := new_eq_ok new
  obtain ⟨columns, few⟩ := pixels?_whole (width ▸ columns) wide' wide
  obtain ⟨rows, few'⟩ := pixels?_whole (height ▸ rows) high' high
  exact ⟨finite, ⟨columns, rows⟩, few, few'⟩

theorem denotes_sides (whole : c.extent.Whole cells) :
    Denotes c.extent.width (cells.x1 - cells.x0 : ℤ) ∧
      Denotes c.extent.height (cells.y1 - cells.y0 : ℤ) := by
  obtain ⟨⟨left, right⟩, top, bottom⟩ := whole.near
  rw [abs_lt] at left right top bottom
  have wide := whole.x1.sub whole.x0
  have high := whole.y1.sub whole.y0
  rw [← Int.cast_sub] at wide high
  exact ⟨wide (halves_int (by rw [abs_le]; omega)), high (halves_int (by rw [abs_le]; omega))⟩

/-- Pixel centers of a canvas with whole corners are those of the plane. -/
theorem pixelCenter_eq (made : c.Made) (whole : c.extent.Whole cells) {x y : Nat}
    (column : x < c.grid.width) (row : y < c.grid.height) :
    c.pixelCenter x y = .middle (cells.x0 + x) (cells.y0 + y) ∧
      |cells.x0 + x| < 2 ^ 50 ∧ |cells.y0 + y| < 2 ^ 50 := by
  obtain ⟨wide, high⟩ := denotes_sides whole
  obtain ⟨-, ⟨width, height⟩, -⟩ := made.size wide high
  obtain ⟨⟨left, right⟩, top, bottom⟩ := whole.near
  have across := middle_of_count (i := x) whole.x0 left (by rw [abs_lt] at left right; omega)
  have down := middle_of_count (i := y) whole.y0 top (by rw [abs_lt] at top bottom; omega)
  refine ⟨congrArg₂ Point.mk across down, ?_⟩
  rw [abs_lt] at left right top bottom
  simp only [abs_lt]
  omega

end Canvas

namespace Store

variable {s : Store Float Float32} {n : Nat}

theorem composite_buffer {i : Nat} {c : Canvas Float Float32} {b : Buffer Float Float32}
    {cells : Rect ℤ} {origin : Point Float} {ox oy : ℤ} (there : s.canvases[i]? = some c)
    (made : c.Made) (whole : c.extent.Whole cells) (node : s.node n = .buffer b) (rough : b.Rough)
    (hx : Denotes origin.x ox) (hy : Denotes origin.y oy) (run : Nat → Runner Float Float32) :
    s.composite run i n origin = (.ok (), s.setCanvas i (c.painted fun x y =>
      (b.grid.texel (cells.x0 + x - ox) (cells.y0 + y - oy)).onto (c.grid.texel x y))) := by
  obtain ⟨plan, planned, colours⟩ := forImage_buffer node c.limits
  have laid : (c.overlay fun p => plan.rootColour (run c.limits.instructions)
      (⟨p.x - origin.x, p.y - origin.y⟩ : Point Float)) = .ok (c.painted fun x y =>
        (b.grid.texel (cells.x0 + x - ox) (cells.y0 + y - oy)).onto (c.grid.texel x y)) := by
    refine overlay_eq fun x column y row => ?_
    obtain ⟨center, near⟩ := Canvas.pixelCenter_eq made whole column row
    rw [colours, center, rough.rough]
    exact congrArg Except.ok (Grid.nearest_moved rough.countable near hx hy)
  have done : s.drawn run c n origin = .ok (c.painted fun x y =>
      (b.grid.texel (cells.x0 + x - ox) (cells.y0 + y - oy)).onto (c.grid.texel x y)) := by
    rw [drawn, planned]
    exact congrArg (Except.mapError Fault.ofTrap) laid
  simp only [composite, there, done]

end Store

/-! ### A canvas on its own grid -/

/-- The sides are whole numbers, and the first corner is not too far away for halves. -/
structure Canvas.Even (c : Canvas Float Float32) : Prop where
  wide : ∃ w : ℤ, Denotes c.extent.width w
  high : ∃ h : ℤ, Denotes c.extent.height h
  near : |denoted c.extent.x0| < 2 ^ 50 ∧ |denoted c.extent.y0| < 2 ^ 50

/-- Canvases with whole corners are even. -/
theorem Canvas.even_of_whole {c : Canvas Float Float32} {cells : Rect ℤ}
    (whole : c.extent.Whole cells) : c.Even := by
  obtain ⟨wide, high⟩ := denotes_sides whole
  refine ⟨⟨_, wide⟩, ⟨_, high⟩, ?_⟩
  rw [whole.x0.value, whole.y0.value]
  exact_mod_cast And.intro whole.near.1.1 whole.near.2.1

namespace Store

variable {s : Store Float Float32} {n : Nat}

/-- The pixel centers of a canvas's own grid lie in its own pixels. -/
theorem nearest_own {c : Canvas Float Float32} (made : c.Made) (even : c.Even) {x y : Nat}
    (column : x < c.grid.width) (row : y < c.grid.height) :
    let p := c.extent.pixelCenter c.grid.width c.grid.height x y
    c.grid.nearest (⟨p.x - c.extent.x0, p.y - c.extent.y0⟩ : Point Float) = c.grid.texel x y := by
  obtain ⟨w, wide⟩ := even.wide
  obtain ⟨h, high⟩ := even.high
  obtain ⟨finite, ⟨width, height⟩, few, few'⟩ := made.size wide high
  simp only [Rect.isFinite, Bool.and_eq_true] at finite
  obtain ⟨⟨⟨left, top⟩, -⟩, -⟩ := finite
  rw [← width, Int.cast_natCast] at wide
  rw [← height, Int.cast_natCast] at high
  obtain ⟨finite, across⟩ := floor_counted left even.near.1
    (counted_of_width wide column (by omega)) (by omega)
  obtain ⟨finite', down⟩ := floor_counted top even.near.2
    (counted_of_width high row (by omega)) (by omega)
  have point : c.extent.pixelCenter c.grid.width c.grid.height x y =
      ⟨c.extent.x0 + (Scalar.ofNat x + Scalar.half) *
          (c.extent.width / Scalar.ofNat (Nat.max c.grid.width 1)),
        c.extent.y0 + (Scalar.ofNat y + Scalar.half) *
          (c.extent.height / Scalar.ofNat (Nat.max c.grid.height 1))⟩ := rfl
  simp only [point, Grid.nearest, finite, finite', Bool.not_true, Bool.or_self, Bool.false_eq_true,
    if_false, across, down]

theorem render_canvas {i : Nat} {c : Canvas Float Float32} (node : s.node n = .canvas i)
    (there : s.canvases[i]? = some c) (made : c.Made) (even : c.Even)
    (run : Nat → Runner Float Float32) (limits : Limits) :
    s.render run limits n c.extent c.grid.width c.grid.height = .ok c.grid := by
  obtain ⟨w, wide⟩ := even.wide
  obtain ⟨h, high⟩ := even.high
  obtain ⟨plan, planned, colours⟩ := forImage_canvas node there limits
  refine render_eq_ok.2 ⟨(made.size wide high).1, plan, planned, Grid.build_eq_ok.2 ⟨rfl, rfl, ?_⟩⟩
  intro x column y row
  rw [colours]
  exact congrArg Except.ok (nearest_own made even column row)

/-- Rendering a canvas over its extent writes what reading its pixels writes. -/
theorem renderInto_canvas {i : Nat} {c : Canvas Float Float32} (node : s.node n = .canvas i)
    (there : s.canvases[i]? = some c) (made : c.Made) (even : c.Even) (limits : Limits)
    {l : Layout} (width : l.width = c.grid.width) (height : l.height = c.grid.height)
    (data : ByteArray) : s.renderInto limits n c.extent l data = c.read l data := by
  rw [renderInto, Canvas.read, width, height, render_canvas node there made even,
    if_neg (by simp)]
  cases valid : l.validate data.size with
  | error fault => rw [Layout.encode, valid]; rfl
  | ok => rfl

/-! ## All copies -/

/-- How pictures on the pixels of the plane are copied. -/
structure CopiesPixels (s : Store Float Float32) : Prop where
  /-- On its own grid a buffer shows its texels. -/
  own : ∀ (run : Nat → Runner Float Float32) limits n {b : Buffer Float Float32} {rect : Rect Float},
    s.node n = .buffer b → b.Rough → rect.Whole ⟨0, 0, b.grid.width, b.grid.height⟩ →
    s.render run limits n rect b.grid.width b.grid.height = .ok b.grid
  /-- On a canvas each texel is laid over its pixel. -/
  drawn : ∀ (run : Nat → Runner Float Float32) i n {c : Canvas Float Float32}
    {b : Buffer Float Float32} {cells : Rect ℤ} {origin : Point Float} {ox oy : ℤ},
    s.canvases[i]? = some c → c.extent.Whole cells → s.node n = .buffer b → b.Rough →
    Denotes origin.x ox → Denotes origin.y oy →
    ∃ c', s.composite run i n origin = (.ok (), s.setCanvas i c') ∧ c'.extent = c.extent ∧
      c'.limits = c.limits ∧ c'.grid.width = c.grid.width ∧ c'.grid.height = c.grid.height ∧
      ∀ x < c.grid.width, ∀ y < c.grid.height,
        c'.grid.texel x y =
          (b.grid.texel (cells.x0 + x - ox) (cells.y0 + y - oy)).onto (c.grid.texel x y) ∧
        -- beside the buffer nothing changes
        (cells.x0 + x < ox ∨ cells.y0 + y < oy ∨ ox + b.grid.width ≤ cells.x0 + x ∨
            oy + b.grid.height ≤ cells.y0 + y →
          (c'.grid.texel x y).Alike (c.grid.texel x y))
  /-- An even canvas is rendered as it is read. -/
  shown : ∀ limits n {i : Nat} {c : Canvas Float Float32}, s.node n = .canvas i →
    s.canvases[i]? = some c → c.Even → ∀ {l : Layout}, l.width = c.grid.width →
    l.height = c.grid.height → ∀ data,
      s.renderInto limits n c.extent l data = c.read l data

theorem Made.copiesPixels (made : s.Made) : s.CopiesPixels where
  own run limits _ _ _ node rough whole := render_own node rough whole run limits
  drawn run i n c b cells origin ox oy there whole node rough hx hy := by
    refine ⟨_, composite_buffer there (made c (Array.mem_of_getElem? there)) whole node rough hx hy run,
      rfl, rfl, rfl, rfl, fun x column y row => ?_⟩
    have texel := Grid.texel_tabulate (f := fun x y : Nat => (b.grid.texel (cells.x0 + x - ox)
      (cells.y0 + y - oy)).onto (c.grid.texel x y)) column row
    refine ⟨texel, fun outside => ?_⟩
    rw [Canvas.painted, texel, Grid.texel_outside (by omega)]
    exact Rgba.transparent_onto _
  shown limits _ _ c node there even _ width height data :=
    renderInto_canvas node there (made c (Array.mem_of_getElem? there)) even limits width height data

end Store

/-- Whatever is done to a store, pictures on the pixels of the plane are copied exactly. -/
theorem Reached.copies_pixels {run : Nat → Runner Float Float32}
    {ops : List (Operation Float Float32)} {s : Store Float Float32} (h : Reached run ops s) :
    s.CopiesPixels :=
  h.made.copiesPixels

/-- The image of a canvas of one pixel, over bytes that were full. -/
theorem mirror_shown : mirror.renderInto .standard 0 ⟨0, 0, 1, 1⟩ (.packed 1 1 .rgba32)
      (Layout.blank 4 255) =
    (⟨⟨0, 0, 1, 1⟩, .standard, .filled 1 1 .transparent⟩ : Canvas Float Float32).read
      (.packed 1 1 .rgba32) (Layout.blank 4 255) := by
  have whole : (⟨0, 0, 1, 1⟩ : Rect Float).Whole ⟨0, 0, 1, 1⟩ := .ofNat (by decide)
  exact reached_mirror.copies_pixels.shown .standard 0 rfl rfl (Canvas.even_of_whole whole) rfl rfl _

/-- A canvas a quarter longer than one pixel, a white buffer that was drawn on its second pixel, and
    the image of the canvas. -/
def narrow : Store Float Float32 where
  kernels := #[]
  nodes := #[.buffer (.ofGrid (.filled 1 1 ⟨1, 1, 1, 1⟩)), .canvas 0]
  canvases := #[⟨⟨0, 0, 1.25, 1⟩, .standard, ⟨2, 1, #[.transparent, ⟨1, 1, 1, 1⟩], rfl⟩⟩]
  subscriptions := 0

theorem reached_narrow : Reached runForColour [.composite 0 0 ⟨1, 0⟩, .newNode (.canvas 0),
    .newNode (.buffer (.ofGrid (.filled 1 1 ⟨1, 1, 1, 1⟩))),
    .newCanvas ⟨0, 0, 1.25, 1⟩ .standard fun _ => true] narrow := by
  let extent : Rect Float := ⟨0, 0, 1.25, 1⟩
  let white : Node Float Float32 := .buffer (.ofGrid (.filled 1 1 ⟨1, 1, 1, 1⟩))
  let blank : Canvas Float Float32 := ⟨extent, .standard, .filled 2 1 .transparent⟩
  have made : Canvas.new extent .standard (fun _ => true) = .ok blank := by
    have usable : (!extent.isFinite || extent.isInfinite || Scalar.less extent.width Scalar.zero
        || Scalar.less extent.height Scalar.zero) = false := by decide +kernel
    have width : Canvas.pixels? extent.width = some 2 := by decide +kernel
    have height : Canvas.pixels? extent.height = some 1 := by decide +kernel
    simp only [Canvas.new, usable, width, height]
    rfl
  have canvas : Reached runForColour [.newCanvas extent .standard fun _ => true]
      { narrow with nodes := #[], canvases := #[blank] } := by
    have names : (.newCanvas extent .standard fun _ => true : Operation Float Float32).Names .new :=
      trivial
    have step := Reached.step (.new : Reached runForColour [] .new) names
    simp only [Operation.perform, made] at step
    exact step
  have buffer : Reached runForColour [.newNode white, .newCanvas extent .standard fun _ => true]
      { narrow with nodes := #[white], canvases := #[blank] } := .step canvas trivial
  have image : Reached runForColour
      [.newNode (.canvas 0), .newNode white, .newCanvas extent .standard fun _ => true]
      { narrow with canvases := #[blank] } :=
    .step buffer (show 0 < (#[blank] : Array (Canvas Float Float32)).size by decide)
  have drawn : ({ narrow with canvases := #[blank] } : Store Float Float32).drawn runForColour
      blank 0 ⟨1, 0⟩ =
      .ok { blank with grid := ⟨2, 1, #[.transparent, ⟨1, 1, 1, 1⟩], rfl⟩ } := by
    obtain ⟨plan, planned, colours⟩ := Store.forImage_buffer
      (s := { narrow with canvases := #[blank] }) (n := 0) rfl blank.limits
    have laid : (blank.overlay fun p => plan.rootColour (runForColour blank.limits.instructions)
        ⟨p.x - 1, p.y - 0⟩) = .ok (blank.painted fun x y =>
          ((Grid.filled 1 1 ⟨1, 1, 1, 1⟩).nearest (⟨(blank.pixelCenter x y).x - 1,
            (blank.pixelCenter x y).y - 0⟩ : Point Float)).onto (blank.grid.texel x y)) :=
      Store.overlay_eq fun x _ y _ => colours _ _
    have painted : Grid.tabulate 2 1 (fun x y => ((Grid.filled 1 1 ⟨1, 1, 1, 1⟩).nearest
        (⟨(blank.pixelCenter x y).x - 1, (blank.pixelCenter x y).y - 0⟩ : Point Float)).onto
          (blank.grid.texel x y)) = ⟨2, 1, #[.transparent, ⟨1, 1, 1, 1⟩], rfl⟩ := by
      decide +kernel
    rw [Store.drawn, planned]
    refine (congrArg (Except.mapError Fault.ofTrap) laid).trans ?_
    exact congrArg (fun grid => Except.ok { blank with grid }) painted
  have there : ({ narrow with canvases := #[blank] } : Store Float Float32).canvases[0]? =
    some blank := rfl
  have names : (Operation.composite 0 0 ⟨1, 0⟩).Names { narrow with canvases := #[blank] } :=
    ⟨Nat.zero_lt_one, Nat.zero_lt_two⟩
  have step := image.step names
  simp only [Operation.perform, Store.composite, there, drawn] at step
  exact step

theorem narrow_shown : Reached runForColour [.composite 0 0 ⟨1, 0⟩, .newNode (.canvas 0),
    .newNode (.buffer (.ofGrid (.filled 1 1 ⟨1, 1, 1, 1⟩))),
    .newCanvas ⟨0, 0, 1.25, 1⟩ .standard fun _ => true] narrow ∧ narrow.node 1 = .canvas 0 ∧
    ∃ c, narrow.canvases[0]? = some c ∧
      (narrow.renderInto .standard 1 c.extent (.packed 2 1 .rgba32) (Layout.blank 8 0)).toOption ≠
      (c.read (.packed 2 1 .rgba32) (Layout.blank 8 0)).toOption := by
  refine ⟨reached_narrow, rfl, _, rfl, ?_⟩
  decide +kernel

end Graph
end PixelKernel
