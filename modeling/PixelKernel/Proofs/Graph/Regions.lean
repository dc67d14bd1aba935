import PixelKernel.Proofs.Geometry.Cover
import PixelKernel.Proofs.Graph.Making
import PixelKernel.Proofs.Graph.Validation
import Mathlib.Tactic.Linarith

/-! # Where images show

In exact arithmetic an image of moved and cropped pictures is transparent outside its footprint,
which follows from what its pictures show by the rules of extents. A picture that is read smoothly
shows half a pixel more than its extent, and the grid of a canvas may be up to a pixel longer than
the extent. Where neither happens the footprint is the extent.
-/

namespace PixelKernel

/-! ## Grids -/

section

variable {x : Rat} {k : Int}

theorem le_of_le_floor (h : k ≤ Scalar.floor x) (low : -9223372036854775808 < k) : (k : Rat) ≤ x := by
  have h : k ≤ clampInt64 x.floor := h
  simp only [clampInt64] at h
  exact Rat.le_floor_iff.1 (by omega)

theorem lt_of_floor_lt (h : Scalar.floor x < k) (high : k ≤ 9223372036854775807) : x < (k : Rat) := by
  have h : clampInt64 x.floor < k := h
  simp only [clampInt64] at h
  exact Rat.floor_lt_iff.1 (by omega)

end

namespace Pixel.Grid

variable {g : Grid Rat} {p : Point Rat} {x y : Int}

/-- A grid has fewer columns and rows than coordinates can tell apart. -/
def Fits (g : Grid Rat) : Prop := g.width < 2 ^ 32 ∧ g.height < 2 ^ 32

/-- Where the texels show. Smooth reading takes each of them half a pixel further. -/
def footprint (g : Grid Rat) : (interpolate : Bool) → Rect Rat
  | false => ⟨0, 0, g.width, g.height⟩
  | true => ⟨-(1 / 2), -(1 / 2), g.width + 1 / 2, g.height + 1 / 2⟩

theorem inside_of_texel (h : g.texel x y ≠ .transparent) :
    0 ≤ x ∧ x < g.width ∧ 0 ≤ y ∧ y < g.height := by
  by_contra outside
  exact h (if_pos (by omega))

theorem holds_of_nearest (fits : g.Fits) (h : g.nearest p ≠ .transparent) :
    (g.footprint false).Holds p := by
  obtain ⟨left, right, top, bottom⟩ := inside_of_texel (g := g) h
  obtain ⟨columns, rows⟩ := fits
  refine ⟨?_, ?_, ?_, ?_⟩
  · simpa [footprint] using le_of_le_floor left (by omega)
  · simpa [footprint] using (lt_of_floor_lt right (by omega)).le
  · simpa [footprint] using le_of_le_floor top (by omega)
  · simpa [footprint] using (lt_of_floor_lt bottom (by omega)).le

theorem lerp_transparent (t : Rat) :
    Rgba.lerp (.transparent : Rgba Rat) .transparent t = .transparent := by
  have zero : (Scalar.zero : Rat) = 0 := rfl
  simp [Rgba.lerp, Rgba.transparent, zero]

/-- The blend of four texels in exact arithmetic. -/
theorem bilinear_eq {dx dy : Rat} (column : split (p.x - 1 / 2) = (x, dx))
    (row : split (p.y - 1 / 2) = (y, dy)) : g.bilinear p =
      Rgba.lerp (Rgba.lerp (g.texel x y) (g.texel (x + 1) y) dx)
        (Rgba.lerp (g.texel x (y + 1)) (g.texel (x + 1) (y + 1)) dx) dy := by
  have half : (Scalar.half : Rat) = 1 / 2 := rfl
  rw [bilinear, half, column, row]
  exact if_neg Bool.false_ne_true

/-- Smooth reading shows something only if one of the four texels around the point does. -/
theorem inside_of_bilinear (h : g.bilinear p ≠ .transparent) :
    -1 ≤ Scalar.floor (p.x - 1 / 2) ∧ Scalar.floor (p.x - 1 / 2) < g.width ∧
      -1 ≤ Scalar.floor (p.y - 1 / 2) ∧ Scalar.floor (p.y - 1 / 2) < g.height := by
  by_contra outside
  have around (i j : Int) (hi : i = 0 ∨ i = 1) (hj : j = 0 ∨ j = 1) :
      g.texel (Scalar.floor (p.x - 1 / 2) + i) (Scalar.floor (p.y - 1 / 2) + j) = .transparent :=
    if_pos (by omega)
  have here := around 0 0 (.inl rfl) (.inl rfl)
  have right := around 1 0 (.inr rfl) (.inl rfl)
  have under := around 0 1 (.inl rfl) (.inr rfl)
  have across := around 1 1 (.inr rfl) (.inr rfl)
  simp only [Int.add_zero] at here right under
  refine h ?_
  rw [bilinear_eq rfl rfl, here, right, under, across]
  simp only [lerp_transparent]

theorem holds_of_bilinear (fits : g.Fits) (h : g.bilinear p ≠ .transparent) :
    (g.footprint true).Holds p := by
  obtain ⟨left, right, top, bottom⟩ := inside_of_bilinear h
  obtain ⟨columns, rows⟩ := fits
  have left := le_of_le_floor left (by omega)
  have right := lt_of_floor_lt right (by omega)
  have top := le_of_le_floor top (by omega)
  have bottom := lt_of_floor_lt bottom (by omega)
  push_cast at left right top bottom
  refine ⟨?_, ?_, ?_, ?_⟩ <;> simp only [footprint] <;> linarith

/-- A picture shows nothing outside its footprint. -/
theorem holds_of_sample {interpolate : Bool} (fits : g.Fits)
    (h : g.sample interpolate p ≠ .transparent) : (g.footprint interpolate).Holds p := by
  cases interpolate with
  | false => exact holds_of_nearest fits h
  | true => exact holds_of_bilinear fits h

theorem lerp_zero (c d : Rgba Rat) : Rgba.lerp c d 0 = c := by
  simp [Rgba.lerp]

/-- The first texel of a row shows on its left when it is read smoothly. -/
theorem bilinear_left {j : Nat} (fits : g.Fits) (row : j < g.height)
    (seen : g.texel 0 j ≠ .transparent) :
    g.bilinear (⟨-(1 / 4), j + 1 / 2⟩ : Point Rat) ≠ .transparent := by
  have column : split (-(1 / 4) - 1 / 2 : Rat) = (-1, 1 / 4) := by decide +kernel
  have line : split ((j : Rat) + 1 / 2 - 1 / 2) = ((j : Int), 0) := by
    have whole : ((j : Int) : Rat).floor = j := Rat.floor_intCast j
    have inside : clampInt64 j = j := by
      have := fits.2
      simp only [clampInt64]
      omega
    rw [add_sub_cancel_right]
    refine Prod.ext ?_ ?_
    · exact (congrArg clampInt64 whole).trans inside
    · exact (congrArg (fun n : Int => (j : Rat) - n) whole).trans (sub_self _)
  have outside : g.texel (-1) j = .transparent := if_pos (by omega)
  rw [bilinear_eq (p := ⟨-(1 / 4), j + 1 / 2⟩) column line, lerp_zero, outside]
  intro none_
  refine seen ?_
  have zero : (Scalar.zero : Rat) = 0 := rfl
  cases texel : g.texel 0 j
  simpa [texel, Rgba.lerp, Rgba.transparent, zero] using none_

end Pixel.Grid

namespace Graph

/-! ## Canvases -/

/-- The grid covers the extent, and is less than a pixel longer. -/
structure Canvas.Fits (c : Canvas Rat Rat) : Prop where
  grid : c.grid.Fits
  columns : c.extent.width ≤ c.grid.width ∧ c.grid.width < c.extent.width + 1
  rows : c.extent.height ≤ c.grid.height ∧ c.grid.height < c.extent.height + 1

namespace Canvas

variable {c : Canvas Rat Rat} {length : Rat} {n : Nat}

theorem pixels?_eq_some (h : pixels? length = some n) (nonneg : 0 ≤ length) :
    n < 2 ^ 32 ∧ length ≤ n ∧ (n : Rat) < length + 1 := by
  dsimp only [pixels?] at h
  split at h
  · next small =>
    cases h
    have ceiling : Scalar.ceiling length = - clampInt64 (-length).floor := rfl
    rw [ceiling] at small ⊢
    have floor : (-length).floor ≤ 0 := by
      have below := Rat.floor_le (-length)
      have : ((-length).floor : Rat) ≤ (0 : Int) := by push_cast; linarith
      exact_mod_cast this
    obtain ⟨count, eq⟩ : ∃ count : Nat, (-length).floor = -count := ⟨(-length).floor.natAbs, by omega⟩
    have few : - clampInt64 (-length).floor = count := by
      simp only [clampInt64] at small ⊢
      omega
    rw [few, Int.toNat_natCast]
    rw [few] at small
    have low := Rat.floor_le (-length)
    have high := Rat.lt_floor_add_one (-length)
    rw [eq] at low high
    push_cast at low high
    exact ⟨by omega, by linarith, by linarith⟩
  · cases h

theorem Made.fits (made : c.Made) : c.Fits := by
  obtain ⟨allocates, c₀, new, width, height⟩ := made
  obtain ⟨-, -, -, wide, high, columns, rows⟩ := new_eq_ok new
  have zero : (Scalar.zero : Rat) = 0 := rfl
  rw [← Bool.not_eq_true, less_iff_lt, zero, not_lt] at wide high
  obtain ⟨few, columns⟩ := pixels?_eq_some (width ▸ columns) wide
  obtain ⟨few', rows⟩ := pixels?_eq_some (height ▸ rows) high
  exact ⟨⟨few, few'⟩, columns, rows⟩

end Canvas

/-- All canvases of the store have grids that fit. -/
def Store.Fits (s : Store Rat Rat) : Prop := ∀ c ∈ s.canvases, c.Fits

theorem Reached.fits {run : Nat → Runner Rat Rat} {ops : List (Operation Rat Rat)}
    {s : Store Rat Rat} (h : Reached run ops s) : s.Fits :=
  fun c there => (h.made c there).fits

/-! ## Footprints -/

/-- Where a canvas shows: as far as its grid goes. -/
def Canvas.footprint (c : Canvas Rat Rat) : Rect Rat :=
  ⟨c.extent.x0, c.extent.y0, c.extent.x0 + c.grid.width, c.extent.y0 + c.grid.height⟩

theorem Canvas.holds_of_sample {c : Canvas Rat Rat} {p : Point Rat} (fits : c.Fits)
    (h : c.grid.sample false (⟨p.x - c.extent.x0, p.y - c.extent.y0⟩ : Point Rat) ≠ .transparent) :
    c.footprint.Holds p := by
  obtain ⟨left, right, top, bottom⟩ := Pixel.Grid.holds_of_sample fits.grid h
  simp only [Pixel.Grid.footprint] at left right top bottom
  refine ⟨?_, ?_, ?_, ?_⟩ <;> simp only [Canvas.footprint] <;> linarith

/-- The extent of a canvas of whole pixels is that of its grid. -/
theorem Canvas.footprint_eq {c : Canvas Rat Rat} {width height : Nat} (fits : c.Fits)
    (wide : c.extent.width = width) (high : c.extent.height = height) : c.footprint = c.extent := by
  obtain ⟨-, ⟨least, most⟩, least', most'⟩ := fits
  rw [wide] at least most
  rw [high] at least' most'
  have columns : c.grid.width = width := by
    have : width ≤ c.grid.width := by exact_mod_cast least
    have : c.grid.width < width + 1 := by exact_mod_cast most
    omega
  have rows : c.grid.height = height := by
    have : height ≤ c.grid.height := by exact_mod_cast least'
    have : c.grid.height < height + 1 := by exact_mod_cast most'
    omega
  have across : c.extent.x0 + c.extent.width = c.extent.x1 := add_sub_cancel ..
  have down : c.extent.y0 + c.extent.height = c.extent.y1 := add_sub_cancel ..
  rw [footprint, columns, rows, ← wide, ← high, across, down]

namespace Store

/-- An image of moved and cropped pictures, and where it may show: what the rules of extents make of
    the regions in which its pictures show. -/
inductive Footprint (s : Store Rat Rat) : Nat → Rect Rat → Prop where
  | empty {n} (node : s.node n = .empty) : s.Footprint n .plane
  | buffer {n b} (node : s.node n = .buffer b) (fits : b.grid.Fits) :
      s.Footprint n (b.grid.footprint b.interpolate)
  | canvas {n c canvas} (node : s.node n = .canvas c) (there : s.canvases[c]? = some canvas) :
      s.Footprint n canvas.footprint
  | transform {n child t r} (node : s.node n = .transform child t) (regular : t.inverse?.isSome)
      (below : s.Footprint child r) : s.Footprint n (t.mapExtent r)
  | crop {n child rect r} (node : s.node n = .crop child rect) (below : s.Footprint child r) :
      s.Footprint n (r.intersect rect)

/-- An image of moved and cropped pictures that show in their extents only: pictures that are not
    read smoothly and report no other extent, and canvases of whole pixels. -/
inductive Sharp (s : Store Rat Rat) : Nat → Prop where
  | empty {n} (node : s.node n = .empty) : s.Sharp n
  | buffer {n b} (node : s.node n = .buffer b) (fits : b.grid.Fits) (own : b.reported = none)
      (rough : b.interpolate = false) : s.Sharp n
  | canvas {n c canvas} {width height : Nat} (node : s.node n = .canvas c)
      (there : s.canvases[c]? = some canvas) (wide : canvas.extent.width = width)
      (high : canvas.extent.height = height) : s.Sharp n
  | transform {n child t} (node : s.node n = .transform child t) (regular : t.inverse?.isSome)
      (below : s.Sharp child) : s.Sharp n
  | crop {n child rect} (node : s.node n = .crop child rect) (below : s.Sharp child) : s.Sharp n

variable {s : Store Rat Rat} {n : Nat} {r : Rect Rat}

/-- Nothing is wrong with an image of moved and cropped pictures. -/
theorem Footprint.plannable (wired : s.Wired) (h : s.Footprint n r) : s.Plannable n := by
  rw [wired.plannable_iff]
  generalize s.place [n] = place
  induction h with
  | empty node | buffer node | canvas node => rw [wired.faults_eq, faultsOf, node]
  | transform node regular below ih =>
      rw [isSome_inverse?_iff] at regular
      rw [wired.faults_eq, faultsOf, node]
      simp [ih, regular]
  | crop node below ih =>
      rw [wired.faults_eq, faultsOf, node]
      exact ih

/-- A planned picture shows its texels. -/
theorem Planned.colour_buffer {p : Planner Rat Rat} {plan : Plan Rat Rat} (planned : s.Planned p)
    (nodes : plan.nodes = p.nodes) {b : Buffer Rat Rat} (node : s.node n = .buffer b) {i : Nat}
    (there : (n, i) ∈ p.planned) (run : Runner Rat Rat) (point : Point Rat) :
    plan.colour run i point = .ok (b.grid.sample b.interpolate point) := by
  obtain ⟨op, found, depicts⟩ := planned.stands there
  rw [node] at depicts
  exact depicts.colour_buffer (nodes ▸ found) (fun v => sub_zero v) run point

/-- A node of a plan shows nothing outside its footprint. -/
theorem Planned.covers {p : Planner Rat Rat} {plan : Plan Rat Rat} (planned : s.Planned p)
    (fits : s.Fits) (nodes : plan.nodes = p.nodes) (h : s.Footprint n r) {i : Nat}
    (there : (n, i) ∈ p.planned) {run : Runner Rat Rat} {point : Point Rat}
    (seen : plan.colour run i point ≠ .ok .transparent) : r.Covers point := by
  induction h generalizing i point with
  | empty => exact Rect.covers_plane
  | buffer node fits =>
    rw [planned.colour_buffer nodes node there, ne_eq, Except.ok.injEq] at seen
    exact .inr (Pixel.Grid.holds_of_sample fits seen)
  | @canvas n c canvas node shown =>
    obtain ⟨op, found, depicts⟩ := planned.stands there
    rw [node] at depicts
    rw [Plan.colour, nodes, found] at seen
    cases depicts with
    | noCanvas none_ => rw [none_] at shown; cases shown
    | canvas shown' =>
        rw [shown] at shown'
        cases shown'
        simp only [ne_eq, Except.ok.injEq] at seen
        exact .inr (Canvas.holds_of_sample (fits canvas (Array.mem_of_getElem? shown)) seen)
  | transform node regular below ih =>
    obtain ⟨op, found, depicts⟩ := planned.stands there
    rw [node] at depicts
    rw [Plan.colour, nodes, found] at seen
    cases depicts with
    | transform placed before invertible =>
        simp only [before, dif_pos] at seen
        exact Affine.covers_mapExtent invertible (ih placed seen)
  | crop node below ih =>
    obtain ⟨op, found, depicts⟩ := planned.stands there
    rw [node] at depicts
    rw [Plan.colour, nodes, found] at seen
    cases depicts with
    | crop placed before =>
        dsimp only at seen
        split at seen
        · next inside =>
          exact (ih placed seen).intersect (.inr (Rect.holds_of_contains inside))
        · exact absurd rfl seen

/-- The footprint of an image that shows in extents only is its own extent. -/
theorem Sharp.footprint (wired : s.Wired) (fits : s.Fits) (h : s.Sharp n) :
    s.Footprint n (s.extent n) := by
  induction h with
  | empty node =>
      rw [wired.extent_eq, extentOf, node]
      exact .empty node
  | @buffer n b node fits own rough =>
      have extent : s.extent n = b.grid.footprint b.interpolate := by
        have zero : (Scalar.zero : Rat) = 0 := rfl
        rw [wired.extent_eq, extentOf, node, rough]
        simp only [Buffer.extent, own, Option.getD_none, Rect.ofOriginSize, zero, zero_add]
        rfl
      rw [extent]
      exact .buffer node fits
  | @canvas n c canvas width height node shown wide high =>
      have extent : s.extent n = canvas.footprint := by
        rw [wired.extent_eq, extentOf, node,
          Canvas.footprint_eq (fits canvas (Array.mem_of_getElem? shown)) wide high]
        simp only [shown, Option.map_some, Option.getD_some]
      rw [extent]
      exact .canvas node shown
  | transform node regular below ih =>
      rw [wired.extent_eq, extentOf, node]
      exact .transform node regular ih
  | crop node below ih =>
      rw [wired.extent_eq, extentOf, node]
      exact .crop node ih

/-- The image can be planned where the limit on the depth allows all ways down, and what does not
    lie in the region is transparent. -/
structure ClearBeyond (s : Store Rat Rat) (n : Nat) (r : Rect Rat) : Prop where
  planned : ∀ limits, (∀ l m, s.Path n l m → l ≤ limits.depth) →
    ∃ plan, Plan.forImage s limits n = .ok plan
  clear : ∀ limits plan, Plan.forImage s limits n = .ok plan →
    ∀ run p, ¬ r.Covers p → plan.rootColour run p = .ok .transparent

theorem Footprint.clearBeyond (wired : s.Wired) (fits : s.Fits) (h : s.Footprint n r) :
    s.ClearBeyond n r where
  planned limits within := (wired.plansExactly.images limits n within).2 (h.plannable wired)
  clear limits plan accepted run p outside := by
    obtain ⟨planner, nodes, visited⟩ := wired.forImage_ok accepted
    by_contra seen
    exact outside (visited.planned.covers fits nodes h visited.found seen)

/-- Where images of moved and cropped pictures show. -/
structure ShowsWithin (s : Store Rat Rat) : Prop where
  footprint : ∀ n r, s.Footprint n r → s.ClearBeyond n r
  extent : ∀ n, s.Sharp n → s.ClearBeyond n (s.extent n)
  /-- The grid of a canvas goes beyond its extent by less than a pixel. -/
  canvases : ∀ c ∈ s.canvases, c.Fits
  /-- A picture that is read smoothly shows beyond its extent where its first column shows. -/
  smooth : ∀ n b, s.node n = .buffer b → b.grid.Fits → b.reported = none → b.interpolate = true →
    ∀ j < b.grid.height, b.grid.texel 0 j ≠ .transparent →
    ∀ limits plan, Plan.forImage s limits n = .ok plan → ∀ run,
      ¬ (s.extent n).Holds ⟨-(1 / 4), j + 1 / 2⟩ ∧
      plan.rootColour run ⟨-(1 / 4), j + 1 / 2⟩ ≠ .ok .transparent

end Store

/-- Whatever is done to a store, images of moved and cropped pictures are transparent outside their
    footprints, which are their extents if nothing is read smoothly and canvases are whole. -/
theorem Reached.shows_within {run : Nat → Runner Rat Rat} {ops : List (Operation Rat Rat)}
    {s : Store Rat Rat} (h : Reached run ops s) : s.ShowsWithin where
  footprint n r foot := foot.clearBeyond (.of_reached h) h.fits
  extent n sharp := (sharp.footprint (.of_reached h) h.fits).clearBeyond (.of_reached h) h.fits
  canvases := h.fits
  smooth n b node fits own smooth j row seen limits plan accepted run := by
    have wired := Store.Wired.of_reached h
    obtain ⟨planner, nodes, visited⟩ := wired.forImage_ok accepted
    have zero : (Scalar.zero : Rat) = 0 := rfl
    constructor
    · intro inside
      have left := inside.left
      rw [wired.extent_eq, Store.extentOf, node] at left
      simp only [Buffer.extent, own, Option.getD_none, Rect.ofOriginSize, zero] at left
      norm_num at left
    · rw [Plan.rootColour, visited.planned.colour_buffer nodes node visited.found, smooth]
      exact fun none_ => Pixel.Grid.bilinear_left fits row seen (Except.ok.inj none_)

/-- A pixel that is read smoothly. -/
def smoothPixel : Buffer Rat Rat := ⟨.filled 1 1 ⟨1, 1, 1, 1⟩, none, true⟩

/-- The pixel, and the same moved to the right. -/
def movedPixel : Store Rat Rat where
  kernels := #[]
  nodes := #[.buffer smoothPixel, .transform 0 (.displacement 3 0)]
  canvases := #[]
  subscriptions := 0

theorem reached_movedPixel : Reached (fun _ _ _ _ _ => .ok .transparent)
    [.newNode (.transform 0 (.displacement 3 0)), .newNode (.buffer smoothPixel)] movedPixel :=
  have pixel : Reached (fun _ _ _ _ _ => .ok .transparent) [.newNode (.buffer smoothPixel)]
      { movedPixel with nodes := #[.buffer smoothPixel] } := .step .new trivial
  .step pixel (show 0 < (#[.buffer smoothPixel] : Array (Node Rat Rat)).size by decide)

/-- Its extent goes from 3 to 4, and it shows from 2.5 to 4.5. -/
theorem movedPixel_shows : movedPixel.ShowsWithin ∧
    movedPixel.extent 1 = ⟨3, 0, 4, 1⟩ ∧ movedPixel.ClearBeyond 1 ⟨5 / 2, -1 / 2, 9 / 2, 3 / 2⟩ := by
  have within := reached_movedPixel.shows_within
  have pixel : movedPixel.Footprint 0 (smoothPixel.grid.footprint true) :=
    .buffer rfl ⟨by decide, by decide⟩
  have moved : movedPixel.Footprint 1
      ((Affine.displacement 3 0).mapExtent (smoothPixel.grid.footprint true)) :=
    .transform rfl (by decide +kernel) pixel
  have region : (Affine.displacement 3 0).mapExtent (smoothPixel.grid.footprint true) =
      ⟨5 / 2, -1 / 2, 9 / 2, 3 / 2⟩ := by decide +kernel
  exact ⟨within, by decide +kernel, region ▸ within.footprint 1 _ moved⟩

end Graph
end PixelKernel
