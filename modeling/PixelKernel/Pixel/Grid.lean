import PixelKernel.Colour
import PixelKernel.Fault
import PixelKernel.Geometry.Rect

/-! # Pixel grids

Texels in rows. Texel `(i, j)` covers the square from `(i, j)` to `(i + 1, j + 1)`; around
the grid all is transparent.
-/

namespace PixelKernel.Pixel

structure Grid (χ : Type) where
  width : Nat
  height : Nat
  texels : Array (Rgba χ)
  /-- There is a texel for every place. -/
  full : texels.size = width * height
  deriving DecidableEq

namespace Grid

variable {κ χ : Type} [Scalar κ] [Scalar χ] [Narrow κ χ]

/-- A grid of the given texels, if their number is right. -/
def ofTexels (width height : Nat) (texels : Array (Rgba χ)) : Except Fault (Grid χ) :=
  if h : texels.size = width * height then .ok ⟨width, height, texels, h⟩
  else .error (.format (.imageTexels width height (width * height) texels.size))

def filled (width height : Nat) (c : Rgba χ) : Grid χ :=
  ⟨width, height, Array.replicate (width * height) c, Array.size_replicate⟩

/-- Replaces every texel. -/
def fill (g : Grid χ) (c : Rgba χ) : Grid χ := filled g.width g.height c

/-- The texel in a column and a row, if there is one. -/
def texel? (g : Grid χ) (x y : Nat) : Option (Rgba χ) :=
  if x < g.width ∧ y < g.height then g.texels[y * g.width + x]? else none

/-- The texel at integer coordinates; transparent outside the grid. -/
def texel (g : Grid χ) (x y : Int) : Rgba χ :=
  if x < 0 ∨ y < 0 ∨ (g.width : Int) ≤ x ∨ (g.height : Int) ≤ y then Rgba.transparent
  else g.texels.getD (y.toNat * g.width + x.toNat) Rgba.transparent

/-- The texel whose square holds the point. -/
def nearest (g : Grid χ) (p : Point κ) : Rgba χ :=
  if !Scalar.finite p.x || !Scalar.finite p.y then Rgba.transparent
  else g.texel (Scalar.floor p.x) (Scalar.floor p.y)

/-- Floor of a number and what is above it. -/
def split (v : κ) : Int × κ :=
  (Scalar.floor v, v - Scalar.whole v)

/-- Blend of the four texels whose centers surround the point. -/
def bilinear (g : Grid χ) (p : Point κ) : Rgba χ :=
  if !Scalar.finite p.x || !Scalar.finite p.y then Rgba.transparent
  else
    let (x, dx) := split (p.x - Scalar.half)
    let (y, dy) := split (p.y - Scalar.half)
    let tx : χ := Narrow.narrow dx
    let ty : χ := Narrow.narrow dy
    let top := Rgba.lerp (g.texel x y) (g.texel (x + 1) y) tx
    let bottom := Rgba.lerp (g.texel x (y + 1)) (g.texel (x + 1) (y + 1)) tx
    Rgba.lerp top bottom ty

def sample (g : Grid χ) (interpolate : Bool) (p : Point κ) : Rgba χ :=
  if interpolate then g.bilinear p else g.nearest p

/-- Texels row by row. -/
def rows (g : Grid χ) : List (List (Rgba χ)) :=
  if g.width = 0 then List.replicate g.height []
  else (List.range g.height).map fun y =>
    (List.range g.width).map fun x => g.texels.getD (y * g.width + x) Rgba.transparent

/-- A grid of the texels that `f` gives for columns and rows, asked row by row. The first
    failure ends it. -/
def build {ε : Type} (width height : Nat) (f : Nat → Nat → Except ε (Rgba χ)) :
    Except ε (Grid χ) := do
  let texels ← Vector.ofFnM fun i : Fin (width * height) => f (i % width) (i / width)
  return ⟨width, height, texels.toArray, texels.size_toArray⟩

end Grid
end PixelKernel.Pixel
