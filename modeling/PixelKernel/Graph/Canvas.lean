import PixelKernel.Graph.Evaluate
import PixelKernel.Pixel.Layout

/-! # Canvases

A canvas keeps its extent and its grid size for good. Drawing an image lays the image's
colours over the pixels; the image is read as it was when drawing began, so a canvas can
be drawn onto itself. Drawing that fails leaves the canvas alone.
-/

namespace PixelKernel.Graph

open Pixel (Grid)

namespace Canvas

variable {κ χ : Type} [Scalar κ] [Scalar χ]

/-- Pixels that cover a length, if a grid can have so many. -/
def pixels? (length : κ) : Option Nat :=
  let n := Scalar.ceiling length
  if n < 2 ^ 32 then some n.toNat else none

/-- Bytes of a texel, four single-precision channels. -/
def texelBytes : Nat := 16

/-- A transparent canvas; its grid covers the extent. Whether there is memory for so many bytes
    is up to the allocator, here one of 64 GiB unless another one is given. -/
def new (extent : Rect κ) (limits : Limits)
    (allocates : Nat → Bool := fun bytes => bytes < 2 ^ 36) : Except Fault (Canvas κ χ) := do
  if !extent.isFinite || extent.isInfinite || Scalar.less extent.width Scalar.zero
      || Scalar.less extent.height Scalar.zero then
    throw (.invalidGraph (.canvasExtent extent.text))
  match pixels? extent.width, pixels? extent.height with
  | some width, some height =>
    let bytes := width * height * texelBytes
    if bytes ≥ 2 ^ 63 then throw (.invalidGraph (.gridTooLarge width height))
    if !allocates bytes then throw (.invalidGraph (.gridMemory width height))
    return ⟨extent, limits, .filled width height Rgba.transparent⟩
  | _, _ => throw (.invalidGraph (.canvasTooLarge extent.text))

/-- An extent at the origin that is as large as its grid. -/
def sized (width height : Nat) : Rect κ :=
  .ofOriginSize Scalar.zero Scalar.zero (Scalar.ofNat width) (Scalar.ofNat height)

/-- Every pixel takes the colour. -/
def clear (c : Canvas κ χ) (colour : Rgba χ) : Canvas κ χ :=
  { c with grid := c.grid.fill colour }

/-- Middle of a pixel, which is one unit wide and high. -/
def pixelCenter (c : Canvas κ χ) (column row : Nat) : Point κ :=
  ⟨c.extent.x0 + Scalar.ofNat column + Scalar.half, c.extent.y0 + Scalar.ofNat row + Scalar.half⟩

/-- Lays the colours that `source` gives over the pixels. -/
def overlay {ε : Type} (c : Canvas κ χ) (source : Point κ → Except ε (Rgba χ)) :
    Except ε (Canvas κ χ) := do
  let grid ← Grid.build c.grid.width c.grid.height fun column row => do
    let src ← source (c.pixelCenter column row)
    return src.onto (c.grid.texel column row)
  return { c with grid }

end Canvas

namespace Store

variable {κ χ : Type} [Scalar κ] [Scalar χ] [Narrow κ χ]

def addCanvas (s : Store κ χ) (c : Canvas κ χ) : Nat × Store κ χ :=
  (s.canvases.size, { s with canvases := s.canvases.push c })

def setCanvas (s : Store κ χ) (i : Nat) (c : Canvas κ χ) : Store κ χ :=
  { s with canvases := s.canvases.setIfInBounds i c }

def clear (s : Store κ χ) (i : Nat) (colour : Rgba χ) : Store κ χ :=
  match s.canvases[i]? with
  | none => s
  | some c => s.setCanvas i (c.clear colour)

/-- The canvas after an image is drawn on it with the image's origin at `origin`. -/
def drawn (s : Store κ χ) (run : Nat → Runner κ χ) (c : Canvas κ χ) (n : Nat)
    (origin : Point κ) : Except Fault (Canvas κ χ) := do
  let plan ← Plan.forImage s c.limits n
  let colour := plan.rootColour (run c.limits.instructions)
  (c.overlay fun p => colour ⟨p.x - origin.x, p.y - origin.y⟩).mapError Fault.ofTrap

/-- Draws an image on a canvas. -/
def composite (s : Store κ χ) (run : Nat → Runner κ χ) (i n : Nat) (origin : Point κ) :
    Except Fault Unit × Store κ χ :=
  match s.canvases[i]? with
  | none => (.ok (), s)
  | some c =>
    match s.drawn run c n origin with
    | .error fault => (.error fault, s)
    | .ok c => (.ok (), s.setCanvas i c)

end Store

/-- Writes the pixels of a canvas into a buffer laid out for the same grid. -/
def Canvas.read (c : Canvas Float Float32) (l : Pixel.Layout) (data : ByteArray) :
    Except Fault ByteArray := do
  if l.width ≠ c.grid.width ∨ l.height ≠ c.grid.height then
    throw (.format (.canvasSize c.grid.width c.grid.height l.width l.height))
  l.encode c.grid.texels data

end PixelKernel.Graph
