import PixelKernel.Graph.Canvas
import PixelKernel.Pixel.Layout

/-! # Rendering

An image is rendered by its colours at the pixel centers of a grid laid over a rectangle.
A kernel that emits is run at the same points for its records. Either all pixels succeed
or there is no result.
-/

namespace PixelKernel.Graph

open PixelKernel.Language (Trap)
open Pixel (Grid Layout)

namespace Plan

/-- Colours of the root at the pixel centers of a grid over a rectangle. -/
def render {κ χ : Type} [Scalar κ] [Scalar χ] [Narrow κ χ] (plan : Plan κ χ)
    (run : Runner κ χ) (rect : Rect κ) (width height : Nat) : Except Trap (Grid χ) :=
  Grid.build width height fun column row =>
    plan.rootColour run (rect.pixelCenter width height column row)

/-- Records of the root at the last `left` pixels, added to those of the pixels before. -/
def recordsOf (plan : Plan Float Float32) (budget : Nat) (rect : Rect Float)
    (width height : Nat) :
    (left : Nat) → Array (Rgba Float32) → Except Trap (Array (Rgba Float32))
  | 0, rs => .ok rs
  | left + 1, rs => do
    let i := width * height - (left + 1)
    let rs ← plan.emit budget (rect.pixelCenter width height (i % width) (i / width)) rs
    recordsOf plan budget rect width height left rs

/-- Records of the root, pixel by pixel in rows. -/
def records (plan : Plan Float Float32) (budget : Nat) (rect : Rect Float)
    (width height : Nat) : Except Trap (Array (Rgba Float32)) :=
  plan.recordsOf budget rect width height (width * height) #[]

end Plan

namespace Store

/-- Colours of an image over a rectangle, which has to be finite. -/
def render {κ χ : Type} [Scalar κ] [Scalar χ] [Narrow κ χ] (s : Store κ χ)
    (run : Nat → Runner κ χ) (limits : Limits) (n : Nat) (rect : Rect κ) (width height : Nat) :
    Except Fault (Grid χ) := do
  if !rect.isFinite then throw (.format (.rectNotFinite rect.text))
  let plan ← Plan.forImage s limits n
  (plan.render (run limits.instructions) rect width height).mapError Fault.ofTrap

/-- Renders an image into the pixels of a buffer. -/
def renderInto (s : Store Float Float32) (limits : Limits) (n : Nat) (rect : Rect Float)
    (l : Layout) (data : ByteArray) : Except Fault ByteArray := do
  l.validate data.size
  let grid ← s.render runForColour limits n rect l.width l.height
  l.encode grid.texels data

/-- Renders an image into packed bytes. -/
def renderPacked (s : Store Float Float32) (limits : Limits) (n : Nat) (rect : Rect Float)
    (width height : Nat) (format : Pixel.Format) : Except Fault ByteArray :=
  s.renderInto limits n rect (.packed width height format)
    (Pixel.Layout.blank (width * height * format.bytesPerPixel) 0)

/-- Records that a kernel emits over a rectangle. -/
def reduce (s : Store Float Float32) (limits : Limits) (k : Option Nat) (rect : Rect Float)
    (width height : Nat) : Except Fault (Array (Rgba Float32)) := do
  match k with
  | none => throw (.invalidGraph .noKernel)
  | some k =>
    let plan ← Plan.forRecords s limits k
    (plan.records limits.instructions rect width height).mapError Fault.ofTrap

end Store
end PixelKernel.Graph
