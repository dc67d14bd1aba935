import PixelKernel.Number.Scalar

/-! # Points and rectangles

A rectangle is kept by its corners and may be inverted. Extents are rectangles read as
covered regions; one wide or tall enough stands for the whole plane.
-/

namespace PixelKernel

structure Point (κ : Type) where
  x : κ
  y : κ
  deriving Repr, BEq, DecidableEq

structure Size (κ : Type) where
  width : κ
  height : κ
  deriving Repr, BEq, DecidableEq

structure Rect (κ : Type) where
  x0 : κ
  y0 : κ
  x1 : κ
  y1 : κ
  deriving Repr, BEq, DecidableEq

namespace Rect

variable {κ : Type} [Scalar κ]

open Scalar (zero half)

def ofOriginSize (x y width height : κ) : Rect κ := ⟨x, y, x + width, y + height⟩

@[inline] def width (r : Rect κ) : κ := r.x1 - r.x0

@[inline] def height (r : Rect κ) : κ := r.y1 - r.y0

/-- The rectangle with no area at the origin. -/
def null : Rect κ := ⟨zero, zero, zero, zero⟩

/-- Half of the greatest single-precision number. -/
def reach : κ := half * Scalar.ofNat 0xffffff00000000000000000000000000

/-- The extent that stands for the whole plane. -/
def plane : Rect κ := ⟨-reach, -reach, reach, reach⟩

def isInfinite (r : Rect κ) : Bool :=
  Scalar.atMost reach r.width || Scalar.atMost reach r.height

def isEmpty (r : Rect κ) : Bool :=
  !(Scalar.less zero r.width && Scalar.less zero r.height)

/-- The left and top edges belong to the rectangle, the right and bottom ones do not. -/
def contains (r : Rect κ) (p : Point κ) : Bool :=
  Scalar.atMost r.x0 p.x && Scalar.less p.x r.x1 && Scalar.atMost r.y0 p.y && Scalar.less p.y r.y1

/-- Moves both ends of a span inwards; ends that cross meet in the middle. -/
def shrinkSpan (lo hi by' : κ) : κ × κ :=
  let lo := lo + by'
  let hi := hi - by'
  if Scalar.less hi lo then
    let mid := half * (lo + hi)
    (mid, mid)
  else (lo, hi)

/-- Shrinks a rectangle on each side; negative amounts grow it. -/
def inset (r : Rect κ) (dx dy : κ) : Rect κ :=
  if r.isInfinite then plane
  else
    let (x0, x1) := shrinkSpan r.x0 r.x1 dx
    let (y0, y1) := shrinkSpan r.y0 r.y1 dy
    ⟨x0, y0, x1, y1⟩

/-- Smallest rectangle around two others, corner by corner. -/
def hull (a b : Rect κ) : Rect κ :=
  ⟨Scalar.min a.x0 b.x0, Scalar.min a.y0 b.y0, Scalar.max a.x1 b.x1, Scalar.max a.y1 b.y1⟩

/-- Smallest extent that covers both; an empty one adds nothing. -/
def union (a b : Rect κ) : Rect κ :=
  if a.isInfinite || b.isInfinite then plane
  else if a.isEmpty then b
  else if b.isEmpty then a
  else hull a b

/-- Common part of two extents; disjoint ones share a rectangle without area. -/
def intersect (a b : Rect κ) : Rect κ :=
  if a.isInfinite then b
  else if b.isInfinite then a
  else
    let x0 := Scalar.max a.x0 b.x0
    let y0 := Scalar.max a.y0 b.y0
    ⟨x0, y0, Scalar.max (Scalar.min a.x1 b.x1) x0, Scalar.max (Scalar.min a.y1 b.y1) y0⟩

/-- The rectangle spanned by two corners in any order. -/
def ofCorners (p q : Point κ) : Rect κ :=
  ⟨Scalar.min p.x q.x, Scalar.min p.y q.y, Scalar.max p.x q.x, Scalar.max p.y q.y⟩

/-- All corners are finite numbers. -/
def isFinite (r : Rect κ) : Bool :=
  Scalar.finite r.x0 && Scalar.finite r.y0 && Scalar.finite r.x1 && Scalar.finite r.y1

/-- Middle of a pixel when the rectangle is divided into columns and rows. -/
def pixelCenter (r : Rect κ) (width height column row : Nat) : Point κ :=
  let sx := r.width / Scalar.ofNat (Nat.max width 1)
  let sy := r.height / Scalar.ofNat (Nat.max height 1)
  ⟨r.x0 + (Scalar.ofNat column + half) * sx, r.y0 + (Scalar.ofNat row + half) * sy⟩

/-- A rectangle in messages. -/
def text (r : Rect κ) : String :=
  let number := Scalar.text Decimal.Style.tagged
  "Rect \x7b x0: " ++ number r.x0 ++ ", y0: " ++ number r.y0 ++ ", x1: " ++ number r.x1
    ++ ", y1: " ++ number r.y1 ++ " \x7d"

end Rect
end PixelKernel
