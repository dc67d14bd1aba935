import PixelKernel.Number.Scalar

/-! # Colours

Four channels, normally premultiplied by alpha.
-/

namespace PixelKernel

structure Rgba (χ : Type) where
  r : χ
  g : χ
  b : χ
  a : χ
  deriving Repr, BEq, DecidableEq

namespace Rgba

variable {χ : Type} [Scalar χ]

open Scalar (zero one)

def transparent : Rgba χ := ⟨zero, zero, zero, zero⟩

/-- Straight to premultiplied. -/
def premultiply (c : Rgba χ) : Rgba χ := ⟨c.r * c.a, c.g * c.a, c.b * c.a, c.a⟩

/-- Premultiplied to straight; without alpha there is no colour left. -/
def unpremultiply (c : Rgba χ) : Rgba χ :=
  if Scalar.atMost c.a zero then transparent
  else
    let i := one / c.a
    ⟨c.r * i, c.g * i, c.b * i, c.a⟩

/-- Source over destination, both premultiplied. -/
def onto (src dst : Rgba χ) : Rgba χ :=
  let k := one - src.a
  ⟨src.r + dst.r * k, src.g + dst.g * k, src.b + dst.b * k, src.a + dst.a * k⟩

/-- The point a share `t` of the way from `p` to `q`. -/
def lerp (p q : Rgba χ) (t : χ) : Rgba χ :=
  ⟨p.r + (q.r - p.r) * t, p.g + (q.g - p.g) * t, p.b + (q.b - p.b) * t, p.a + (q.a - p.a) * t⟩

end Rgba

/-- A share of one as a byte; what lies outside is held to it, and NaN counts as zero. -/
def byteOfUnit (v : Float32) : UInt8 :=
  (Binary.ofFloat32 (Scalar.clamp v 0 1 * 255)).nearestByte

def unitOfByte (b : UInt8) : Float32 := b.toFloat32 / 255

end PixelKernel
