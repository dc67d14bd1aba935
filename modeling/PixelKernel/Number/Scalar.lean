import PixelKernel.Decimal.Text

/-! # Scalars

The arithmetic that geometry and colour need, over any number type. Coordinates run at
`Float` and channels at `Float32`; the same definitions at `Rat` are exact arithmetic,
where their algebraic laws can be stated.
-/

namespace PixelKernel

class Scalar (α : Type) extends Add α, Sub α, Mul α, Div α, Neg α, BEq α where
  ofNat : Nat → α
  less : α → α → Bool
  atMost : α → α → Bool
  finite : α → Bool
  /-- Floor, held in the signed 64-bit range. -/
  floor : α → Int
  /-- Floor as a number of the same kind. -/
  whole : α → α
  text : Decimal.Style → α → String

namespace Scalar

variable {α : Type} [Scalar α]

@[inline] def zero : α := ofNat 0

@[inline] def one : α := ofNat 1

@[inline] def half : α := (one : α) / ofNat 2

/-- Only a NaN is not at most itself. -/
@[inline] def isNaN (a : α) : Bool := !atMost a a

/-- The lesser operand; a NaN yields to the other one. -/
@[inline] def min (a b : α) : α :=
  if isNaN a then b else if isNaN b then a else if less b a then b else a

/-- The greater operand; a NaN yields to the other one. -/
@[inline] def max (a b : α) : α :=
  if isNaN a then b else if isNaN b then a else if less a b then b else a

/-- Least integer that is not below `a`. -/
def ceiling (a : α) : Int := -floor (-a)

@[inline] def abs (a : α) : α := if less a zero then -a else a

/-- `a` held between `lo` and `hi`; a NaN stays. -/
@[inline] def clamp (a lo hi : α) : α :=
  if less a lo then lo else if less hi a then hi else a

end Scalar

instance : Scalar Float where
  ofNat := Float.ofNat
  less a b := a < b
  atMost a b := a ≤ b
  finite := Float.isFinite
  floor x := (Binary.ofFloat x).floor64
  whole x :=
    let n := (Binary.ofFloat x).floor64
    if n.natAbs < 2 ^ 53 then Float.ofInt n else x
  text := Decimal.textFloat

instance : Scalar Float32 where
  ofNat := Float32.ofNat
  less a b := a < b
  atMost a b := a ≤ b
  finite := Float32.isFinite
  floor x := (Binary.ofFloat32 x).floor64
  whole x :=
    let n := (Binary.ofFloat32 x).floor64
    if n.natAbs < 2 ^ 24 then Float32.ofInt n else x
  text := Decimal.textFloat32

instance : Scalar Rat where
  ofNat n := (n : Rat)
  less a b := a < b
  atMost a b := a ≤ b
  finite _ := true
  floor x := clampInt64 x.floor
  whole x := x.floor
  text _ x := toString x

/-- Carries coordinates to channels and back. -/
class Narrow (κ χ : Type) where
  narrow : κ → χ
  widen : χ → κ

instance : Narrow Float Float32 := ⟨Binary.narrow, Float32.toFloat⟩

instance : Narrow Rat Rat := ⟨id, id⟩

end PixelKernel
