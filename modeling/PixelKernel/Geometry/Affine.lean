import PixelKernel.Geometry.Rect

/-! # Affine maps of the plane

`(x, y) ↦ (a x + c y + e, b x + d y + f)`. Editing a map is relative to the map so far:
an appended map acts after it, a prepended one before it.
-/

namespace PixelKernel

structure Affine (κ : Type) where
  a : κ
  b : κ
  c : κ
  d : κ
  e : κ
  f : κ
  deriving Repr, BEq, DecidableEq

/-- A map written row by row: `x' = m11 x + m12 y + tx` and `y' = m21 x + m22 y + ty`. -/
structure Affine.Elements (κ : Type) where
  m11 : κ
  m12 : κ
  m21 : κ
  m22 : κ
  tx : κ
  ty : κ
  deriving Repr, BEq, DecidableEq

namespace Affine

variable {κ : Type} [Scalar κ]

open Scalar (zero one)

def ofElements (m : Elements κ) : Affine κ := ⟨m.m11, m.m21, m.m12, m.m22, m.tx, m.ty⟩

def elements (t : Affine κ) : Elements κ := ⟨t.a, t.c, t.b, t.d, t.e, t.f⟩

def identity : Affine κ := ⟨one, zero, zero, one, zero, zero⟩

def isIdentity (t : Affine κ) : Bool := t == identity

/-- The map that applies `s` and then `t`. -/
def after (t s : Affine κ) : Affine κ :=
  ⟨t.a * s.a + t.c * s.b, t.b * s.a + t.d * s.b,
    t.a * s.c + t.c * s.d, t.b * s.c + t.d * s.d,
    t.a * s.e + t.c * s.f + t.e, t.b * s.e + t.d * s.f + t.f⟩

def append (t other : Affine κ) : Affine κ := other.after t

def prepend (t other : Affine κ) : Affine κ := t.after other

def scaling (sx sy : κ) : Affine κ := ⟨sx, zero, zero, sy, zero, zero⟩

def displacement (tx ty : κ) : Affine κ := ⟨one, zero, zero, one, tx, ty⟩

/-- Rotation by the angle with the given sine and cosine, counter-clockwise with y up. -/
def rotation (sin cos : κ) : Affine κ := ⟨cos, sin, -sin, cos, zero, zero⟩

def scale (t : Affine κ) (sx sy : κ) : Affine κ := t.append (scaling sx sy)

def translate (t : Affine κ) (tx ty : κ) : Affine κ := t.append (displacement tx ty)

def apply (t : Affine κ) (p : Point κ) : Point κ :=
  ⟨t.a * p.x + t.c * p.y + t.e, t.b * p.x + t.d * p.y + t.f⟩

/-- Sizes feel the linear part alone. -/
def applySize (t : Affine κ) (s : Size κ) : Size κ :=
  ⟨t.a * s.width + t.c * s.height, t.b * s.width + t.d * s.height⟩

def determinant (t : Affine κ) : κ := t.a * t.d - t.b * t.c

/-- Sum of the squares of the linear part, the scale against which a determinant is small. -/
def weight (t : Affine κ) : κ :=
  let m := t.elements
  m.m11 * m.m11 + m.m12 * m.m12 + m.m21 * m.m21 + m.m22 * m.m22

/-- Distance from one to the next double-precision number. -/
def epsilon : κ := one / Scalar.ofNat 4503599627370496

/-- The linear part cannot be inverted reliably. -/
def isSingular (t : Affine κ) : Bool :=
  let det := t.determinant
  let weight := t.weight
  !Scalar.finite det || weight == zero || Scalar.atMost (Scalar.abs det) (epsilon * weight)

/-- Inverse map, each entry divided by the determinant. -/
def quotientInverse (t : Affine κ) : Affine κ :=
  let m := t.elements
  let det := t.determinant
  ofElements ⟨m.m22 / det, -m.m12 / det, -m.m21 / det, m.m11 / det,
    (m.m12 * m.ty - m.m22 * m.tx) / det, (m.m21 * m.tx - m.m11 * m.ty) / det⟩

/-- The inverse map, unless the map is singular. -/
def inverse? (t : Affine κ) : Option (Affine κ) :=
  if t.isSingular then none else some t.quotientInverse

/-- Inverse map, each entry multiplied by the reciprocal of the determinant. -/
def reciprocalInverse (t : Affine κ) : Affine κ :=
  let i := one / t.determinant
  ⟨i * t.d, -i * t.b, -i * t.c, i * t.a,
    i * (t.c * t.f - t.d * t.e), i * (t.b * t.e - t.a * t.f)⟩

/-- Smallest upright rectangle around the image of a rectangle. -/
def boundingBox (t : Affine κ) (r : Rect κ) : Rect κ :=
  Rect.hull
    (Rect.ofCorners (t.apply ⟨r.x0, r.y0⟩) (t.apply ⟨r.x0, r.y1⟩))
    (Rect.ofCorners (t.apply ⟨r.x1, r.y0⟩) (t.apply ⟨r.x1, r.y1⟩))

/-- Extent of the image; the whole plane stays the whole plane. -/
def mapExtent (t : Affine κ) (r : Rect κ) : Rect κ :=
  if r.isInfinite then Rect.plane else t.boundingBox r

/-- Numbers in brackets, as messages list them. -/
def listText (xs : List κ) : String :=
  "[" ++ ", ".intercalate (xs.map (Scalar.text Decimal.Style.tagged)) ++ "]"

def Elements.toList (m : Elements κ) : List κ := [m.m11, m.m12, m.m21, m.m22, m.tx, m.ty]

def toList (t : Affine κ) : List κ := [t.a, t.b, t.c, t.d, t.e, t.f]

/-- What a message says about a map without an inverse. -/
def singularText (t : Affine κ) : String :=
  "determinant " ++ Scalar.text Decimal.Style.plain t.determinant ++ " of "
    ++ listText t.elements.toList

end Affine

/-- One degree, in radians. -/
def degree : Float := Float.ofBits 0x3f91df46a2529d39

def Affine.rotate (t : Affine Float) (radians : Float) : Affine Float :=
  t.append (rotation radians.sin radians.cos)

def Affine.rotateDegrees (t : Affine Float) (degrees : Float) : Affine Float :=
  t.rotate (degrees * degree)

end PixelKernel
