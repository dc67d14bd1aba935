import PixelKernel.Colour
import PixelKernel.Language.Ty

/-! # Values of a running kernel

Scalars and vectors share one view, their list of float lanes; componentwise operations
are stated on it. A one-lane operand is spread over the lanes of the others.
-/

namespace PixelKernel.Language

inductive Value where
  | bool (b : Bool)
  | int (n : Int32)
  | float (x : Float32)
  | vec2 (x y : Float32)
  | vec3 (x y z : Float32)
  | vec4 (x y z w : Float32)
  /-- A sampler by its number among the host's; unbound samplers have none. -/
  | sampler (s : Option Nat)
  deriving Repr, DecidableEq, Inhabited

namespace Value

def ty : Value → Ty
  | bool _ => .bool
  | int _ => .int
  | float _ => .float
  | vec2 .. => .vec2
  | vec3 .. => .vec3
  | vec4 .. => .vec4
  | sampler _ => .sampler

def zero : Ty → Value
  | .bool => bool false
  | .int => int 0
  | .vec2 => vec2 0 0
  | .vec3 => vec3 0 0 0
  | .vec4 | .color => vec4 0 0 0 0
  | .sampler => sampler none
  | .float | .void => float 0

def lanes? : Value → Option (List Float32)
  | float x => some [x]
  | vec2 x y => some [x, y]
  | vec3 x y z => some [x, y, z]
  | vec4 x y z w => some [x, y, z, w]
  | _ => none

def ofLanes? : List Float32 → Option Value
  | [x] => some (float x)
  | [x, y] => some (vec2 x y)
  | [x, y, z] => some (vec3 x y z)
  | [x, y, z, w] => some (vec4 x y z w)
  | _ => none

def ofPoint (p : Float32 × Float32) : Value := vec2 p.1 p.2

def ofColour (c : Rgba Float32) : Value := vec4 c.r c.g c.b c.a

def colour? : Value → Option (Rgba Float32)
  | vec4 x y z w => some ⟨x, y, z, w⟩
  | _ => none

def float? : Value → Option Float32
  | float x => some x
  | _ => none

def bool? : Value → Option Bool
  | bool b => some b
  | _ => none

/-- Equality of the language: floats by value, so a NaN differs from itself. -/
def same : Value → Value → Bool
  | bool a, bool b => a == b
  | int a, int b => a == b
  | float a, float b => a == b
  | vec2 a b, vec2 c d => a == c && b == d
  | vec3 a b c, vec3 d e f => a == d && b == e && c == f
  | vec4 a b c d, vec4 e f g h => a == e && b == f && c == g && d == h
  | sampler a, sampler b => a == b
  | _, _ => false

def map (f : Float32 → Float32) (a : Value) : Option Value := do
  ofLanes? ((← a.lanes?).map f)

/-- The lanes of an operand among operands of `n` lanes. -/
def spread (n : Nat) (lanes : List Float32) : Option (List Float32) :=
  match lanes with
  | [x] => some (List.replicate n x)
  | xs => if xs.length = n then some xs else none

def zip (f : Float32 → Float32 → Float32) (a b : Value) : Option Value := do
  let xs ← a.lanes?
  let ys ← b.lanes?
  let n := max xs.length ys.length
  ofLanes? (List.zipWith f (← spread n xs) (← spread n ys))

def zip3 (f : Float32 → Float32 → Float32 → Float32) (a b c : Value) : Option Value := do
  let xs ← a.lanes?
  let ys ← b.lanes?
  let zs ← c.lanes?
  let n := max (max xs.length ys.length) zs.length
  let pairs := List.zip (← spread n ys) (← spread n zs)
  ofLanes? (List.zipWith (fun x p => f x p.1 p.2) (← spread n xs) pairs)

/-- Sum of the products of lanes, added up from negative zero. -/
def dot (a b : Value) : Option Float32 := do
  let products := List.zipWith (· * ·) (← a.lanes?) (← b.lanes?)
  return products.foldl (· + ·) (-0)

end Value
end PixelKernel.Language
