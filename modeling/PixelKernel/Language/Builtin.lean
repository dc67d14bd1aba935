import PixelKernel.Language.Value

/-! # Builtin functions

Names, overloads and the functions that need nothing but their arguments. Access to
samplers and `emit` are the host's.
-/

namespace PixelKernel.Language

inductive Builtin where
  | radians | degrees
  | sin | cos | tan | asin | acos | atan | atan2 | sincos | cossin
  | pow | exp | log | exp2 | log2 | sqrt | inversesqrt
  | abs | sign | floor | ceil | fract | mod | min | max
  | clamp | mix | step | smoothstep | compare
  | length | distance | dot | cross | normalize
  | premultiply | unpremultiply
  | destCoord | samplerCoord | samplerTransform | samplerOrigin | samplerSize | samplerExtent
  | sample | emit
  deriving Repr, DecidableEq

namespace Builtin

def name : Builtin → String
  | radians => "radians"
  | degrees => "degrees"
  | sin => "sin"
  | cos => "cos"
  | tan => "tan"
  | asin => "asin"
  | acos => "acos"
  | atan | atan2 => "atan"
  | sincos => "sincos"
  | cossin => "cossin"
  | pow => "pow"
  | exp => "exp"
  | log => "log"
  | exp2 => "exp2"
  | log2 => "log2"
  | sqrt => "sqrt"
  | inversesqrt => "inversesqrt"
  | abs => "abs"
  | sign => "sign"
  | floor => "floor"
  | ceil => "ceil"
  | fract => "fract"
  | mod => "mod"
  | min => "min"
  | max => "max"
  | clamp => "clamp"
  | mix => "mix"
  | step => "step"
  | smoothstep => "smoothstep"
  | compare => "compare"
  | length => "length"
  | distance => "distance"
  | dot => "dot"
  | cross => "cross"
  | normalize => "normalize"
  | premultiply => "premultiply"
  | unpremultiply => "unpremultiply"
  | destCoord => "destCoord"
  | samplerCoord => "samplerCoord"
  | samplerTransform => "samplerTransform"
  | samplerOrigin => "samplerOrigin"
  | samplerSize => "samplerSize"
  | samplerExtent => "samplerExtent"
  | sample => "sample"
  | emit => "emit"

/-- Functions of a name, the first fitting one being meant; `atan` has two. -/
def named : String → List Builtin
  | "radians" => [radians]
  | "degrees" => [degrees]
  | "sin" | "sin_" => [sin]
  | "cos" | "cos_" => [cos]
  | "tan" | "tan_" => [tan]
  | "asin" => [asin]
  | "acos" => [acos]
  | "atan" => [atan2, atan]
  | "sincos" => [sincos]
  | "cossin" => [cossin]
  | "pow" => [pow]
  | "exp" => [exp]
  | "log" => [log]
  | "exp2" => [exp2]
  | "log2" => [log2]
  | "sqrt" => [sqrt]
  | "inversesqrt" => [inversesqrt]
  | "abs" => [abs]
  | "sign" => [sign]
  | "floor" => [floor]
  | "ceil" => [ceil]
  | "fract" => [fract]
  | "mod" => [mod]
  | "min" => [min]
  | "max" => [max]
  | "clamp" => [clamp]
  | "mix" => [mix]
  | "step" => [step]
  | "smoothstep" => [smoothstep]
  | "compare" => [compare]
  | "length" => [length]
  | "distance" => [distance]
  | "dot" => [dot]
  | "cross" => [cross]
  | "normalize" => [normalize]
  | "premultiply" => [premultiply]
  | "unpremultiply" => [unpremultiply]
  | "destCoord" => [destCoord]
  | "samplerCoord" => [samplerCoord]
  | "samplerTransform" => [samplerTransform]
  | "samplerOrigin" => [samplerOrigin]
  | "samplerSize" => [samplerSize]
  | "samplerExtent" => [samplerExtent]
  | "sample" => [sample]
  | "emit" => [emit]
  | _ => []

/-- Floats and float vectors. -/
def isFloats (t : Ty) : Bool := t.lanes?.isSome

/-- Result type for arguments of the given types, if the function takes them. -/
def result? : Builtin → List Ty → Option Ty
  | radians, [t] | degrees, [t] | sin, [t] | cos, [t] | tan, [t] | asin, [t] | acos, [t]
  | atan, [t] | exp, [t] | log, [t] | exp2, [t] | log2, [t] | sqrt, [t] | inversesqrt, [t]
  | abs, [t] | sign, [t] | floor, [t] | ceil, [t] | fract, [t] | normalize, [t] =>
    if isFloats t then some t else none
  | atan2, [a, b] | pow, [a, b] => if isFloats a && a = b then some a else none
  | mod, [a, b] | min, [a, b] | max, [a, b] =>
    if isFloats a && (a = b || b = .float) then some a else none
  | step, [e, x] => if isFloats x && (e = x || e = .float) then some x else none
  | clamp, [x, lo, hi] =>
    if isFloats x && lo = hi && (lo = x || lo = .float) then some x else none
  | mix, [x, y, t] => if isFloats x && x = y && (t = x || t = .float) then some x else none
  | smoothstep, [lo, hi, x] =>
    if isFloats x && lo = hi && (lo = x || lo = .float) then some x else none
  | compare, [x, y, z] => if isFloats x && x = y && y = z then some x else none
  | length, [t] => if isFloats t then some .float else none
  | distance, [a, b] | dot, [a, b] => if isFloats a && a = b then some .float else none
  | sincos, [.float] | cossin, [.float] => some .vec2
  | cross, [.vec3, .vec3] => some .vec3
  | premultiply, [.vec4] | unpremultiply, [.vec4] => some .vec4
  | destCoord, [] => some .vec2
  | samplerCoord, [.sampler] | samplerOrigin, [.sampler] | samplerSize, [.sampler] => some .vec2
  | samplerExtent, [.sampler] => some .vec4
  | sample, [.sampler, .vec2] => some .vec4
  | samplerTransform, [.sampler, .vec2] => some .vec2
  | emit, [.vec4] => some .void
  | _, _ => none

/-- The function that a call means, with its result type. -/
def resolve? (name : String) (args : List Ty) : Option (Builtin × Ty) :=
  (named name).findSome? fun b => (b.result? args).map (b, ·)

def radian : Float32 := Float32.ofBits 0x40490fdb / 180

def degree : Float32 := Float32.ofBits 0x42652ee1

def signOf (x : Float32) : Float32 := if x > 0 then 1 else if x < 0 then -1 else 0

/-- Cubic rise from `lo` to `hi`. -/
def smooth (lo hi x : Float32) : Float32 :=
  let t := Scalar.clamp ((x - lo) / (hi - lo)) 0 1
  t * t * (3 - 2 * t)

def crossed : Value → Value → Option Value
  | .vec3 a b c, .vec3 x y z => some (.vec3 (b * z - c * y) (c * x - a * z) (a * y - b * x))
  | _, _ => none

/-- A vector of length zero stays as it is: zero. -/
def unitVector (a : Value) : Option Value := do
  let length := (← a.dot a).sqrt
  if length == 0 then a.map fun _ => 0 else a.map (· / length)

/-- Functions that need only their arguments. -/
def evaluate? : Builtin → List Value → Option Value
  | radians, [x] => x.map (· * radian)
  | degrees, [x] => x.map (· * degree)
  | sin, [x] => x.map Float32.sin
  | cos, [x] => x.map Float32.cos
  | tan, [x] => x.map Float32.tan
  | asin, [x] => x.map Float32.asin
  | acos, [x] => x.map Float32.acos
  | atan, [x] => x.map Float32.atan
  | atan2, [y, x] => Value.zip Float32.atan2 y x
  | sincos, [x] => x.float?.map fun v => .vec2 v.sin v.cos
  | cossin, [x] => x.float?.map fun v => .vec2 v.cos v.sin
  | pow, [x, y] => Value.zip Float32.pow x y
  | exp, [x] => x.map Float32.exp
  | log, [x] => x.map Float32.log
  | exp2, [x] => x.map Float32.exp2
  | log2, [x] => x.map Float32.log2
  | sqrt, [x] => x.map Float32.sqrt
  | inversesqrt, [x] => x.map fun v => 1 / v.sqrt
  | abs, [x] => x.map Float32.abs
  | sign, [x] => x.map signOf
  | floor, [x] => x.map Float32.floor
  | ceil, [x] => x.map Float32.ceil
  | fract, [x] => x.map fun v => v - v.floor
  | mod, [x, y] => Value.zip (fun a b => a - b * (a / b).floor) x y
  | min, [x, y] => Value.zip Scalar.min x y
  | max, [x, y] => Value.zip Scalar.max x y
  | clamp, [x, lo, hi] => Value.zip3 (fun v l h => Scalar.min (Scalar.max v l) h) x lo hi
  | mix, [x, y, t] => Value.zip3 (fun p q t => p + (q - p) * t) x y t
  | step, [e, x] => Value.zip (fun edge v => if v < edge then 0 else 1) e x
  | smoothstep, [lo, hi, x] => Value.zip3 smooth lo hi x
  | compare, [x, y, z] => Value.zip3 (fun c p q => if c < 0 then p else q) x y z
  | length, [x] => (x.dot x).map fun d => .float d.sqrt
  | distance, [a, b] => do
    let d ← Value.zip (· - ·) a b
    return .float (← d.dot d).sqrt
  | dot, [a, b] => (a.dot b).map .float
  | cross, [a, b] => crossed a b
  | normalize, [x] => unitVector x
  | premultiply, [x] => x.colour?.map fun c => .ofColour c.premultiply
  | unpremultiply, [x] => x.colour?.map fun c => .ofColour c.unpremultiply
  | _, _ => none

end Builtin
end PixelKernel.Language
