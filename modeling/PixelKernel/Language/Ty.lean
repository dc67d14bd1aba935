/-! # Types of the kernel language -/

namespace PixelKernel.Language

inductive Ty where
  | void
  | bool
  | int
  | float
  | vec2
  | vec3
  | vec4
  | color
  | sampler
  deriving Repr, DecidableEq

namespace Ty

def name : Ty → String
  | void => "void"
  | bool => "bool"
  | int => "int"
  | float => "float"
  | vec2 => "vec2"
  | vec3 => "vec3"
  | vec4 => "vec4"
  | color => "color"
  | sampler => "sampler"

/-- The type that a word names; `__color` is a second spelling of `color`. -/
def ofName? : String → Option Ty
  | "void" => some void
  | "bool" => some bool
  | "int" => some int
  | "float" => some float
  | "vec2" => some vec2
  | "vec3" => some vec3
  | "vec4" => some vec4
  | "color" | "__color" => some color
  | "sampler" => some sampler
  | _ => none

/-- Inside an expression a colour is a plain `vec4`. -/
def operand : Ty → Ty
  | color => vec4
  | t => t

/-- Number of float lanes of a scalar or vector. -/
def lanes? : Ty → Option Nat
  | float => some 1
  | vec2 => some 2
  | vec3 => some 3
  | vec4 | color => some 4
  | _ => none

def isVector : Ty → Bool
  | vec2 | vec3 | vec4 => true
  | _ => false

/-- The float type with `n` lanes. -/
def ofLanes? : Nat → Option Ty
  | 1 => some float
  | 2 => some vec2
  | 3 => some vec3
  | 4 => some vec4
  | _ => none

/-- Values of these types have an order. -/
def isOrdered : Ty → Bool
  | int | float => true
  | _ => false

end Ty

/-- What a kernel produces: one colour per pixel, or a stream of emitted records. -/
inductive Target where
  | normal
  | reduce
  deriving Repr, DecidableEq

def Target.name : Target → String
  | normal => "normal"
  | reduce => "reduce"

end PixelKernel.Language
