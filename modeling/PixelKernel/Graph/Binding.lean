import PixelKernel.Fault
import PixelKernel.Json.Value

/-! # Values for kernel arguments

Host values come as data or as values of the language. A binding keeps a value of exactly
the declared type, after the conversions that arguments allow. Samplers are given by the
number of their node.
-/

namespace PixelKernel.Graph

open PixelKernel.Language (Argument Value Ty)

namespace Binding

def isInt32 (n : Int) : Bool := -(2 ^ 31) ≤ n && n < 2 ^ 31

/-- A number as a float, unless it is none. -/
def float? : Json → Option Float32
  | .int n => some (Float.ofInt n).toFloat32
  | .float x => some x.toFloat32
  | _ => none

def floats : List Json → Except Fault (List Float32)
  | [] => .ok []
  | v :: rest =>
    match float? v with
    | none => .error (.typeMismatch (.element v.compact))
    | some x => (floats rest).map (x :: ·)

/-- The value that data stands for; `null` stands for none. Whole numbers that fit are ints,
    other numbers floats, and lists of two to four numbers vectors. -/
def ofJson : Json → Except Fault (Option Value)
  | .null => .ok none
  | .bool b => .ok (some (.bool b))
  | .int n =>
    .ok (some (if isInt32 n then .int (Int32.ofInt n) else .float (Float.ofInt n).toFloat32))
  | .float x => .ok (some (.float x.toFloat32))
  | .str _ => .error (.typeMismatch .string)
  | .obj _ => .error (.typeMismatch .object)
  | .arr items =>
    if items.length < 2 ∨ 4 < items.length then
      .error (.typeMismatch (.arrayLength items.length))
    else (floats items).map Value.ofLanes?

/-- Makes a value fit an argument. Ints widen to floats, and floats lose their fraction to
    become ints. -/
def coerce (a : Argument) (v : Value) : Except Fault Value :=
  match a.ty, v with
  | .float, .int n => .ok (.float n.toFloat32)
  | .int, .float x => .ok (.int x.toInt32)
  | t, v =>
    if v.ty = t.operand then .ok v
    else .error (.typeMismatch (.declared a.name t v.ty))

/-- Equality of bindings: two that are missing are equal, floats are compared by value. -/
def same : Option Value → Option Value → Bool
  | none, none => true
  | some a, some b => a.same b
  | _, _ => false

end Binding
end PixelKernel.Graph
