import PixelKernel.Decimal.Text
import PixelKernel.Language.Code

/-! # Listing of code

One line per function and one per instruction. Jumps are shown by the index they lead to.
-/

namespace PixelKernel.Language

def floatList (xs : List Float32) : String :=
  "[" ++ ", ".intercalate (xs.map (Decimal.textFloat32 .tagged)) ++ "]"

def Value.text : Value → String
  | bool b => toString b
  | int n => toString n.toInt
  | float x => Decimal.textFloat32 .tagged x
  | vec2 x y => "vec2" ++ floatList [x, y]
  | vec3 x y z => "vec3" ++ floatList [x, y, z]
  | vec4 x y z w => "vec4" ++ floatList [x, y, z, w]
  | sampler _ => "sampler"

def ArithOp.label : ArithOp → String
  | add => "add"
  | sub => "sub"
  | mul => "mul"
  | div => "div"

def OrderOp.label : OrderOp → String
  | eq => "eq"
  | ne => "ne"
  | lt => "lt"
  | le => "le"
  | gt => "gt"
  | ge => "ge"

def laneName (i : Fin 4) : Char := ['x', 'y', 'z', 'w'][i]

def Selection.text (lanes : Selection) : String := String.ofList (lanes.map laneName)

/-- Index that a jump at `pc` leads to. -/
def jumpText (pc : Nat) (offset : Int32) : String := toString ((pc : Int) + offset.toInt)

def Op.text (p : Program) (pc : Nat) : Op → String
  | const i => "const " ++ match p.consts[i.toNat]? with
    | some v => v.text
    | none => "#" ++ toString i.toNat
  | load slot => "load %" ++ toString slot.toNat
  | store slot => "store %" ++ toString slot.toNat
  | storeLanes slot lanes => "store %" ++ toString slot.toNat ++ "." ++ Selection.text lanes
  | select lanes => "swizzle ." ++ Selection.text lanes
  | dup => "dup"
  | pop => "pop"
  | neg => "neg"
  | not => "not"
  | arith op => "arith(" ++ op.label ++ ")"
  | compare op => "compare(" ++ op.label ++ ")"
  | toFloat depth => "tofloat \x7b depth: " ++ toString depth.toNat ++ " \x7d"
  | toInt => "toint"
  | toBool => "tobool"
  | construct width argc =>
    "construct \x7b width: " ++ toString width.toNat ++ ", argc: " ++ toString argc.toNat ++ " \x7d"
  | builtin f argc => "builtin " ++ f.name ++ "/" ++ toString argc.toNat
  | call function argc =>
    "call " ++ ((p.functions[function.toNat]?).map (·.name)).getD "?" ++ "/" ++ toString argc.toNat
  | jump offset => "jump " ++ jumpText pc offset
  | jumpIfFalse offset => "jump_if_false " ++ jumpText pc offset
  | jumpIfTrue offset => "jump_if_true " ++ jumpText pc offset
  | ret => "return"
  | retVoid => "returnvoid"
  | missingReturn => "missingreturn"

/-- An instruction's index, in at least four digits. -/
def indexText (pc : Nat) : String :=
  let digits := toString pc
  Decimal.zeros (4 - digits.length) ++ digits

/-- Words before the kernel function's result type. -/
def Target.tag : Target → String
  | normal => "kernel "
  | reduce => "kernel __reduce "

def Function.lines (p : Program) (index : Nat) (f : Function) : List String :=
  let tag := if index = p.entry then p.target.tag else ""
  let head := tag ++ f.ret.name ++ " " ++ f.name ++ "(" ++ ", ".intercalate (f.params.map Ty.name)
    ++ ") locals=" ++ toString f.locals.size
  head :: f.code.toList.mapIdx fun pc op => "  " ++ indexText pc ++ " " ++ op.text p pc

def Program.listing (p : Program) : String :=
  String.join ((p.functions.toList.mapIdx (Function.lines p)).flatten.map (· ++ "\n"))

end PixelKernel.Language
