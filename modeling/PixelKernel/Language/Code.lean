import PixelKernel.Language.Builtin
import PixelKernel.Language.Syntax

/-! # Code of a stack machine

One list of instructions per function. Jumps are relative to the instruction itself, so
code keeps its meaning wherever it stands.
-/

namespace PixelKernel.Language

/-- Lanes picked from a vector, by index, at most four. -/
abbrev Selection := List (Fin 4)

inductive Op where
  | const (index : UInt32)
  | load (slot : UInt16)
  | store (slot : UInt16)
  /-- Stores into some lanes of a vector. -/
  | storeLanes (slot : UInt16) (lanes : Selection)
  | select (lanes : Selection)
  | dup
  | pop
  | neg
  | not
  | arith (op : ArithOp)
  | compare (op : OrderOp)
  /-- Makes a float of the entry `depth` places below the top. -/
  | toFloat (depth : UInt8)
  | toInt
  | toBool
  /-- A vector of `width` lanes from the lanes of `argc` entries; a single lane fills all. -/
  | construct (width argc : UInt8)
  | builtin (f : Builtin) (argc : UInt8)
  | call (function : UInt16) (argc : UInt8)
  | jump (offset : Int32)
  | jumpIfFalse (offset : Int32)
  | jumpIfTrue (offset : Int32)
  | ret
  | retVoid
  /-- The end of a function that should have returned a value. -/
  | missingReturn
  deriving Repr, DecidableEq

structure Function where
  name : String
  params : List Ty
  ret : Ty
  /-- Types of all slots; the parameters come first. -/
  locals : Array Ty
  code : Array Op
  deriving Repr, DecidableEq

/-- A declared argument of a kernel. -/
structure Argument where
  name : String
  ty : Ty
  isStatic : Bool
  deriving Repr, DecidableEq

structure Program where
  functions : Array Function
  consts : Array Value
  /-- Index of the kernel function. -/
  entry : Nat
  target : Target
  arguments : List Argument
  deriving Repr, DecidableEq

namespace Program

def kernelName (p : Program) : String := ((p.functions[p.entry]?).map (·.name)).getD ""

/-- Number of instructions in all functions. -/
def opCount (p : Program) : Nat := (p.functions.map (·.code.size)).sum

end Program
end PixelKernel.Language
