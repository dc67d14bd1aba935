import PixelKernel.Language.Ty

/-! # Syntax trees

A module is a list of functions, one of them tagged as the kernel. Each node keeps the
byte position that a message about it points at.
-/

namespace PixelKernel.Language

inductive Literal where
  | int (n : Nat)
  | float (x : Float)
  | bool (b : Bool)
  deriving Repr, DecidableEq

inductive UnaryOp where
  | neg
  | not
  deriving Repr, DecidableEq

inductive ArithOp where
  | add
  | sub
  | mul
  | div
  deriving Repr, DecidableEq

inductive OrderOp where
  | eq
  | ne
  | lt
  | le
  | gt
  | ge
  deriving Repr, DecidableEq

inductive LogicOp where
  | and
  | or
  deriving Repr, DecidableEq

inductive BinaryOp where
  | arith (op : ArithOp)
  | order (op : OrderOp)
  | logic (op : LogicOp)
  deriving Repr, DecidableEq

def ArithOp.spelling : ArithOp → String
  | add => "+"
  | sub => "-"
  | mul => "*"
  | div => "/"

def OrderOp.spelling : OrderOp → String
  | eq => "=="
  | ne => "!="
  | lt => "<"
  | le => "<="
  | gt => ">"
  | ge => ">="

def LogicOp.spelling : LogicOp → String
  | and => "&&"
  | or => "||"

def BinaryOp.spelling : BinaryOp → String
  | arith op => op.spelling
  | order op => op.spelling
  | logic op => op.spelling

inductive Expr where
  | lit (pos : Nat) (value : Literal)
  | var (pos : Nat) (name : String)
  | unary (pos : Nat) (op : UnaryOp) (operand : Expr)
  | binary (pos : Nat) (op : BinaryOp) (left right : Expr)
  | ternary (pos : Nat) (cond yes no : Expr)
  | call (pos : Nat) (callee : String) (args : List Expr)
  | select (pos : Nat) (base : Expr) (fields : String)
  /-- Assignment; with an operator the target is read first and combined. -/
  | assign (pos : Nat) (op : Option ArithOp) (target value : Expr)
  /-- `++` and `--`, before or after the target. -/
  | step (pos : Nat) (target : Expr) (increment leading : Bool)
  deriving Repr, BEq

def Expr.pos : Expr → Nat
  | lit pos .. | var pos .. | unary pos .. | binary pos .. | ternary pos .. | call pos ..
  | select pos .. | assign pos .. | step pos .. => pos

structure Declarator where
  name : String
  pos : Nat
  init : Option Expr
  deriving Repr, BEq

inductive Stmt where
  | empty
  | expr (e : Expr)
  | block (body : List Stmt)
  | decl (pos : Nat) (ty : Ty) (isConst : Bool) (vars : List Declarator)
  | ifThen (cond : Expr) (yes : Stmt)
  | ifElse (cond : Expr) (yes no : Stmt)
  /-- A `for` without an initialiser has the empty statement there. -/
  | forLoop (init : Stmt) (cond step : Option Expr) (body : Stmt)
  | whileLoop (cond : Expr) (body : Stmt)
  | doWhile (body : Stmt) (cond : Expr)
  | breakLoop (pos : Nat)
  | continueLoop (pos : Nat)
  | ret (pos : Nat) (value : Option Expr)
  deriving Repr, BEq

structure Param where
  name : String
  ty : Ty
  isStatic : Bool
  pos : Nat
  deriving Repr, BEq, DecidableEq

structure FunctionDef where
  name : String
  ret : Ty
  params : List Param
  body : List Stmt
  /-- Set for a function tagged as kernel. -/
  kernel : Option Target
  pos : Nat
  deriving Repr, BEq

end PixelKernel.Language
