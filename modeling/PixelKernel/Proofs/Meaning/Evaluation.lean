import PixelKernel.Language.Machine
import PixelKernel.Language.Code.Lowering

/-! # Evaluation of syntax trees

What a module means, said of its functions as they were parsed: no slots, no code and no
stack. Variables live in scopes, operands are evaluated from left to right, values are passed
and assigned by copy, and each function call evaluates the callee's body.

Loops may go on for ever, so an evaluation has some fuel, the most passes that one loop may
make. An evaluation without a result ran out of it.
-/

namespace PixelKernel.Language.Meaning

structure Variable where
  ty : Ty
  value : Value

/-- Variables in scope: open scopes with the innermost first, in each the latest first. -/
abbrev Env := List (List (String × Variable))

namespace Env

/-- The innermost variable of a name. -/
def find? (env : Env) (name : String) : Option Variable := env.findSome? (·.lookup name)

def ty? (env : Env) (name : String) : Option Ty := (env.find? name).map (·.ty.operand)

def declare (name : String) (x : Variable) : Env → Env
  | [] => [[(name, x)]]
  | scope :: outer => ((name, x) :: scope) :: outer

def assignIn (name : String) (v : Value) : List (String × Variable) → List (String × Variable)
  | [] => []
  | (n, x) :: rest =>
    if name == n then (n, { x with value := v }) :: rest else (n, x) :: assignIn name v rest

/-- Gives the innermost variable of a name another value. -/
def assign (name : String) (v : Value) : Env → Env
  | [] => []
  | scope :: outer =>
    if (scope.lookup name).isSome then assignIn name v scope :: outer
    else scope :: assign name v outer

end Env

/-- Why an evaluation ended without a value. -/
inductive Stop where
  | missingReturn (function : String)
  | callDepth
  /-- What the host answered instead of a value. -/
  | host (t : Trap)
  /-- The tree has no meaning here; this is not found in a module that compiles. -/
  | stuck
  deriving Repr, DecidableEq

/-! ## Types of expressions -/

/-- Ints are floats beside floats and to builtins. -/
def widenTy (t : Ty) : Ty := if t = .int then .float else t

/-- Type of arithmetic between two operands. -/
def arithTy? (l r : Ty) : Option Ty :=
  if l = .int ∧ r = .int then some .int
  else do
    let lw ← (widenTy l).lanes?
    let rw ← (widenTy r).lanes?
    if lw = rw ∨ rw = 1 then some (widenTy l) else if lw = 1 then some (widenTy r) else none

/-- Type of the value that a call gives. -/
def callTy? (module : List FunctionDef) (name : String) (args : List Ty) : Option Ty :=
  match module.find? (·.name == name) with
  | some f => some f.ret.operand
  | none =>
    match name with
    | "float" => some .float
    | "int" => some .int
    | "bool" => some .bool
    | _ =>
      match Lower.vectorWidth? name with
      | some width => Ty.ofLanes? width
      | none => (Builtin.resolve? name (args.map widenTy)).map (·.2)

def literalTy : Literal → Ty
  | .int _ => .int
  | .float _ => .float
  | .bool _ => .bool

mutual

/-- Type of an expression over variables of the given types. -/
def typeOf? (module : List FunctionDef) (vars : String → Option Ty) : Expr → Option Ty
  | .lit _ l => some (literalTy l)
  | .var _ name => vars name
  | .unary _ _ e => typeOf? module vars e
  | .binary _ (.arith _) a b => do arithTy? (← typeOf? module vars a) (← typeOf? module vars b)
  | .binary .. => some .bool
  | .ternary _ _ a b => do
    let s ← typeOf? module vars a
    let t ← typeOf? module vars b
    return if s = .int ∧ t = .float then .float else s
  | .call _ name args => do callTy? module name (← typesOf? module vars args)
  | .select _ _ fields => Ty.ofLanes? fields.length
  | .assign _ _ target _ | .step _ target _ _ => typeOf? module vars target

def typesOf? (module : List FunctionDef) (vars : String → Option Ty) :
    List Expr → Option (List Ty)
  | [] => some []
  | e :: rest => return (← typeOf? module vars e) :: (← typesOf? module vars rest)

end

/-! ## Conversions -/

/-- An int as a float; other values stay. -/
def widen : Value → Value
  | .int n => .float n.toFloat32
  | v => v

/-- A value made to fit a variable, parameter or result of the given type. -/
def fit (t : Ty) (v : Value) : Value := if t = .float then widen v else v

/-- Operands of an operator: an int beside a float or a vector becomes a float. -/
def promote (a b : Value) : Value × Value :=
  (if b.lanes?.isSome then widen a else a, if a.lanes?.isSome then widen b else b)

/-- A part of a vector: ints and bools count as floats. -/
def part (v : Value) : Value :=
  match v.toFloat with
  | .ok x => x
  | .error _ => v

def literal : Literal → Value
  | .int n => .int (Int32.ofNat n)
  | .float x => .float (Binary.narrow x)
  | .bool b => .bool b

/-- The lane that a letter names, in whichever of the three sets. -/
def lane? : Char → Option (Fin 4)
  | 'x' | 'r' | 's' => some 0
  | 'y' | 'g' | 't' => some 1
  | 'z' | 'b' | 'p' => some 2
  | 'w' | 'a' | 'q' => some 3
  | _ => none

def lanes? (fields : String) : Option Selection := fields.toList.mapM lane?

/-- Variable and lanes that an assignment writes to. -/
def place? : Expr → Option (String × Option Selection)
  | .var _ name => some (name, none)
  | .select _ (.var _ name) fields => (lanes? fields).map fun lanes => (name, some lanes)
  | _ => none

/-- Type of what is written to a variable of the given type. -/
def placeTy (t : Ty) (lanes : Option Selection) : Ty :=
  match lanes with
  | none => t.operand
  | some lanes => (Ty.ofLanes? lanes.length).getD .float

/-! ## Effects -/

/-- An evaluation changes the variables and the host's state; it may stop, and it may not
    come to an end. -/
abbrev Eval (σ α : Type) := StateT Env (ExceptT Stop (StateT σ Option)) α

/-- What evaluations in a function's body refer to. -/
structure Context (σ : Type) where
  module : List FunctionDef
  host : Host σ
  fuel : Nat
  /-- Declared result of the function. -/
  ret : Ty
  /-- Calls a function one level further down. -/
  call : FunctionDef → List Value → σ → Option (Except Stop (Option Value) × σ)

section

variable {σ α : Type}

def stuck : Eval σ α := fun _ s => some (.error .stuck, s)

/-- The loop was to go on for longer than there is fuel. -/
def outOfFuel : Eval σ α := fun _ _ => none

def ofOption : Option α → Eval σ α
  | some a => pure a
  | none => stuck

def ofExcept : Except Trap α → Eval σ α
  | .ok a => pure a
  | .error _ => stuck

/-- An expression where a value is needed. -/
def operand (m : Eval σ (Option Value)) : Eval σ Value := do ofOption (← m)

def bool (m : Eval σ (Option Value)) : Eval σ Bool := do ofOption (← operand m).bool?

/-- Evaluates with a scope of its own. -/
def enclosed (m : Eval σ α) : Eval σ α := do
  modify ([] :: ·)
  let a ← m
  modify List.tail
  return a

def fetch (name : String) : Eval σ Variable := do ofOption ((← get).find? name)

/-- What stands at a place. -/
def read (name : String) (lanes : Option Selection) : Eval σ Value := do
  let x ← fetch name
  match lanes with
  | none => return x.value
  | some lanes => ofExcept (x.value.select lanes)

def write (name : String) (lanes : Option Selection) (v : Value) : Eval σ Unit := do
  let x ← fetch name
  let new ← match lanes with
    | none => pure v
    | some lanes => ofExcept (x.value.replace lanes v)
  modify (Env.assign name new)

def callFunction (cx : Context σ) (f : FunctionDef) (args : List Value) :
    Eval σ (Option Value) := fun env s =>
  match cx.call f args s with
  | none => none
  | some (.ok v, s) => some (.ok (v, env), s)
  | some (.error e, s) => some (.error e, s)

def callBuiltin (cx : Context σ) (f : Builtin) (args : List Value) : Eval σ (Option Value) :=
  fun env s =>
    match Machine.callBuiltin cx.host f args s with
    | (.ok v, s) => some (.ok (v, env), s)
    | (.error t, s) => some (.error (.host t), s)

def conversion? : String → Option (Value → Except Trap Value)
  | "float" => some Value.toFloat
  | "int" => some Value.toInt
  | "bool" => some Value.toBool
  | _ => none

/-- Calls what a name means: a function of the module, a conversion, a vector, a builtin. -/
def call (cx : Context σ) (name : String) (args : List Value) : Eval σ (Option Value) :=
  match cx.module.find? (·.name == name) with
  | some f => callFunction cx f (List.zipWith (fun p v => fit p.ty v) f.params args)
  | none =>
    match conversion? name, args with
    | some f, [v] => return some (← ofExcept (f v))
    | _, _ =>
      match Lower.vectorWidth? name with
      | some width => return some (← ofExcept (Value.construct width (args.map part)))
      | none =>
        match Builtin.resolve? name ((args.map widen).map Value.ty) with
        | none => stuck
        | some (f, _) => callBuiltin cx f (args.map widen)

/-! ## Expressions and statements -/

def unary (op : UnaryOp) (v : Value) : Except Trap Value :=
  match op with
  | .neg => v.neg
  | .not => v.not

def binary (op : BinaryOp) (a b : Value) : Except Trap Value :=
  match op with
  | .arith op => Value.arith op a b
  | .order op => (Value.compare op a b).map .bool
  | .logic _ => .error .branch

mutual

/-- Value of an expression; calls of void functions have none. -/
def expr (cx : Context σ) : Expr → Eval σ (Option Value)
  | .lit _ l => return some (literal l)
  | .var _ name => return some (← fetch name).value
  | .unary _ op e => do
    let v ← operand (expr cx e)
    return some (← ofExcept (unary op v))
  | .binary _ (.logic op) a b => do
    let left ← bool (expr cx a)
    -- the right operand is evaluated only if the left one does not decide
    if left = (op == .and) then return some (.bool (← bool (expr cx b)))
    else return some (.bool left)
  | .binary _ op a b => do
    let left ← operand (expr cx a)
    let right ← operand (expr cx b)
    let (left, right) := promote left right
    return some (← ofExcept (binary op left right))
  | .ternary pos cond yes no => do
    let t ← ofOption (typeOf? cx.module (← get).ty? (.ternary pos cond yes no))
    let c ← bool (expr cx cond)
    let v ← if c then operand (expr cx yes) else operand (expr cx no)
    return some (fit t v)
  | .call _ name args => do call cx name (← exprs cx args)
  | .select _ base fields => do
    let v ← operand (expr cx base)
    let lanes ← ofOption (lanes? fields)
    return some (← ofExcept (v.select lanes))
  | .assign _ op target value => do
    let (name, lanes) ← ofOption (place? target)
    match op with
    | none =>
      let v ← operand (expr cx value)
      let v := fit (placeTy (← fetch name).ty lanes) v
      write name lanes v
      return some v
    | some op =>
      let old ← read name lanes
      let v ← operand (expr cx value)
      let (old, v) := promote old v
      let new ← ofExcept (Value.arith op old v)
      write name lanes new
      return some new
  | .step _ target increment leading => do
    let (name, lanes) ← ofOption (place? target)
    let old ← read name lanes
    let one := if old.ty = .int then Value.int 1 else .float 1
    let new ← ofExcept (Value.arith (if increment then .add else .sub) old one)
    write name lanes new
    return some (if leading then new else old)

/-- Values of arguments, from left to right. -/
def exprs (cx : Context σ) : List Expr → Eval σ (List Value)
  | [] => return []
  | e :: rest => return (← operand (expr cx e)) :: (← exprs cx rest)

end

/-- Declares variables one after the other, each in scope behind its own initialiser. A
    variable without one starts at zero each time. -/
def declarators (cx : Context σ) (ty : Ty) : List Declarator → Eval σ Unit
  | [] => return ()
  | v :: rest => do
    let value ← match v.init with
      | some e => fit ty <$> operand (expr cx e)
      | none => pure (Value.zero ty)
    modify (Env.declare v.name ⟨ty, value⟩)
    declarators cx ty rest

/-- How a statement ends: what comes behind it is next, or one of the jumps. -/
inductive Flow where
  | next
  | breakOut
  | continueOn
  | ret (v : Option Value)

/-- How a loop ends when a pass through its body ended in the given way; if at all. -/
def Flow.leaves? : Flow → Option Flow
  | next | continueOn => none
  | breakOut => some next
  | ret v => some (ret v)

/-- Passes through a loop until one of them ends it. -/
def loop (pass : Eval σ (Option Flow)) : (fuel : Nat) → Eval σ Flow
  | 0 => outOfFuel
  | fuel + 1 => do
    match ← pass with
    | some flow => return flow
    | none => loop pass fuel

/-- The condition of a loop; without one it goes on. -/
def test (cx : Context σ) : Option Expr → Eval σ Bool
  | none => return true
  | some e => bool (expr cx e)

def effect (cx : Context σ) : Option Expr → Eval σ Unit
  | none => return ()
  | some e => discard (expr cx e)

/-- One pass through a loop that tests first. -/
def passFirst (cx : Context σ) (cond : Option Expr) (body : Eval σ Flow) (step : Option Expr) :
    Eval σ (Option Flow) := do
  if ← test cx cond then
    match (← body).leaves? with
    | some flow => return some flow
    | none =>
      effect cx step
      return none
  else return some .next

/-- One pass through a loop that tests last. -/
def passLast (cx : Context σ) (body : Eval σ Flow) (cond : Expr) : Eval σ (Option Flow) := do
  match (← body).leaves? with
  | some flow => return some flow
  | none => if ← bool (expr cx cond) then return none else return some .next

mutual

def stmt (cx : Context σ) : Stmt → Eval σ Flow
  | .empty => return .next
  | .expr e => do
    effect cx (some e)
    return .next
  | .block body => enclosed (stmts cx body)
  | .decl _ ty _ vars => do
    declarators cx ty vars
    return .next
  | .ifThen cond yes => do
    if ← bool (expr cx cond) then enclosed (stmt cx yes) else return .next
  | .ifElse cond yes no => do
    if ← bool (expr cx cond) then enclosed (stmt cx yes) else enclosed (stmt cx no)
  | .forLoop init cond step body => enclosed do
    match ← stmt cx init with
    | .next => loop (passFirst cx cond (enclosed (stmt cx body)) step) cx.fuel
    | flow => return flow
  | .whileLoop cond body => loop (passFirst cx (some cond) (enclosed (stmt cx body)) none) cx.fuel
  | .doWhile body cond => loop (passLast cx (enclosed (stmt cx body)) cond) cx.fuel
  | .breakLoop _ => return .breakOut
  | .continueLoop _ => return .continueOn
  | .ret _ none => return .ret none
  | .ret _ (some e) => return .ret (some (fit cx.ret (← operand (expr cx e))))

def stmts (cx : Context σ) : List Stmt → Eval σ Flow
  | [] => return .next
  | s :: rest => do
    match ← stmt cx s with
    | .next => stmts cx rest
    | flow => return flow

end

/-! ## Functions -/

/-- Parameters with the values of a call, in a scope that the body's own variables share. -/
def parameters (params : List Param) (args : List Value) : Env :=
  (params.zip args).foldl (fun env (p, v) => env.declare p.name ⟨p.ty, v⟩) [[]]

/-- What a function gives back when its body ended in the given way. -/
def result (f : FunctionDef) : Flow → Except Stop (Option Value)
  | .ret v => .ok v
  | _ => if f.ret = .void then .ok none else .error (.missingReturn f.name)

/-- Calls a function where `room` calls may still be in progress at one time. -/
def function (module : List FunctionDef) (host : Host σ) (fuel : Nat) :
    (room : Nat) → FunctionDef → List Value → σ → Option (Except Stop (Option Value) × σ)
  | 0, _, _, s => some (.error .callDepth, s)
  | room + 1, f, args, s =>
    match stmts ⟨module, host, fuel, f.ret, function module host fuel room⟩ f.body
        (parameters f.params args) s with
    | none => none
    | some (.error e, s) => some (.error e, s)
    | some (.ok (flow, _), s) => some (result f flow, s)

/-- Evaluates the kernel of a module on its arguments. -/
def kernel (module : List FunctionDef) (host : Host σ) (fuel : Nat) (args : List Value) (s : σ) :
    Option (Except Stop (Option Value) × σ) :=
  match module.find? (·.kernel.isSome) with
  | none => some (.error .stuck, s)
  | some f => function module host fuel Machine.maxCalls f args s

end

end PixelKernel.Language.Meaning
