import PixelKernel.Language.Code.Chunk
import PixelKernel.Language.Syntax.Parser
import Std.Data.TreeMap

/-! # From syntax trees to code

Names are resolved, types checked and code built in one walk, in source order, so the
first complaint is the first fault of the text. A `Draft` is what the walk has collected.
-/

namespace PixelKernel.Language

/-- A variable in scope. -/
structure Local where
  slot : UInt16
  ty : Ty
  isConst : Bool
  deriving Repr, DecidableEq

abbrev Scope := Std.TreeMap String Local

structure Draft where
  consts : Array Value
  /-- Types of the slots of the current function. -/
  locals : Array Ty
  /-- Open scopes, the innermost first. -/
  scopes : List Scope

/-- Functions in the order of their text, with the place of each name. -/
structure Library where
  places : Std.TreeMap String Nat
  functions : Array Function
  /-- Of functions with one name, the first has the place. -/
  places_eq (name : String) : places[name]? = functions.findIdx? (·.name == name)

namespace Library

def empty : Library := ⟨∅, #[], by simp⟩

def add (lib : Library) (f : Function) : Library where
  places := lib.places.insertIfNew f.name lib.functions.size
  functions := lib.functions.push f
  places_eq name := by
    rw [Std.TreeMap.getElem?_insertIfNew, Array.findIdx?_push, ← lib.places_eq name]
    by_cases same : f.name = name
    · subst same
      by_cases known : f.name ∈ lib.places
      · simp [known]
      · simp [known]
    · simp [same]

/-- The function of a name and its index. -/
def find? (lib : Library) (name : String) : Option (Nat × Function) := do
  let i ← lib.places[name]?
  return (i, ← lib.functions[i]?)

end Library

/-- What is fixed while a function is lowered. -/
structure Surroundings where
  /-- Functions that can be called: those before this one. -/
  library : Library
  name : String
  ret : Ty
  kernel : Option Target

abbrev Lower := StateT Draft (Except Complaint)

namespace Lower

def complain {α : Type} (pos : Nat) (cause : Cause) : Lower α := throw ⟨pos, cause⟩

def find? (scopes : List Scope) (name : String) : Option Local :=
  scopes.findSome? (·[name]?)

/-- Index of a constant in the pool, which holds each value once. -/
def constant (v : Value) : Lower Op := do
  let draft ← get
  match draft.consts.findIdx? (·.same v) with
  | some i => return .const (UInt32.ofNat i)
  | none =>
    set { draft with consts := draft.consts.push v }
    return .const (UInt32.ofNat draft.consts.size)

/-- Declares a variable in the innermost scope. -/
def declare (pos : Nat) (name : String) (ty : Ty) (isConst : Bool) : Lower UInt16 := do
  let draft ← get
  let (scope, outer) := match draft.scopes with
    | [] => (∅, [])
    | scope :: outer => (scope, outer)
  if scope.contains name then complain pos (.redeclaration name)
  if draft.locals.size ≥ 65536 then complain pos .tooManyLocals
  let slot := UInt16.ofNat draft.locals.size
  set { draft with
    locals := draft.locals.push ty
    scopes := scope.insert name ⟨slot, ty, isConst⟩ :: outer }
  return slot

/-- Runs with a scope of its own. -/
def enclosed {α : Type} (m : Lower α) : Lower α := do
  let saved := (← get).scopes
  modify fun d => { d with scopes := ∅ :: saved }
  let a ← m
  modify fun d => { d with scopes := saved }
  return a

/-- Lane names come in three sets that do not mix. -/
def laneSets : List (List Char) :=
  [['x', 'y', 'z', 'w'], ['r', 'g', 'b', 'a'], ['s', 't', 'p', 'q']]

def readLanes (fields : String) (width : Nat) (set : List Char) :
    List Char → Except Cause Selection
  | [] => .ok []
  | c :: rest =>
    match set.idxOf? c with
    | none => .error (.mixedSets fields)
    | some i =>
      if h : i < width ∧ i < 4 then
        (readLanes fields width set rest).map (⟨i, h.2⟩ :: ·)
      else .error (.laneOutOfRange c width)

/-- Reads a selection from a vector of the given width. -/
def selection (fields : String) (width : Nat) : Except Cause Selection :=
  let cs := fields.toList
  if cs.length > 4 then .error (.badSelection fields)
  else match cs.head?.bind fun c => laneSets.find? (·.contains c) with
    | none => .error (.badSelection fields)
    | some set => readLanes fields width set cs

def liftCause {α : Type} (pos : Nat) : Except Cause α → Lower α
  | .ok a => return a
  | .error cause => complain pos cause

/-- The type of arithmetic between two operands, after promotion of ints. -/
def arithResult? (l r : Ty) : Option Ty :=
  if l = .int ∧ r = .int then some .int
  else match l.lanes?, r.lanes? with
    | some lw, some rw =>
      if lw = rw ∨ rw = 1 then some l else if lw = 1 then some r else none
    | _, _ => none

/-- Code that makes a value of type `found` usable as `wanted`. -/
def fit (what : String) (pos : Nat) (found wanted : Ty) : Except Complaint (List Op) :=
  if found = wanted then .ok []
  else if found = .int ∧ wanted = .float then .ok [.toFloat 0]
  else .error ⟨pos, .mismatch what found wanted⟩

/-- An assignable expression: a variable, or some lanes of one. -/
structure Place where
  var : Local
  lanes : Option Selection

namespace Place

def ty (p : Place) : Ty :=
  match p.lanes with
  | some lanes => (Ty.ofLanes? lanes.length).getD .float
  | none => p.var.ty.operand

def read (p : Place) : List Op :=
  .load p.var.slot :: (p.lanes.map Op.select).toList

def write (p : Place) : Op :=
  match p.lanes with
  | some lanes => .storeLanes p.var.slot lanes
  | none => .store p.var.slot

end Place

def variablePlace (scopes : List Scope) (name : String) : Except Cause Local :=
  match find? scopes name with
  | none => .error (.undeclared name)
  | some v =>
    if v.isConst then .error (.assignConst name)
    else if v.ty = .sampler then .error (.assignSampler name)
    else .ok v

/-- The place an expression denotes; no lane may be written twice. -/
def place (scopes : List Scope) : Expr → Except Cause Place
  | .var _ name => do return ⟨← variablePlace scopes name, none⟩
  | .select _ (.var _ name) fields => do
    let v ← variablePlace scopes name
    let t := v.ty.operand
    if !t.isVector then throw (.selectFrom fields t)
    let lanes ← selection fields (t.lanes?.getD 4)
    if !decide lanes.Nodup then throw (.repeatedLane fields)
    return ⟨v, some lanes⟩
  | _ => .error .notAssignable

/-- What a call does with its arguments, one after the other. -/
abbrev Fit := (index pos : Nat) → Ty → Except Complaint (List Op × Ty)

/-- Arguments of a declared function. -/
def fitParams (params : List Ty) : Fit := fun i pos t => do
  let wanted := ((params[i]?).getD .void).operand
  return (← fit "argument" pos t wanted, wanted)

/-- The argument of a conversion; complaints point at the call. -/
def fitConversion (callee : String) (call : Nat) : Fit := fun _ _ t =>
  match t with
  | .int | .float | .bool => .ok ([], t)
  | _ => .error ⟨call, .cannotConvert t callee⟩

/-- Parts of a vector. -/
def fitParts (callee : String) : Fit := fun _ pos t =>
  match t with
  | .int | .bool => .ok ([.toFloat 0], .float)
  | _ => if t.lanes?.isSome then .ok ([], t) else .error ⟨pos, .cannotBuild callee t⟩

/-- Arguments of a builtin: ints become floats. -/
def fitBuiltin : Fit := fun _ _ t =>
  .ok (if t = .int then ([.toFloat 0], .float) else ([], t))

/-- Scalar types that convert into each other. -/
def conversion? : String → Option (Op × Ty)
  | "float" => some (.toFloat 0, .float)
  | "int" => some (.toInt, .int)
  | "bool" => some (.toBool, .bool)
  | _ => none

def vectorWidth? : String → Option Nat
  | "vec2" => some 2
  | "vec3" => some 3
  | "vec4" | "color" => some 4
  | _ => none

/-- Meaning of a callee: what its arguments must be, and the instruction and type of the
    call once they are lowered. -/
structure Callee where
  fit : Fit
  finish : List Ty → Except Cause (Op × Ty)

def finishVector (callee : String) (width : Nat) (types : List Ty) : Except Cause (Op × Ty) :=
  let total := (types.map fun t => t.lanes?.getD 0).sum
  if total ≠ width ∧ ¬(types.length = 1 ∧ total = 1) then
    .error (.laneCount callee width total)
  else .ok (.construct (UInt8.ofNat width) (UInt8.ofNat types.length),
    (Ty.ofLanes? width).getD .vec4)

def finishBuiltin (kernel : Option Target) (callee : String) (types : List Ty) :
    Except Cause (Op × Ty) :=
  match Builtin.resolve? callee types with
  | none => .error (.noOverload callee types)
  | some (b, t) =>
    if b = .emit ∧ kernel ≠ some .reduce then .error .emitOutside
    else .ok (.builtin b (UInt8.ofNat types.length), t)

/-- Finds what is called: a function declared before, a conversion, a vector, a builtin. -/
def callee (cx : Surroundings) (pos : Nat) (name : String) (argc : Nat) :
    Except Cause Callee :=
  if argc > 255 then .error .tooManyArguments
  else match cx.library.find? name with
  | some (i, f) =>
    if f.params.length ≠ argc then .error (.argumentCount name f.params.length argc)
    else .ok ⟨fitParams f.params, fun _ =>
      .ok (.call (UInt16.ofNat i) (UInt8.ofNat argc), f.ret.operand)⟩
  | none => match conversion? name with
    | some r =>
      if argc ≠ 1 then .error (.oneArgument name)
      else .ok ⟨fitConversion name pos, fun _ => .ok r⟩
    | none => match vectorWidth? name with
      | some width => .ok ⟨fitParts name, finishVector name width⟩
      | none =>
        if (Builtin.named name).isEmpty then .error (.undeclaredFunction name)
        else .ok ⟨fitBuiltin, finishBuiltin cx.kernel name⟩

/-- Promotes the int operand beside a float or vector. The left operand lies one below. -/
def promote (l r : Ty) : List Op × Ty × Ty :=
  if l = .int ∧ r ≠ .int ∧ r.lanes?.isSome then ([.toFloat 1], .float, r)
  else if r = .int ∧ l ≠ .int ∧ l.lanes?.isSome then ([.toFloat 0], l, .float)
  else ([], l, r)

/-- Instruction and type of an operator on two promoted operands. -/
def operator? (op : BinaryOp) (l r : Ty) : Option (Op × Ty) :=
  match op with
  | .arith op => (arithResult? l r).map (.arith op, ·)
  | .order op =>
    match op with
    | .eq | .ne =>
      if l = r ∧ l ≠ .sampler ∧ l ≠ .void then some (.compare op, .bool) else none
    | _ => if l = r ∧ l.isOrdered then some (.compare op, .bool) else none
  | .logic _ => none

def literal (n : Literal) : Except Cause Value :=
  match n with
  | .int n => if n < 2 ^ 31 then .ok (.int (Int32.ofNat n)) else .error (.intOutOfRange n)
  | .float x => .ok (.float (Binary.narrow x))
  | .bool b => .ok (.bool b)

def unaryResult (op : UnaryOp) (t : Ty) : Except Cause Op :=
  match op with
  | .neg => if t = .int ∨ t.lanes?.isSome then .ok .neg else .error (.cannotNegate t)
  | .not => if t = .bool then .ok .not else .error (.cannotNot t)

/-- Brings both branches of a conditional to one type. -/
def joinBranches (a b : List Op) (s t : Ty) : Except Cause (List Op × List Op × Ty) :=
  let (a, b, s, t) :=
    if s = .int ∧ t = .float then (a ++ [.toFloat 0], b, Ty.float, t)
    else if t = .int ∧ s = .float then (a, b ++ [.toFloat 0], s, Ty.float)
    else (a, b, s, t)
  if s ≠ t ∨ s = .void then .error (.branches s t) else .ok (a, b, s)

mutual

/-- Code that leaves the value of an expression on the stack, and its type. -/
def expr (cx : Surroundings) : Expr → Lower (List Op × Ty)
  | .lit pos n => do
    let v ← liftCause pos (literal n)
    return ([← constant v], v.ty)
  | .var pos name => do
    match find? (← get).scopes name with
    | none => complain pos (.undeclared name)
    | some v => return ([.load v.slot], v.ty.operand)
  | .unary pos op e => do
    let (code, t) ← expr cx e
    return (code ++ [← liftCause pos (unaryResult op t)], t)
  | .binary pos op left right => do
    let (a, l) ← expr cx left
    match op with
    | .logic logic =>
      if l ≠ .bool then complain left.pos (.needsBools op.spelling)
      let (b, r) ← expr cx right
      if r ≠ .bool then complain right.pos (.needsBools op.spelling)
      return (Op.shortCircuit logic a b, .bool)
    | _ =>
      let (b, r) ← expr cx right
      let (convert, l, r) := promote l r
      match operator? op l r with
      | none => complain pos (.cannotApply op.spelling l r)
      | some (o, t) => return (a ++ b ++ convert ++ [o], t)
  | .ternary pos cond yes no => do
    let (c, t) ← expr cx cond
    if t ≠ .bool then complain cond.pos (.condition t)
    let (a, s) ← expr cx yes
    let (b, t) ← expr cx no
    let (a, b, t) ← liftCause pos (joinBranches a b s t)
    return (Op.choose c a b, t)
  | .call pos name args => do
    let f ← liftCause pos (callee cx pos name args.length)
    let (code, types) ← arguments cx f.fit 0 args
    let (o, t) ← liftCause pos (f.finish types)
    return (code ++ [o], t)
  | .select pos base fields => do
    let (code, t) ← expr cx base
    if !t.isVector then complain pos (.selectFrom fields t)
    let lanes ← liftCause pos (selection fields (t.lanes?.getD 4))
    return (code ++ [.select lanes], (Ty.ofLanes? lanes.length).getD .float)
  | .assign pos op target value => do
    let p ← liftCause target.pos (place (← get).scopes target)
    match op with
    | none =>
      let (code, t) ← expr cx value
      let convert ← fit "assigned value" value.pos t p.ty
      return (code ++ convert ++ [.dup, p.write], p.ty)
    | some op =>
      let (code, t) ← expr cx value
      let (convert, t) :=
        if t = .int ∧ p.ty ≠ .int then ([Op.toFloat 0], Ty.float) else ([], t)
      if arithResult? p.ty t ≠ some p.ty then complain pos (.cannotCombine p.ty t)
      return (p.read ++ code ++ convert ++ [.arith op, .dup, p.write], p.ty)
  | .step pos target increment leading => do
    let p ← liftCause target.pos (place (← get).scopes target)
    if p.lanes.isSome ∨ ¬p.var.ty.isOrdered then complain pos .needsCounter
    let one ← constant (if p.var.ty = .int then .int 1 else .float 1)
    let change := [one, .arith (if increment then .add else .sub)]
    let load := Op.load p.var.slot
    let store := Op.store p.var.slot
    return (if leading then load :: change ++ [.dup, store] else load :: .dup :: change ++ [store],
      p.var.ty)

/-- Arguments from left to right, each made to fit before the next one. -/
def arguments (cx : Surroundings) (f : Fit) (i : Nat) : List Expr → Lower (List Op × List Ty)
  | [] => return ([], [])
  | e :: rest => do
    let (code, t) ← expr cx e
    let (convert, t) ← f i e.pos t
    let (more, types) ← arguments cx f (i + 1) rest
    return (code ++ convert ++ more, t :: types)

end

def condition (cx : Surroundings) (cond : Expr) : Lower (List Op) := do
  let (code, t) ← expr cx cond
  if t ≠ .bool then complain cond.pos (.condition t)
  return code

/-- An expression whose value is dropped. -/
def effect (cx : Surroundings) (e : Expr) : Lower (List Op) := do
  let (code, t) ← expr cx e
  return if t = .void then code else code ++ [.pop]

/-- One variable of a declaration. It is in scope behind its own initialiser. -/
def declarator (cx : Surroundings) (ty : Ty) (isConst : Bool) (v : Declarator) :
    Lower (List Op) := do
  let value ← match v.init with
    | some e => do
      let (code, t) ← expr cx e
      pure (code ++ (← fit "initializer" e.pos t ty.operand))
    | none =>
      if isConst then complain v.pos (.constWithoutInit v.name)
      pure [← constant (Value.zero ty)]
  let slot ← declare v.pos v.name ty isConst
  return value ++ [.store slot]

def declarators (cx : Surroundings) (ty : Ty) (isConst : Bool) :
    List Declarator → Lower (List Op)
  | [] => return []
  | v :: rest => return (← declarator cx ty isConst v) ++ (← declarators cx ty isConst rest)

def returned (cx : Surroundings) (pos : Nat) : Option Expr → Lower (List Op)
  | none => do
    if cx.ret ≠ .void then complain pos (.missingValue cx.name cx.ret)
    return [.retVoid]
  | some e => do
    if cx.ret = .void then complain pos (.valueInVoid cx.name)
    let (code, t) ← expr cx e
    return code ++ (← fit "return value" e.pos t cx.ret.operand) ++ [.ret]

/-- Runs on the expression of a clause that may be left out. -/
def clause {α : Type} (f : Expr → Lower α) : Option Expr → Lower (Option α)
  | none => return none
  | some e => return some (← f e)

mutual

/-- Code of a statement, which leaves the stack as it was. -/
def stmt (cx : Surroundings) (inLoop : Bool) : Stmt → Lower Chunk
  | .empty => return []
  | .expr e => return .ofOps (← effect cx e)
  | .block body => enclosed (stmts cx inLoop body)
  | .decl pos ty isConst vars => do
    if ty = .void then complain pos .voidVariable
    if ty = .sampler then complain pos .samplerVariable
    return .ofOps (← declarators cx ty isConst vars)
  | .ifThen cond yes => do
    let c ← condition cx cond
    return .ifThen c (← enclosed (stmt cx inLoop yes))
  | .ifElse cond yes no => do
    let c ← condition cx cond
    let yes ← enclosed (stmt cx inLoop yes)
    return .ifElse c yes (← enclosed (stmt cx inLoop no))
  | .forLoop init cond step body => enclosed do
    let init ← stmt cx inLoop init
    let cond ← clause (condition cx) cond
    let body ← enclosed (stmt cx true body)
    let step ← clause (effect cx) step
    return init ++ .testFirst cond body (some (step.getD []))
  | .whileLoop cond body => do
    let c ← condition cx cond
    return .testFirst (some c) (← enclosed (stmt cx true body)) none
  | .doWhile body cond => do
    let body ← enclosed (stmt cx true body)
    return .testLast body (← condition cx cond)
  | .breakLoop pos => do
    if !inLoop then complain pos .breakOutside
    return [.breakOut]
  | .continueLoop pos => do
    if !inLoop then complain pos .continueOutside
    return [.continueOn]
  | .ret pos value => return .ofOps (← returned cx pos value)

def stmts (cx : Surroundings) (inLoop : Bool) : List Stmt → Lower Chunk
  | [] => return []
  | s :: rest => return (← stmt cx inLoop s) ++ (← stmts cx inLoop rest)

end

/-- Checks what can be said of a function by its head. -/
def checkHead (lib : Library) (f : FunctionDef) : Except Cause Unit := do
  if (lib.find? f.name).isSome then throw (.redefinition f.name)
  if !(Builtin.named f.name).isEmpty || (Ty.ofName? f.name).isSome then
    throw (.builtinRedefined f.name)
  if f.ret = .sampler then throw .samplerReturned
  match f.kernel with
  | some .normal => if f.ret.operand ≠ .vec4 then throw (.kernelResult f.name f.ret)
  | some .reduce => if f.ret ≠ .void then throw (.reduceResult f.name)
  | none => pure ()

def parameters (isKernel : Bool) : List Param → Lower Unit
  | [] => return ()
  | p :: rest => do
    if p.ty = .void then complain p.pos (.voidParameter p.name)
    if p.isStatic ∧ !isKernel then complain p.pos .staticParameter
    let _ ← declare p.pos p.name p.ty false
    parameters isKernel rest

/-- Lowers one function; those lowered before can be called. -/
def function (lib : Library) (consts : Array Value) (f : FunctionDef) :
    Except Complaint (Function × Array Value) := do
  match checkHead lib f with
  | .error cause => throw ⟨f.pos, cause⟩
  | .ok () => pure ()
  let cx : Surroundings := ⟨lib, f.name, f.ret, f.kernel⟩
  let body : Lower Chunk := do
    parameters f.kernel.isSome f.params
    stmts cx false f.body
  let (chunk, draft) ← body.run ⟨consts, #[], [∅]⟩
  let last := if f.ret = .void then Op.retVoid else .missingReturn
  let code := (chunk.ops ++ [last]).toArray
  return (⟨f.name, f.params.map (·.ty), f.ret, draft.locals, code⟩, draft.consts)

/-- Functions lowered so far, with the constants they share. -/
def functionsFrom (lib : Library) (consts : Array Value) :
    List FunctionDef → Except Complaint (Library × Array Value)
  | [] => .ok (lib, consts)
  | f :: rest => do
    let (g, consts) ← function lib consts f
    functionsFrom (lib.add g) consts rest

end Lower

/-- The one kernel of a module. -/
def theKernel (module : List FunctionDef) : Except Complaint (FunctionDef × Target) :=
  match module.filterMap fun f => f.kernel.map (f, ·) with
  | [] => .error ⟨0, .noKernel⟩
  | [k] => .ok k
  | (first, _) :: (second, _) :: _ =>
    .error ⟨second.pos, .manyKernels first.name second.name⟩

def lowerModule (module : List FunctionDef) : Except Complaint Program := do
  let (kernel, target) ← theKernel module
  let (lib, consts) ← Lower.functionsFrom .empty #[] module
  return {
    functions := lib.functions
    consts, target
    entry := (module.findIdx? (·.kernel.isSome)).getD 0
    arguments := kernel.params.map fun p => ⟨p.name, p.ty, p.isStatic⟩ }

/-- Compiles the text of a kernel. -/
def compile (source : String) : Except Diagnostic Program :=
  match parseModule source >>= lowerModule with
  | .ok p => .ok p
  | .error c => .error (c.locate source)

end PixelKernel.Language
