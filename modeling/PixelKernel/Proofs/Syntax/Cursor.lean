import PixelKernel.Language.Code.Lowering

/-! # Reading tokens by their index

The parser once more, with all that can go wrong on the way. A cursor holds the index of the next
token and the number of levels that have been entered. A token is looked up at every step and may
be missing, and the levels are counted in a word that may be too small. Routines call each other
without a measure that ends them, so each run has a limit on the calls that nest.
-/

namespace PixelKernel.Language

/-- The tokens of a text, the index of the next one, and how many levels have been entered. -/
structure Cursor where
  tokens : List Token
  index : Nat
  nesting : Nat
  deriving Repr, DecidableEq

/-- Why a walk over tokens does not come to a result. -/
inductive Halt where
  | complaint (c : Complaint)
  /-- There is no token at the index. -/
  | outside (index : Nat)
  /-- The levels need a word of more than 64 bits, or more have been left than entered. -/
  | miscounted
  /-- More calls are nested than may be. -/
  | exhausted
  deriving Repr, DecidableEq

abbrev Walk := EStateM Halt Cursor

namespace Walk

open PixelKernel.Language.Parser (maxNesting)

variable {α : Type}

/-! ## Tokens -/

def tokenAt (i : Nat) : Walk Token := do
  match (← get).tokens[i]? with
  | some t => return t
  | none => throw (.outside i)

/-- The next token. -/
def next : Walk Token := do tokenAt (← get).index

def kind : Walk Token.Kind := do return (← next).kind

def offset : Walk Nat := do return (← next).start

/-- Kind of the token after the next one, or of the last one if there is none. -/
def secondKind : Walk Token.Kind := do
  let s ← get
  return (← tokenAt (min (s.index + 1) (s.tokens.length - 1))).kind

/-- Goes on to the next token, but not behind a stop token. -/
def bump : Walk Unit := do
  if (← kind) ≠ .stop then modify fun s => { s with index := s.index + 1 }

def complain (c : Complaint) : Walk α := throw (.complaint c)

def unexpected (what : String) : Walk α := do
  complain ⟨← offset, .expected what (← kind)⟩

def expect (s : Symbol) (what : String) : Walk Unit := do
  if (← kind) = .sym s then bump else unexpected what

def consume (s : Symbol) : Walk Bool := do
  if (← kind) = .sym s then
    bump
    return true
  return false

def word (what : String) : Walk String := do
  match ← kind with
  | .word name =>
    bump
    return name
  | _ => unexpected what

def typeName : Walk Ty := do
  let pos ← offset
  let name ← word "a type name"
  match Ty.ofName? name with
  | some t => return t
  | none => complain ⟨pos, .unknownType name⟩

def atDeclaration : Walk Bool := do
  match ← kind, ← secondKind with
  | .sym .constWord, _ => return true
  | .word name, .word _ => return (Ty.ofName? name).isSome
  | _, _ => return false

/-! ## Levels -/

/-- Enters a level. It counts as entered also when it is one too many. -/
def nest (what : String) : Walk Unit := do
  let s ← get
  if 2 ^ 64 ≤ s.nesting + 1 then throw .miscounted
  set { s with nesting := s.nesting + 1 }
  if maxNesting < s.nesting + 1 then complain ⟨← offset, .tooDeep what maxNesting⟩

/-- Leaves the last level. -/
def leave : Walk Unit := do
  let s ← get
  if s.nesting = 0 then throw .miscounted
  set { s with nesting := s.nesting - 1 }

/-- Leaves a level after the walk, whatever has come of it. -/
def leaving (walk : Walk α) : Walk α := fun s =>
  match walk s with
  | .ok a s => (do leave; return a : Walk α) s
  | .error e s => (do leave; throw e : Walk α) s

/-- A walk on a level of its own. -/
def nested (what : String) (walk : Walk α) : Walk α := do
  nest what
  leaving walk

def levels : Walk Nat := do return (← get).nesting

/-- Puts the number of levels back to what it was. -/
def restore (mark : Nat) : Walk Unit := modify fun s => { s with nesting := mark }

end Walk

/-! ## Routines -/

/-- What can be called, with the type of its result: the parts of the parser, and the further
    passes of their loops. -/
inductive Routine : Type → Type
  /-- An expression, on a level of its own. -/
  | expression : Routine Expr
  | assignment : Routine Expr
  | conditional : Routine Expr
  /-- Operators of a level, the tightest level first. -/
  | operation (level : Fin 6) : Routine Expr
  /-- Further operands of the level. -/
  | chain (level : Fin 6) (left : Expr) : Routine Expr
  | unary : Routine Expr
  | suffixed : Routine Expr
  /-- Selections and steps behind what has been read. -/
  | suffixes (base : Expr) : Routine Expr
  | primary : Routine Expr
  /-- Arguments of a call, from the next one on, and the closing parenthesis. -/
  | arguments : Routine (List Expr)
  /-- A statement, on a level of its own. -/
  | statement : Routine Stmt
  | clause : Routine Stmt
  /-- Statements, from the next one on, and the closing brace. -/
  | block : Routine (List Stmt)
  | declaration : Routine Stmt
  /-- Variables of a declaration, from the next one on. -/
  | declarators : Routine (List Declarator)
  | function : Routine FunctionDef
  /-- Parameters of a function, from the next one on, and the closing parenthesis. -/
  | parameters : Routine (List Param)
  /-- Functions, from the next one on, up to the stop token. -/
  | functions : Routine (List FunctionDef)

namespace Routine

open Walk

/-- Reads an operand of operators of the level. -/
def operand : Fin 6 → Routine Expr
  | ⟨0, _⟩ => unary
  | ⟨level + 1, h⟩ => operation ⟨level, by omega⟩

/-- One pass of a routine. Everything that it has to call is left to `call`. -/
def body (call : ∀ {β : Type}, Routine β → Walk β) : {α : Type} → Routine α → Walk α
  | _, expression => nested "expression" (call assignment)
  | _, assignment => do
    let target ← call conditional
    match assignOp? (← kind) with
    | none => return target
    | some op =>
      let pos ← offset
      bump
      let value ← call expression
      return .assign pos op target value
  | _, conditional => do
    let cond ← call (operation 5)
    if (← kind) ≠ .sym .question then return cond
    let pos ← offset
    bump
    let yes ← call expression
    expect .colon "':' in conditional expression"
    let no ← nested "expression" (call conditional)
    return .ternary pos cond yes no
  | _, operation level => do
    let first ← call (operand level)
    let mark ← levels
    let e ← call (chain level first)
    restore mark
    return e
  | _, chain level left => do
    match BinaryOp.ofSymbol? (level.val + 1) (← kind) with
    | none => return left
    | some op =>
      let pos ← offset
      bump
      let right ← call (operand level)
      nest "expression"
      call (chain level (.binary pos op left right))
  | _, unary => do
    let pos ← offset
    match ← kind with
    | .sym .minus =>
      bump
      return .unary pos .neg (← nested "expression" (call unary))
    | .sym .bang =>
      bump
      return .unary pos .not (← nested "expression" (call unary))
    | .sym .plus =>
      bump
      nested "expression" (call unary)
    | .sym .plusPlus =>
      bump
      return .step pos (← nested "expression" (call unary)) true true
    | .sym .minusMinus =>
      bump
      return .step pos (← nested "expression" (call unary)) false true
    | _ => call suffixed
  | _, suffixed => do
    let base ← call primary
    let mark ← levels
    let e ← call (suffixes base)
    restore mark
    return e
  | _, suffixes base => do
    let pos ← offset
    match ← kind with
    | .sym .dot =>
      nest "expression"
      bump
      let fields ← word "a component selection after '.'"
      call (suffixes (.select pos base fields))
    | .sym .plusPlus =>
      nest "expression"
      bump
      call (suffixes (.step pos base true false))
    | .sym .minusMinus =>
      nest "expression"
      bump
      call (suffixes (.step pos base false false))
    | _ => return base
  | _, primary => do
    let pos ← offset
    match ← kind with
    | .int n =>
      bump
      return .lit pos (.int n)
    | .float x =>
      bump
      return .lit pos (.float x)
    | .sym .trueWord =>
      bump
      return .lit pos (.bool true)
    | .sym .falseWord =>
      bump
      return .lit pos (.bool false)
    | .word name =>
      bump
      if ← consume .lparen then
        if ← consume .rparen then return .call pos name []
        let args ← call arguments
        return .call pos name args
      return .var pos name
    | .sym .lparen =>
      bump
      let e ← call expression
      expect .rparen "')'"
      return e
    | _ => unexpected "an expression"
  | _, arguments => do
    let e ← call expression
    if ← consume .comma then return e :: (← call arguments)
    expect .rparen "',' or ')' in argument list"
    return [e]
  | _, statement => nested "statement" (call clause)
  | _, clause => do
    let pos ← offset
    match ← kind with
    | .sym .lbrace =>
      bump
      return .block (← call block)
    | .sym .semi =>
      bump
      return .empty
    | .sym .ifWord =>
      bump
      expect .lparen "'(' after 'if'"
      let cond ← call expression
      expect .rparen "')'"
      let yes ← call statement
      if ← consume .elseWord then return .ifElse cond yes (← call statement)
      return .ifThen cond yes
    | .sym .forWord =>
      bump
      expect .lparen "'(' after 'for'"
      let init ← forInit
      let cond ← unlessNext .semi
      expect .semi "';'"
      let step ← unlessNext .rparen
      expect .rparen "')'"
      return .forLoop init cond step (← call statement)
    | .sym .whileWord =>
      bump
      expect .lparen "'(' after 'while'"
      let cond ← call expression
      expect .rparen "')'"
      return .whileLoop cond (← call statement)
    | .sym .doWord =>
      bump
      let body ← call statement
      expect .whileWord "'while' after do body"
      expect .lparen "'('"
      let cond ← call expression
      expect .rparen "')'"
      expect .semi "';'"
      return .doWhile body cond
    | .sym .breakWord =>
      bump
      expect .semi "';'"
      return .breakLoop pos
    | .sym .continueWord =>
      bump
      expect .semi "';'"
      return .continueLoop pos
    | .sym .returnWord =>
      bump
      let value ← unlessNext .semi
      expect .semi "';'"
      return .ret pos value
    | _ => declarationOr
  | _, block => do
    if ← consume .rbrace then return []
    if (← kind) = .stop then unexpected "'\x7d'"
    let s ← call statement
    return s :: (← call block)
  | _, declaration => do
    let pos ← offset
    let isConst ← consume .constWord
    let ty ← typeName
    let vars ← call declarators
    expect .semi "';'"
    return .decl pos ty isConst vars
  | _, declarators => do
    let v ← declarator
    if ← consume .comma then return v :: (← call declarators)
    return [v]
  | _, function => do
    let pos ← offset
    let kernel ← kernelTag
    let ret ← typeName
    let name ← word "a function name"
    expect .lparen "'('"
    let params ← params
    expect .lbrace "'\x7b' to open the function body"
    let body ← call block
    return ⟨name, ret, params, body, kernel, pos⟩
  | _, parameters => do
    let p ← param
    if ← consume .comma then return p :: (← call parameters)
    expect .rparen "',' or ')'"
    return [p]
  | _, functions => do
    if (← kind) = .stop then return []
    let f ← call function
    return f :: (← call functions)
where
  expressionStmt : Walk Stmt := do
    let e ← call expression
    expect .semi "';'"
    return .expr e
  declarationOr : Walk Stmt := do
    if ← atDeclaration then call declaration else expressionStmt
  forInit : Walk Stmt := do
    if ← consume .semi then return .empty
    declarationOr
  unlessNext (s : Symbol) : Walk (Option Expr) := do
    if (← kind) = .sym s then return none
    return some (← call expression)
  declarator : Walk Declarator := do
    let pos ← offset
    let name ← word "a variable name"
    if ← consume .assign then return ⟨name, pos, some (← call conditional)⟩
    return ⟨name, pos, none⟩
  param : Walk Param := do
    let isStatic ← consume .staticWord
    let _ ← consume .constWord
    let ty ← typeName
    let pos ← offset
    let name ← word "a parameter name"
    return ⟨name, ty, isStatic, pos⟩
  params : Walk (List Param) := do
    if (← kind) = .word "void" && (← secondKind) = .sym .rparen then bump
    if ← consume .rparen then return []
    call parameters
  kernelTag : Walk (Option Target) := do
    if ← consume .kernelWord then
      if ← consume .reduceWord then return some .reduce
      return some .normal
    return none

/-- Runs a routine while no more than `calls` calls are nested. -/
def run : (calls : Nat) → {α : Type} → Routine α → Walk α
  | 0, _, _ => throw .exhausted
  | calls + 1, _, r => r.body (run calls)

end Routine

/-! ## Compiling -/

/-- What a walk has come to, if it has not halted for another reason than a complaint. -/
def Walk.outcome {α : Type} : EStateM.Result Halt Cursor α → Option (Except Complaint α)
  | .ok a _ => some (.ok a)
  | .error (.complaint c) _ => some (.error c)
  | .error _ _ => none

/-- The functions of a text whose tokens are read by their index. -/
def parseWithin (calls : Nat) (source : String) : Option (Except Complaint (List FunctionDef)) :=
  match tokens source with
  | .error c => some (.error c)
  | .ok ts => Walk.outcome (Routine.functions.run calls ⟨ts, 0, 0⟩)

def compileWithin (calls : Nat) (source : String) : Option (Except Diagnostic Program) :=
  (parseWithin calls source).map fun parsed =>
    match parsed >>= lowerModule with
    | .ok p => .ok p
    | .error c => .error (c.locate source)

end PixelKernel.Language
