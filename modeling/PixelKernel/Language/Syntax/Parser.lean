import PixelKernel.Language.Token.Lexer

/-! # From tokens to syntax trees

A parser takes tokens from the front of a list that ends in the stop token, which it
never takes. `room` is the number of nesting levels still allowed: a nested statement or
expression takes one, and so does each further operator of a chain, until the chain ends.
Recursion goes down in room, or stays and goes to a tighter kind of expression.
-/

namespace PixelKernel.Language

abbrev Parser := StateT (List Token) (Except Complaint)

namespace Parser

/-- Deepest nesting of statements and expressions. -/
def maxNesting : Nat := 128

/-- Kind of the next token. -/
def kindOf : List Token → Token.Kind
  | [] => .stop
  | t :: _ => t.kind

/-- Byte position of the next token. -/
def posOf : List Token → Nat
  | [] => 0
  | t :: _ => t.start

def peek : Parser Token.Kind := fun ts => .ok (kindOf ts, ts)

/-- Kind of the token after the next one. -/
def peekSecond : Parser Token.Kind := fun ts =>
  .ok (match ts with
    | _ :: t :: _ => t.kind
    | ts => kindOf ts, ts)

def here : Parser Nat := fun ts => .ok (posOf ts, ts)

/-- Takes the next token. -/
def advance : Parser Unit := fun ts => .ok ((), ts.tail)

def complain {α : Type} (cause : Cause) : Parser α := fun ts => .error ⟨posOf ts, cause⟩

def unexpected {α : Type} (what : String) : Parser α := fun ts =>
  .error ⟨posOf ts, .expected what (kindOf ts)⟩

/-- No level is left for a nested statement or expression. -/
def outOfRoom {α : Type} (what : String) : Parser α := complain (.tooDeep what maxNesting)

/-- Takes the symbol `s` if it is next. -/
def accept (s : Symbol) : Parser Bool := do
  if (← peek) = .sym s then
    advance
    return true
  return false

def expect (s : Symbol) (what : String) : Parser Unit := do
  if (← peek) = .sym s then advance else unexpected what

def word (what : String) : Parser String := do
  match ← peek with
  | .word name =>
    advance
    return name
  | _ => unexpected what

def typeName : Parser Ty := do
  let pos ← here
  let name ← word "a type name"
  match Ty.ofName? name with
  | some t => return t
  | none => throw ⟨pos, .unknownType name⟩

/-- A declaration starts with `const`, or with the name of a type before another word. -/
def atDeclaration : Parser Bool := do
  match ← peek, ← peekSecond with
  | .sym .constWord, _ => return true
  | .word name, .word _ => return (Ty.ofName? name).isSome
  | _, _ => return false

/-- Items separated by commas, up to a closing bracket, at most one for each of the given
    tokens. -/
def commaList {α : Type} (item : Parser α) (what : String) : List Token → Parser (List α)
  | [] => unexpected what
  | _ :: bound => do
    let a ← item
    if ← accept .comma then return a :: (← commaList item what bound)
    expect .rparen what
    return [a]

/-- Items separated by commas, up to whatever follows, at most one for each of the given
    tokens. -/
def commaChain {α : Type} (item : Parser α) : List Token → Parser (List α)
  | [] => return []
  | _ :: bound => do
    let a ← item
    if ← accept .comma then return a :: (← commaChain item bound)
    return [a]

/-- The tokens left. A list has no more items than that. -/
def remaining : Parser (List Token) := get

end Parser

/-- Binary operators by level, the tightest level first. -/
def BinaryOp.ofSymbol? : (level : Nat) → Token.Kind → Option BinaryOp
  | 1, .sym .star => some (.arith .mul)
  | 1, .sym .slash => some (.arith .div)
  | 2, .sym .plus => some (.arith .add)
  | 2, .sym .minus => some (.arith .sub)
  | 3, .sym .lt => some (.order .lt)
  | 3, .sym .le => some (.order .le)
  | 3, .sym .gt => some (.order .gt)
  | 3, .sym .ge => some (.order .ge)
  | 4, .sym .eqEq => some (.order .eq)
  | 4, .sym .ne => some (.order .ne)
  | 5, .sym .andAnd => some (.logic .and)
  | 6, .sym .orOr => some (.logic .or)
  | _, _ => none

/-- The operator an assignment combines with; a plain assignment has none. -/
def assignOp? : Token.Kind → Option (Option ArithOp)
  | .sym .assign => some none
  | .sym .plusAssign => some (some .add)
  | .sym .minusAssign => some (some .sub)
  | .sym .starAssign => some (some .mul)
  | .sym .slashAssign => some (some .div)
  | _ => none

namespace Parser

/-- Selections and steps behind an operand; each one uses up a level of nesting. -/
def postfixRest : (room : Nat) → Expr → Parser Expr
  | 0, e => do
    match ← peek with
    | .sym .dot | .sym .plusPlus | .sym .minusMinus => outOfRoom "expression"
    | _ => return e
  | room + 1, e => do
    let pos ← here
    match ← peek with
    | .sym .dot =>
      advance
      postfixRest room (.select pos e (← word "a component selection after '.'"))
    | .sym .plusPlus =>
      advance
      postfixRest room (.step pos e true false)
    | .sym .minusMinus =>
      advance
      postfixRest room (.step pos e false false)
    | _ => return e

mutual

/-- An expression: a conditional, or an assignment to one. -/
def expression : (room : Nat) → Parser Expr
  | 0 => outOfRoom "expression"
  | room + 1 => do
    let target ← conditional room
    match assignOp? (← peek) with
    | none => return target
    | some op =>
      let pos ← here
      advance
      let value ← expression room
      return .assign pos op target value
termination_by room => 32 * room

def conditional (room : Nat) : Parser Expr := do
  let cond ← operation 6 room
  if (← peek) ≠ .sym .question then return cond
  let pos ← here
  advance
  let yes ← expression room
  expect .colon "':' in conditional expression"
  match room with
  | 0 => outOfRoom "expression"
  | room + 1 =>
    let no ← conditional room
    return .ternary pos cond yes no
termination_by 32 * room + 16

/-- Operators of the given level and of tighter ones, grouped to the left. -/
def operation : (level : Fin 7) → (room : Nat) → Parser Expr
  | ⟨0, _⟩, room => unary room
  | ⟨level + 1, h⟩, room => do
    let first ← operation ⟨level, by omega⟩ room
    chain ⟨level, by omega⟩ first room
termination_by level room => 32 * room + 2 * level.val + 3

/-- Further operands of the level above `level`; each one uses up a level of nesting. -/
def chain (level : Fin 6) (left : Expr) (room : Nat) : Parser Expr := do
  match BinaryOp.ofSymbol? (level.val + 1) (← peek) with
  | none => return left
  | some op =>
    let pos ← here
    advance
    let right ← operation level.castSucc room
    match room with
    | 0 => outOfRoom "expression"
    | room + 1 => chain level (.binary pos op left right) room
termination_by 32 * room + 2 * level.val + 4
decreasing_by all_goals grind

def unary (room : Nat) : Parser Expr := do
  let pos ← here
  match ← peek with
  | .sym .minus =>
    advance
    return .unary pos .neg (← nestedUnary room)
  | .sym .bang =>
    advance
    return .unary pos .not (← nestedUnary room)
  | .sym .plus =>
    advance
    nestedUnary room
  | .sym .plusPlus =>
    advance
    return .step pos (← nestedUnary room) true true
  | .sym .minusMinus =>
    advance
    return .step pos (← nestedUnary room) false true
  | _ =>
    let e ← primary room
    postfixRest room e
termination_by 32 * room + 2

def nestedUnary : (room : Nat) → Parser Expr
  | 0 => outOfRoom "expression"
  | room + 1 => unary room
termination_by room => 32 * room

def primary (room : Nat) : Parser Expr := do
  let pos ← here
  match ← peek with
  | .int n =>
    advance
    return .lit pos (.int n)
  | .float x =>
    advance
    return .lit pos (.float x)
  | .sym .trueWord =>
    advance
    return .lit pos (.bool true)
  | .sym .falseWord =>
    advance
    return .lit pos (.bool false)
  | .word name =>
    advance
    if ← accept .lparen then
      if ← accept .rparen then return .call pos name []
      let args ← commaList (expression room) "',' or ')' in argument list" (← remaining)
      return .call pos name args
    return .var pos name
  | .sym .lparen =>
    advance
    let e ← expression room
    expect .rparen "')'"
    return e
  | _ => unexpected "an expression"
termination_by 32 * room + 1

end

/-- One variable of a declaration; its initialiser is a conditional. -/
def declarator (room : Nat) : Parser Declarator := do
  let pos ← here
  let name ← word "a variable name"
  if ← accept .assign then return ⟨name, pos, some (← conditional room)⟩
  return ⟨name, pos, none⟩

def declaration (room : Nat) : Parser Stmt := do
  let pos ← here
  let isConst ← accept .constWord
  let ty ← typeName
  let vars ← commaChain (declarator room) (← remaining)
  expect .semi "';'"
  return .decl pos ty isConst vars

/-- An expression unless the symbol `s` is next. -/
def unlessNext (s : Symbol) (room : Nat) : Parser (Option Expr) := do
  if (← peek) = .sym s then return none
  return some (← expression room)

def expressionStmt (room : Nat) : Parser Stmt := do
  let e ← expression room
  expect .semi "';'"
  return .expr e

/-- The first clause of a `for`, with its semicolon. -/
def forInit (room : Nat) : Parser Stmt := do
  if ← accept .semi then return .empty
  if ← atDeclaration then declaration room else expressionStmt room

/-- Statements up to and including the closing brace, at most one for each of the given
    tokens. -/
def blockRest (stmt : Parser Stmt) : List Token → Parser (List Stmt)
  | [] => unexpected "'\x7d'"
  | _ :: bound => do
    if ← accept .rbrace then return []
    if (← peek) = .stop then unexpected "'\x7d'"
    let s ← stmt
    return s :: (← blockRest stmt bound)

def statement : (room : Nat) → Parser Stmt
  | 0 => outOfRoom "statement"
  | room + 1 => do
    let pos ← here
    match ← peek with
    | .sym .lbrace =>
      advance
      return .block (← blockRest (statement room) (← remaining))
    | .sym .semi =>
      advance
      return .empty
    | .sym .ifWord =>
      advance
      expect .lparen "'(' after 'if'"
      let cond ← expression room
      expect .rparen "')'"
      let yes ← statement room
      if ← accept .elseWord then return .ifElse cond yes (← statement room)
      return .ifThen cond yes
    | .sym .forWord =>
      advance
      expect .lparen "'(' after 'for'"
      let init ← forInit room
      let cond ← unlessNext .semi room
      expect .semi "';'"
      let step ← unlessNext .rparen room
      expect .rparen "')'"
      return .forLoop init cond step (← statement room)
    | .sym .whileWord =>
      advance
      expect .lparen "'(' after 'while'"
      let cond ← expression room
      expect .rparen "')'"
      return .whileLoop cond (← statement room)
    | .sym .doWord =>
      advance
      let body ← statement room
      expect .whileWord "'while' after do body"
      expect .lparen "'('"
      let cond ← expression room
      expect .rparen "')'"
      expect .semi "';'"
      return .doWhile body cond
    | .sym .breakWord =>
      advance
      expect .semi "';'"
      return .breakLoop pos
    | .sym .continueWord =>
      advance
      expect .semi "';'"
      return .continueLoop pos
    | .sym .returnWord =>
      advance
      let value ← unlessNext .semi room
      expect .semi "';'"
      return .ret pos value
    | _ => if ← atDeclaration then declaration room else expressionStmt room

/-- A `const` before a parameter is allowed and means nothing. -/
def param : Parser Param := do
  let isStatic ← accept .staticWord
  let _ ← accept .constWord
  let ty ← typeName
  let pos ← here
  let name ← word "a parameter name"
  return ⟨name, ty, isStatic, pos⟩

/-- The parameters and the closing parenthesis; `void` alone stands for none. -/
def params : Parser (List Param) := do
  if (← peek) = .word "void" && (← peekSecond) = .sym .rparen then advance
  if ← accept .rparen then return []
  commaList param "',' or ')'" (← remaining)

def kernelTag : Parser (Option Target) := do
  if ← accept .kernelWord then
    if ← accept .reduceWord then return some .reduce
    return some .normal
  return none

def functionDef : Parser FunctionDef := do
  let pos ← here
  let kernel ← kernelTag
  let ret ← typeName
  let name ← word "a function name"
  expect .lparen "'('"
  let params ← params
  expect .lbrace "'\x7b' to open the function body"
  let body ← blockRest (statement maxNesting) (← remaining)
  return ⟨name, ret, params, body, kernel, pos⟩

/-- Functions up to the stop token, at most one for each of the given tokens. -/
def functions : List Token → Parser (List FunctionDef)
  | [] => return []
  | _ :: bound => do
    if (← peek) = .stop then return []
    let f ← functionDef
    return f :: (← functions bound)

end Parser

/-- The functions of a source text. -/
def parseModule (source : String) : Except Complaint (List FunctionDef) := do
  let ts ← tokens source
  let (module, _) ← Parser.functions ts ts
  return module

end PixelKernel.Language
