import PixelKernel.Language.Syntax.Parser

/-! # Syntax trees without positions

Positions in a text come into syntax trees and complaints, and decide nothing. A computation
`Forgets` them when it does on a state without positions what it does on the state itself, up to the
positions in its outcome.
-/

namespace PixelKernel.Language

/-! ## Trees -/

mutual

/-- The expression with all positions at the start of the text. -/
def Expr.bare : Expr → Expr
  | .lit _ value => .lit 0 value
  | .var _ name => .var 0 name
  | .unary _ op e => .unary 0 op e.bare
  | .binary _ op a b => .binary 0 op a.bare b.bare
  | .ternary _ a b c => .ternary 0 a.bare b.bare c.bare
  | .call _ callee args => .call 0 callee (Expr.bareList args)
  | .select _ e fields => .select 0 e.bare fields
  | .assign _ op target value => .assign 0 op target.bare value.bare
  | .step _ target increment leading => .step 0 target.bare increment leading

def Expr.bareList : List Expr → List Expr
  | [] => []
  | e :: rest => e.bare :: Expr.bareList rest

end

def Declarator.bare (v : Declarator) : Declarator := ⟨v.name, 0, v.init.map Expr.bare⟩

mutual

/-- The statement with all positions at the start of the text. -/
def Stmt.bare : Stmt → Stmt
  | .empty => .empty
  | .expr e => .expr e.bare
  | .block body => .block (Stmt.bareList body)
  | .decl _ ty isConst vars => .decl 0 ty isConst (vars.map Declarator.bare)
  | .ifThen cond yes => .ifThen cond.bare yes.bare
  | .ifElse cond yes no => .ifElse cond.bare yes.bare no.bare
  | .forLoop init cond step body =>
    .forLoop init.bare (cond.map Expr.bare) (step.map Expr.bare) body.bare
  | .whileLoop cond body => .whileLoop cond.bare body.bare
  | .doWhile body cond => .doWhile body.bare cond.bare
  | .breakLoop _ => .breakLoop 0
  | .continueLoop _ => .continueLoop 0
  | .ret _ value => .ret 0 (value.map Expr.bare)

def Stmt.bareList : List Stmt → List Stmt
  | [] => []
  | s :: rest => s.bare :: Stmt.bareList rest

end

def Param.bare (p : Param) : Param := { p with pos := 0 }

def FunctionDef.bare (f : FunctionDef) : FunctionDef :=
  { f with params := f.params.map Param.bare, body := Stmt.bareList f.body, pos := 0 }

def Token.bare (t : Token) : Token := ⟨t.kind, 0, 0⟩

theorem Expr.bareList_eq_map (es : List Expr) : Expr.bareList es = es.map Expr.bare := by
  induction es with
  | nil => rfl
  | cons e es ih => rw [Expr.bareList, ih, List.map_cons]

/-! ## Computations -/

section Computations

variable {σ α β γ δ : Type}

/-- An outcome whose complaint has lost its position. -/
def unplaced (f : α → β) : Except Complaint α → Except Complaint β
  | .ok a => .ok (f a)
  | .error c => .error ⟨0, c.cause⟩

theorem unplaced_bind {f : α → β} {g : γ → δ} {x : Except Complaint α}
    {k : α → Except Complaint γ} {k' : β → Except Complaint δ}
    (h : ∀ a, k' (f a) = unplaced g (k a)) : (unplaced f x >>= k') = unplaced g (x >>= k) := by
  cases x with
  | error c => rfl
  | ok a => exact h a

/-- On a state without positions, `m'` does what `m` does on the state, and makes of its result
    what `f` makes of it. -/
def Forgets (s : σ → σ) (f : α → β) (m : StateT σ (Except Complaint) α)
    (m' : StateT σ (Except Complaint) β) : Prop :=
  ∀ st, m' (s st) = unplaced (Prod.map f s) (m st)

namespace Forgets

variable {s : σ → σ} {f : α → β} {g : γ → δ}

theorem pure {a : α} {b : β} (h : b = f a) : Forgets s f (Pure.pure a) (Pure.pure b) := by
  subst h
  exact fun st => rfl

theorem bind {m : StateT σ (Except Complaint) α} {m' : StateT σ (Except Complaint) β}
    {k : α → StateT σ (Except Complaint) γ} {k' : β → StateT σ (Except Complaint) δ}
    (hm : Forgets s f m m') (hk : ∀ a, Forgets s g (k a) (k' (f a))) :
    Forgets s g (m >>= k) (m' >>= k') := by
  intro st
  change (m' (s st) >>= fun r => k' r.1 r.2) = unplaced _ (m st >>= fun r => k r.1 r.2)
  rw [hm st]
  exact unplaced_bind fun r => hk r.1 r.2

/-- Nothing is forgotten of the first result. -/
theorem next {m m' : StateT σ (Except Complaint) α}
    {k : α → StateT σ (Except Complaint) γ} {k' : α → StateT σ (Except Complaint) δ}
    (hm : Forgets s id m m') (hk : ∀ a, Forgets s g (k a) (k' a)) :
    Forgets s g (m >>= k) (m' >>= k') := hm.bind hk

theorem throw {c c' : Complaint} (h : c' = ⟨0, c.cause⟩) :
    Forgets s f (throw c) (MonadExcept.throw c') := by
  subst h
  exact fun st => rfl

end Forgets

end Computations

/-! ## Parsers -/

namespace Parser

variable {α β : Type} {f : α → β}

/-- The same parser reads tokens without positions as it reads the tokens. -/
abbrev Blind (f : α → β) (m : Parser α) (m' : Parser β) : Prop := Forgets (List.map Token.bare) f m m'

theorem kindOf_bare (ts : List Token) : kindOf (ts.map Token.bare) = kindOf ts := by
  cases ts <;> rfl

theorem posOf_bare (ts : List Token) : posOf (ts.map Token.bare) = 0 := by
  cases ts <;> rfl

namespace Blind

theorem peek : Blind id Parser.peek Parser.peek := by
  intro ts
  rw [Parser.peek, kindOf_bare]
  rfl

theorem peekSecond : Blind id Parser.peekSecond Parser.peekSecond := by
  intro ts
  cases ts with
  | nil => rfl
  | cons t ts => cases ts <;> rfl

theorem here : Blind (fun _ => 0) Parser.here Parser.here := by
  intro ts
  rw [Parser.here, posOf_bare]
  rfl

theorem remaining : Blind (List.map Token.bare) Parser.remaining Parser.remaining := fun _ => rfl

theorem advance : Blind id Parser.advance Parser.advance := by
  intro ts
  rw [Parser.advance, ← List.map_tail]
  rfl

theorem complain {cause : Cause} : Blind f (Parser.complain cause) (Parser.complain cause) := by
  intro ts
  rw [Parser.complain, posOf_bare]
  rfl

theorem unexpected {what : String} : Blind f (Parser.unexpected what) (Parser.unexpected what) := by
  intro ts
  rw [Parser.unexpected, posOf_bare, kindOf_bare]
  rfl

theorem outOfRoom {what : String} : Blind f (Parser.outOfRoom what) (Parser.outOfRoom what) :=
  complain

theorem accept {s : Symbol} : Blind id (Parser.accept s) (Parser.accept s) := by
  unfold Parser.accept
  refine peek.next fun k => ?_
  split
  · exact advance.next fun _ => .pure rfl
  · exact .pure rfl

theorem expect {s : Symbol} {what : String} :
    Blind id (Parser.expect s what) (Parser.expect s what) := by
  unfold Parser.expect
  refine peek.next fun k => ?_
  split
  · exact advance
  · exact unexpected

theorem word {what : String} : Blind id (Parser.word what) (Parser.word what) := by
  unfold Parser.word
  refine peek.next fun k => ?_
  split
  · exact advance.next fun _ => .pure rfl
  · exact unexpected

theorem typeName : Blind id Parser.typeName Parser.typeName := by
  unfold Parser.typeName
  refine here.bind fun pos => word.next fun name => ?_
  split
  · exact .pure rfl
  · exact .throw rfl

theorem atDeclaration : Blind id Parser.atDeclaration Parser.atDeclaration := by
  unfold Parser.atDeclaration
  refine peek.next fun k => peekSecond.next fun l => ?_
  split <;> exact .pure rfl

theorem commaList {item : Parser α} {item' : Parser β} (h : Blind f item item') (what : String)
    (bound : List Token) : Blind (List.map f) (Parser.commaList item what bound)
      (Parser.commaList item' what (bound.map Token.bare)) := by
  induction bound with
  | nil => exact unexpected
  | cons t bound ih =>
    rw [List.map_cons]
    unfold Parser.commaList
    refine h.bind fun a => accept.next fun more => ?_
    split
    · exact ih.bind fun as => .pure rfl
    · exact expect.next fun _ => .pure rfl

theorem commaChain {item : Parser α} {item' : Parser β} (h : Blind f item item')
    (bound : List Token) : Blind (List.map f) (Parser.commaChain item bound)
      (Parser.commaChain item' (bound.map Token.bare)) := by
  induction bound with
  | nil => exact .pure rfl
  | cons t bound ih =>
    rw [List.map_cons]
    unfold Parser.commaChain
    refine h.bind fun a => accept.next fun more => ?_
    split
    · exact ih.bind fun as => .pure rfl
    · exact .pure rfl

theorem postfixRest (room : Nat) (e : Expr) :
    Blind Expr.bare (Parser.postfixRest room e) (Parser.postfixRest room e.bare) := by
  induction room generalizing e with
  | zero =>
    unfold Parser.postfixRest
    refine peek.next fun k => ?_
    split
    · exact outOfRoom
    · exact outOfRoom
    · exact outOfRoom
    · exact .pure rfl
  | succ room ih =>
    unfold Parser.postfixRest
    refine here.bind fun pos => peek.next fun k => ?_
    split
    · exact advance.next fun _ => word.next fun _ => ih _
    · exact advance.next fun _ => ih _
    · exact advance.next fun _ => ih _
    · exact .pure rfl

mutual

theorem expression (room : Nat) :
    Blind Expr.bare (Parser.expression room) (Parser.expression room) := by
  cases room with
  | zero => rw [Parser.expression]; exact outOfRoom
  | succ room =>
    rw [Parser.expression]
    refine (conditional room).bind fun target => peek.next fun k => ?_
    split
    · exact .pure rfl
    · exact here.bind fun _ => advance.next fun _ => (expression room).bind fun value => .pure rfl
termination_by 32 * room

theorem conditional (room : Nat) :
    Blind Expr.bare (Parser.conditional room) (Parser.conditional room) := by
  rw [Parser.conditional]
  refine (operation 6 room).bind fun cond => peek.next fun k => ?_
  split
  · exact .pure rfl
  · refine here.bind fun _ => advance.next fun _ => (expression room).bind fun yes =>
      expect.next fun _ => ?_
    cases room with
    | zero => exact outOfRoom
    | succ room => exact (conditional room).bind fun no => .pure rfl
termination_by 32 * room + 16

theorem operation (level : Fin 7) (room : Nat) :
    Blind Expr.bare (Parser.operation level room) (Parser.operation level room) := by
  obtain ⟨level, h⟩ := level
  cases level with
  | zero => rw [Parser.operation]; exact unary room
  | succ level =>
    rw [Parser.operation]
    exact (operation ⟨level, by omega⟩ room).bind fun first => chain ⟨level, by omega⟩ first room
termination_by 32 * room + 2 * level.val + 3

theorem chain (level : Fin 6) (left : Expr) (room : Nat) :
    Blind Expr.bare (Parser.chain level left room) (Parser.chain level left.bare room) := by
  rw [Parser.chain, Parser.chain]
  refine peek.next fun k => ?_
  split
  · exact .pure rfl
  · refine here.bind fun _ => advance.next fun _ =>
      (operation level.castSucc room).bind fun right => ?_
    cases room with
    | zero => exact outOfRoom
    | succ room => exact chain level _ room
termination_by 32 * room + 2 * level.val + 4
decreasing_by all_goals grind

theorem unary (room : Nat) : Blind Expr.bare (Parser.unary room) (Parser.unary room) := by
  rw [Parser.unary]
  refine here.bind fun pos => peek.next fun k => ?_
  split
  · exact advance.next fun _ => (nestedUnary room).bind fun e => .pure rfl
  · exact advance.next fun _ => (nestedUnary room).bind fun e => .pure rfl
  · exact advance.next fun _ => nestedUnary room
  · exact advance.next fun _ => (nestedUnary room).bind fun e => .pure rfl
  · exact advance.next fun _ => (nestedUnary room).bind fun e => .pure rfl
  · exact (primary room).bind fun e => postfixRest room e
termination_by 32 * room + 2

theorem nestedUnary (room : Nat) :
    Blind Expr.bare (Parser.nestedUnary room) (Parser.nestedUnary room) := by
  cases room with
  | zero => rw [Parser.nestedUnary]; exact outOfRoom
  | succ room => rw [Parser.nestedUnary]; exact unary room
termination_by 32 * room

theorem primary (room : Nat) : Blind Expr.bare (Parser.primary room) (Parser.primary room) := by
  rw [Parser.primary]
  refine here.bind fun pos => peek.next fun k => ?_
  split
  · exact advance.next fun _ => .pure rfl
  · exact advance.next fun _ => .pure rfl
  · exact advance.next fun _ => .pure rfl
  · exact advance.next fun _ => .pure rfl
  · refine advance.next fun _ => accept.next fun called => ?_
    split
    · refine accept.next fun closed => ?_
      split
      · exact .pure rfl
      · refine remaining.bind fun bound => (commaList (expression room) _ bound).bind fun args => ?_
        exact .pure (congrArg (Expr.call 0 _) (Expr.bareList_eq_map args).symm)
    · exact .pure rfl
  · exact advance.next fun _ => (expression room).bind fun e => expect.next fun _ => .pure rfl
  · exact unexpected
termination_by 32 * room + 1

end

theorem declarator (room : Nat) :
    Blind Declarator.bare (Parser.declarator room) (Parser.declarator room) := by
  unfold Parser.declarator
  refine here.bind fun pos => word.next fun name => accept.next fun given => ?_
  split
  · exact (conditional room).bind fun e => .pure rfl
  · exact .pure rfl

theorem declaration (room : Nat) :
    Blind Stmt.bare (Parser.declaration room) (Parser.declaration room) := by
  unfold Parser.declaration
  exact here.bind fun _ => accept.next fun _ => typeName.next fun _ => remaining.bind fun bound =>
    (commaChain (declarator room) bound).bind fun vars => expect.next fun _ => .pure rfl

theorem unlessNext {s : Symbol} (room : Nat) :
    Blind (Option.map Expr.bare) (Parser.unlessNext s room) (Parser.unlessNext s room) := by
  unfold Parser.unlessNext
  refine peek.next fun k => ?_
  split
  · exact .pure rfl
  · exact (expression room).bind fun e => .pure rfl

theorem expressionStmt (room : Nat) :
    Blind Stmt.bare (Parser.expressionStmt room) (Parser.expressionStmt room) := by
  unfold Parser.expressionStmt
  exact (expression room).bind fun e => expect.next fun _ => .pure rfl

theorem forInit (room : Nat) : Blind Stmt.bare (Parser.forInit room) (Parser.forInit room) := by
  unfold Parser.forInit
  refine accept.next fun empty => ?_
  split
  · exact .pure rfl
  · refine atDeclaration.next fun decl => ?_
    split
    · exact declaration room
    · exact expressionStmt room

theorem blockRest {stmt : Parser Stmt} (h : Blind Stmt.bare stmt stmt) (bound : List Token) :
    Blind Stmt.bareList (Parser.blockRest stmt bound)
      (Parser.blockRest stmt (bound.map Token.bare)) := by
  induction bound with
  | nil => exact unexpected
  | cons t bound ih =>
    rw [List.map_cons]
    unfold Parser.blockRest
    refine accept.next fun closed => ?_
    split
    · exact .pure rfl
    · refine peek.next fun k => ?_
      split
      · exact unexpected
      · exact h.bind fun s => ih.bind fun rest => .pure rfl

theorem statement (room : Nat) : Blind Stmt.bare (Parser.statement room) (Parser.statement room) := by
  induction room with
  | zero => exact outOfRoom
  | succ room ih =>
    unfold Parser.statement
    refine here.bind fun pos => peek.next fun k => ?_
    split
    · exact advance.next fun _ => remaining.bind fun bound =>
        (blockRest ih bound).bind fun body => .pure rfl
    · exact advance.next fun _ => .pure rfl
    · refine advance.next fun _ => expect.next fun _ => (expression room).bind fun cond =>
        expect.next fun _ => ih.bind fun yes => accept.next fun more => ?_
      split
      · exact ih.bind fun no => .pure rfl
      · exact .pure rfl
    · exact advance.next fun _ => expect.next fun _ => (forInit room).bind fun init =>
        (unlessNext room).bind fun cond => expect.next fun _ =>
          (unlessNext room).bind fun step => expect.next fun _ => ih.bind fun body => .pure rfl
    · exact advance.next fun _ => expect.next fun _ => (expression room).bind fun cond =>
        expect.next fun _ => ih.bind fun body => .pure rfl
    · exact advance.next fun _ => ih.bind fun body => expect.next fun _ => expect.next fun _ =>
        (expression room).bind fun cond => expect.next fun _ => expect.next fun _ => .pure rfl
    · exact advance.next fun _ => expect.next fun _ => .pure rfl
    · exact advance.next fun _ => expect.next fun _ => .pure rfl
    · exact advance.next fun _ => (unlessNext room).bind fun value => expect.next fun _ => .pure rfl
    · refine atDeclaration.next fun decl => ?_
      split
      · exact declaration room
      · exact expressionStmt room

theorem param : Blind Param.bare Parser.param Parser.param := by
  unfold Parser.param
  exact accept.next fun _ => accept.next fun _ => typeName.next fun _ => here.bind fun _ =>
    word.next fun _ => .pure rfl

theorem params : Blind (List.map Param.bare) Parser.params Parser.params := by
  unfold Parser.params
  refine peek.next fun k => peekSecond.next fun l => ?_
  have rest : Blind (List.map Param.bare) (do
      if ← Parser.accept .rparen then return []
      Parser.commaList Parser.param "',' or ')'" (← Parser.remaining)) (do
      if ← Parser.accept .rparen then return []
      Parser.commaList Parser.param "',' or ')'" (← Parser.remaining)) := by
    refine accept.next fun closed => ?_
    split
    · exact .pure rfl
    · exact remaining.bind fun bound => commaList param _ bound
  split
  · exact advance.next fun _ => rest
  · exact rest

theorem kernelTag : Blind id Parser.kernelTag Parser.kernelTag := by
  unfold Parser.kernelTag
  refine accept.next fun kernel => ?_
  split
  · refine accept.next fun reduce => ?_
    split <;> exact .pure rfl
  · exact .pure rfl

theorem functionDef : Blind FunctionDef.bare Parser.functionDef Parser.functionDef := by
  unfold Parser.functionDef
  exact here.bind fun _ => kernelTag.next fun _ => typeName.next fun _ => word.next fun _ =>
    expect.next fun _ => params.bind fun _ => expect.next fun _ => remaining.bind fun bound =>
      (blockRest (statement _) bound).bind fun body => .pure rfl

theorem functions (bound : List Token) : Blind (List.map FunctionDef.bare)
    (Parser.functions bound) (Parser.functions (bound.map Token.bare)) := by
  induction bound with
  | nil => exact .pure rfl
  | cons t bound ih =>
    rw [List.map_cons]
    unfold Parser.functions
    refine peek.next fun k => ?_
    split
    · exact .pure rfl
    · exact functionDef.bind fun f => ih.bind fun fs => .pure rfl

end Blind

end Parser

/-- Tokens of the same kinds are read as the same module, but for positions. -/
theorem functions_of_kinds {ts us : List Token} (same : us.map (·.kind) = ts.map (·.kind)) :
    unplaced (Prod.map (List.map FunctionDef.bare) (List.map Token.bare)) (Parser.functions us us) =
      unplaced (Prod.map (List.map FunctionDef.bare) (List.map Token.bare))
        (Parser.functions ts ts) := by
  have bare (ts : List Token) :
      ts.map Token.bare = (ts.map (·.kind)).map fun k => (⟨k, 0, 0⟩ : Token) := by
    rw [List.map_map]
    rfl
  rw [← Parser.Blind.functions us us, ← Parser.Blind.functions ts ts, bare us, bare ts, same]

end PixelKernel.Language
