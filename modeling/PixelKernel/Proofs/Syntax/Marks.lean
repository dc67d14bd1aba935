import PixelKernel.Proofs.Syntax.Soundness

/-! # Positions that parsers give out

A parser points at tokens. Whatever it makes of tokens that start at certain marks holds no position
but these marks, and where it fails it complains at one of them. The stop token is never taken, so
there is always a token to point at.
-/

namespace PixelKernel.Language

variable {P : Nat → Prop}

/-! ## Marked trees -/

/-- All positions in the tree are marks. -/
inductive Expr.Marked (P : Nat → Prop) : Expr → Prop
  | lit {pos value} (here : P pos) : Marked P (.lit pos value)
  | var {pos name} (here : P pos) : Marked P (.var pos name)
  | unary {pos op e} (here : P pos) (operand : Marked P e) : Marked P (.unary pos op e)
  | binary {pos op left right} (here : P pos) (left_ : Marked P left) (right_ : Marked P right) :
      Marked P (.binary pos op left right)
  | ternary {pos cond yes no} (here : P pos) (cond_ : Marked P cond) (yes_ : Marked P yes)
      (no_ : Marked P no) : Marked P (.ternary pos cond yes no)
  | call {pos callee args} (here : P pos) (args_ : ∀ e ∈ args, Marked P e) :
      Marked P (.call pos callee args)
  | select {pos base fields} (here : P pos) (base_ : Marked P base) :
      Marked P (.select pos base fields)
  | assign {pos op target value} (here : P pos) (target_ : Marked P target)
      (value_ : Marked P value) : Marked P (.assign pos op target value)
  | step {pos target increment leading} (here : P pos) (target_ : Marked P target) :
      Marked P (.step pos target increment leading)

theorem Expr.Marked.pos {e : Expr} (h : e.Marked P) : P e.pos := by
  cases h <;> assumption

structure Declarator.Marked (P : Nat → Prop) (v : Declarator) : Prop where
  here : P v.pos
  init : ∀ e ∈ v.init, e.Marked P

inductive Stmt.Marked (P : Nat → Prop) : Stmt → Prop
  | empty : Marked P .empty
  | expr {e : Expr} (e_ : e.Marked P) : Marked P (.expr e)
  | block {body} (body_ : ∀ s ∈ body, Marked P s) : Marked P (.block body)
  | decl {pos ty isConst vars} (here : P pos) (vars_ : ∀ v ∈ vars, v.Marked P) :
      Marked P (.decl pos ty isConst vars)
  | ifThen {cond : Expr} {yes} (cond_ : cond.Marked P) (yes_ : Marked P yes) :
      Marked P (.ifThen cond yes)
  | ifElse {cond : Expr} {yes no} (cond_ : cond.Marked P) (yes_ : Marked P yes)
      (no_ : Marked P no) : Marked P (.ifElse cond yes no)
  | forLoop {init body} {cond step : Option Expr} (init_ : Marked P init)
      (cond_ : ∀ e ∈ cond, e.Marked P) (step_ : ∀ e ∈ step, e.Marked P) (body_ : Marked P body) :
      Marked P (.forLoop init cond step body)
  | whileLoop {cond : Expr} {body} (cond_ : cond.Marked P) (body_ : Marked P body) :
      Marked P (.whileLoop cond body)
  | doWhile {body} {cond : Expr} (body_ : Marked P body) (cond_ : cond.Marked P) :
      Marked P (.doWhile body cond)
  | breakLoop {pos} (here : P pos) : Marked P (.breakLoop pos)
  | continueLoop {pos} (here : P pos) : Marked P (.continueLoop pos)
  | ret {pos} {value : Option Expr} (here : P pos) (value_ : ∀ e ∈ value, e.Marked P) :
      Marked P (.ret pos value)

structure FunctionDef.Marked (P : Nat → Prop) (f : FunctionDef) : Prop where
  here : P f.pos
  params : ∀ p ∈ f.params, P p.pos
  body : ∀ s ∈ f.body, s.Marked P

/-! ## Parsers -/

namespace Parser

variable {α β : Type} {good : α → Prop} {goal : β → Prop} {ts : List Token}

/-- Tokens that start at marks, the last of them the stop token. -/
inductive Ahead (P : Nat → Prop) : List Token → Prop
  | last {t : Token} (stop : t.kind = .stop) (here : P t.start) : Ahead P [t]
  | cons {t : Token} {ts : List Token} (here : P t.start) (more : Ahead P ts) : Ahead P (t :: ts)

theorem Ahead.pos (h : Ahead P ts) : P (posOf ts) := by
  cases h <;> assumption

theorem Ahead.tail (h : Ahead P ts) (token : kindOf ts ≠ .stop) : Ahead P ts.tail := by
  cases h with
  | last stop => exact absurd stop token
  | cons here more => exact more

/-- From these tokens on the parser makes something good and leaves tokens that start at marks, or
    it complains at a mark. -/
def Heeds (P : Nat → Prop) (good : α → Prop) (ts : List Token) (m : Parser α) : Prop :=
  match m ts with
  | .ok (a, rest) => good a ∧ Ahead P rest
  | .error c => P c.pos

/-- The parser keeps to marks wherever it starts. -/
def Marking (P : Nat → Prop) (good : α → Prop) (m : Parser α) : Prop :=
  ∀ ts, Ahead P ts → Heeds P good ts m

namespace Marking

/-! ### Rules -/

theorem pure {a : α} (h : good a) : Marking P good (Pure.pure a) := fun _ ahead => ⟨h, ahead⟩

theorem bind {m : Parser α} {f : α → Parser β} (first : Marking P good m)
    (rest : ∀ a, good a → Marking P goal (f a)) : Marking P goal (m >>= f) := by
  intro ts ahead
  have first := first ts ahead
  unfold Heeds at first
  change (match Except.bind (m ts) fun r => f r.1 r.2 with
    | .ok (b, us) => goal b ∧ Ahead P us
    | .error c => P c.pos)
  cases run : m ts with
  | error c => rw [run] at first; exact first
  | ok r =>
      rw [run] at first
      exact rest r.1 first.1 r.2 first.2

/-- Nothing need be known of the first result. -/
theorem after {m : Parser α} {f : α → Parser β} (first : Marking P good m)
    (rest : ∀ a, Marking P goal (f a)) : Marking P goal (m >>= f) :=
  first.bind fun a _ => rest a

/-- What comes next may depend on the kind of the next token. -/
theorem peek {f : Token.Kind → Parser β}
    (rest : ∀ ts, Ahead P ts → Heeds P goal ts (f (kindOf ts))) :
    Marking P goal (Parser.peek >>= f) := rest

theorem peekSecondAt {f : Token.Kind → Parser β} (rest : Heeds P goal ts (f (secondOf ts))) :
    Heeds P goal ts (Parser.peekSecond >>= f) := rest

theorem here {f : Nat → Parser β} (rest : ∀ pos, P pos → Marking P goal (f pos)) :
    Marking P goal (Parser.here >>= f) := fun ts ahead => rest (posOf ts) ahead.pos ts ahead

/-- The position of a token that has been looked at. -/
theorem hereAt {f : Nat → Parser β} (rest : Heeds P goal ts (f (posOf ts))) :
    Heeds P goal ts (Parser.here >>= f) := rest

theorem remaining {f : List Token → Parser β} (rest : ∀ bound, Marking P goal (f bound)) :
    Marking P goal (Parser.remaining >>= f) := fun ts ahead => rest ts ts ahead

theorem advance {f : Unit → Parser β} {k : Token.Kind} (ahead : Ahead P ts) (next : kindOf ts = k)
    (token : k ≠ .stop) (rest : Marking P goal (f ())) : Heeds P goal ts (Parser.advance >>= f) :=
  rest ts.tail (ahead.tail (next ▸ token))

theorem complain {cause : Cause} : Marking P good (Parser.complain cause) :=
  fun _ ahead => ahead.pos

theorem unexpected {what : String} : Marking P good (Parser.unexpected what) :=
  fun _ ahead => ahead.pos

theorem outOfRoom {what : String} : Marking P good (Parser.outOfRoom what) := complain

/-! ### Words and symbols -/

theorem accept {s : Symbol} : Marking P (fun _ => True) (Parser.accept s) := by
  refine peek fun ts ahead => ?_
  split
  · next next_ => exact advance ahead next_ (by simp) (pure trivial)
  · exact pure trivial ts ahead

theorem expect {s : Symbol} {what : String} :
    Marking P (fun _ => True) (Parser.expect s what) := by
  refine peek fun ts ahead => ?_
  split
  · next next_ => exact ⟨trivial, ahead.tail (by simp [next_])⟩
  · exact unexpected ts ahead

theorem word {what : String} : Marking P (fun _ => True) (Parser.word what) := by
  refine peek fun ts ahead => ?_
  split
  · next next_ => exact advance ahead next_ (by simp) (pure trivial)
  · exact unexpected ts ahead

theorem typeName : Marking P (fun _ => True) Parser.typeName := by
  refine here fun pos place => word.after fun name => ?_
  split
  · exact pure trivial
  · exact fun _ _ => place

theorem atDeclaration : Marking P (fun _ => True) Parser.atDeclaration := by
  refine peek fun ts ahead => peekSecondAt ?_
  split <;> exact pure trivial ts ahead

/-! ### Lists -/

theorem commaList {item : Parser α} (items : Marking P good item) {what : String}
    (bound : List Token) :
    Marking P (fun as => ∀ a ∈ as, good a) (Parser.commaList item what bound) := by
  induction bound with
  | nil => exact unexpected
  | cons t bound ih =>
      refine items.bind fun a good_ => accept.after fun more => ?_
      split
      · exact ih.bind fun as goods => pure (List.forall_mem_cons.2 ⟨good_, goods⟩)
      · exact expect.after fun _ => pure (List.forall_mem_singleton.2 good_)

theorem commaChain {item : Parser α} (items : Marking P good item) (bound : List Token) :
    Marking P (fun as => ∀ a ∈ as, good a) (Parser.commaChain item bound) := by
  induction bound with
  | nil => exact pure (List.forall_mem_nil _)
  | cons t bound ih =>
      refine items.bind fun a good_ => accept.after fun more => ?_
      split
      · exact ih.bind fun as goods => pure (List.forall_mem_cons.2 ⟨good_, goods⟩)
      · exact pure (List.forall_mem_singleton.2 good_)

/-! ### Expressions -/

theorem postfixRest (room : Nat) {e : Expr} (e_ : e.Marked P) :
    Marking P (Expr.Marked P) (Parser.postfixRest room e) := by
  induction room generalizing e with
  | zero =>
      refine peek fun ts ahead => ?_
      split
      · exact outOfRoom ts ahead
      · exact outOfRoom ts ahead
      · exact outOfRoom ts ahead
      · exact pure e_ ts ahead
  | succ room ih =>
      refine here fun pos place => peek fun ts ahead => ?_
      split
      · next next_ =>
        exact advance ahead next_ (by simp) (word.after fun _ => ih (.select place e_))
      · next next_ => exact advance ahead next_ (by simp) (ih (.step place e_))
      · next next_ => exact advance ahead next_ (by simp) (ih (.step place e_))
      · exact pure e_ ts ahead

theorem ofSymbol?_stop {level : Nat} : BinaryOp.ofSymbol? level .stop = none := by
  unfold BinaryOp.ofSymbol?
  split <;> first | rfl | contradiction

mutual

theorem expression (room : Nat) : Marking P (Expr.Marked P) (Parser.expression room) := by
  cases room with
  | zero => rw [Parser.expression]; exact outOfRoom
  | succ room =>
      rw [Parser.expression]
      refine (conditional room).bind fun target target_ => peek fun ts ahead => ?_
      split
      · exact pure target_ ts ahead
      · next op assigned =>
        have token : kindOf ts ≠ .stop := fun stop => by rw [stop] at assigned; cases assigned
        exact hereAt (advance ahead rfl token ((expression room).bind fun value value_ =>
          pure (.assign ahead.pos target_ value_)))
termination_by 32 * room

theorem conditional (room : Nat) : Marking P (Expr.Marked P) (Parser.conditional room) := by
  rw [Parser.conditional]
  refine (operation 6 room).bind fun cond cond_ => peek fun ts ahead => ?_
  split
  · exact pure cond_ ts ahead
  next question =>
  refine hereAt (advance ahead (Decidable.not_not.1 question) (by simp)
    ((expression room).bind fun yes yes_ => expect.after fun _ => ?_))
  cases room with
  | zero => exact outOfRoom
  | succ room =>
      exact (conditional room).bind fun no no_ => pure (.ternary ahead.pos cond_ yes_ no_)
termination_by 32 * room + 16

theorem operation (level : Fin 7) (room : Nat) :
    Marking P (Expr.Marked P) (Parser.operation level room) := by
  obtain ⟨level, h⟩ := level
  cases level with
  | zero => rw [Parser.operation]; exact unary room
  | succ level =>
      rw [Parser.operation]
      exact (operation ⟨level, by omega⟩ room).bind fun first first_ =>
        chain ⟨level, by omega⟩ first_ room
termination_by 32 * room + 2 * level.val + 3

theorem chain (level : Fin 6) {left : Expr} (left_ : left.Marked P) (room : Nat) :
    Marking P (Expr.Marked P) (Parser.chain level left room) := by
  rw [Parser.chain]
  refine peek fun ts ahead => ?_
  split
  · exact pure left_ ts ahead
  next op found =>
  have token : kindOf ts ≠ .stop := fun stop => by
    rw [stop, ofSymbol?_stop] at found
    cases found
  refine hereAt (advance ahead rfl token
    ((operation level.castSucc room).bind fun right right_ => ?_))
  cases room with
  | zero => exact outOfRoom
  | succ room => exact chain level (.binary ahead.pos left_ right_) room
termination_by 32 * room + 2 * level.val + 4
decreasing_by all_goals grind

theorem unary (room : Nat) : Marking P (Expr.Marked P) (Parser.unary room) := by
  rw [Parser.unary]
  refine here fun pos place => peek fun ts ahead => ?_
  have prefixed {f : Expr → Expr} (marked : ∀ e : Expr, e.Marked P → (f e).Marked P) :
      Marking P (Expr.Marked P) (Parser.nestedUnary room >>= fun e => Pure.pure (f e)) :=
    (nestedUnary room).bind fun e e_ => pure (marked e e_)
  split
  · next next_ => exact advance ahead next_ (by simp) (prefixed fun _ => .unary place)
  · next next_ => exact advance ahead next_ (by simp) (prefixed fun _ => .unary place)
  · next next_ => exact advance ahead next_ (by simp) (nestedUnary room)
  · next next_ => exact advance ahead next_ (by simp) (prefixed fun _ => .step place)
  · next next_ => exact advance ahead next_ (by simp) (prefixed fun _ => .step place)
  · exact (primary room).bind (fun e e_ => postfixRest room e_) ts ahead
termination_by 32 * room + 2

theorem nestedUnary (room : Nat) : Marking P (Expr.Marked P) (Parser.nestedUnary room) := by
  cases room with
  | zero => rw [Parser.nestedUnary]; exact outOfRoom
  | succ room => rw [Parser.nestedUnary]; exact unary room
termination_by 32 * room

theorem primary (room : Nat) : Marking P (Expr.Marked P) (Parser.primary room) := by
  rw [Parser.primary]
  refine here fun pos place => peek fun ts ahead => ?_
  split
  · next next_ => exact advance ahead next_ (by simp) (pure (.lit place))
  · next next_ => exact advance ahead next_ (by simp) (pure (.lit place))
  · next next_ => exact advance ahead next_ (by simp) (pure (.lit place))
  · next next_ => exact advance ahead next_ (by simp) (pure (.lit place))
  · next next_ =>
    refine advance ahead next_ (by simp) (accept.after fun called => ?_)
    split
    · refine accept.after fun closed => ?_
      split
      · exact pure (.call place (List.forall_mem_nil _))
      · exact remaining fun bound => (commaList (expression room) bound).bind fun args args_ =>
          pure (.call place args_)
    · exact pure (.var place)
  · next next_ => exact advance ahead next_ (by simp) ((expression room).bind fun e e_ =>
      expect.after fun _ => pure e_)
  · exact unexpected ts ahead
termination_by 32 * room + 1

end

/-! ### Statements -/

theorem declarator (room : Nat) : Marking P (Declarator.Marked P) (Parser.declarator room) := by
  refine here fun pos place => word.after fun name => accept.after fun given => ?_
  split
  · exact (conditional room).bind fun e e_ => pure ⟨place, by rintro _ ⟨⟩; exact e_⟩
  · exact pure ⟨place, nofun⟩

theorem declaration (room : Nat) : Marking P (Stmt.Marked P) (Parser.declaration room) :=
  here fun _ place => accept.after fun _ => typeName.after fun _ => remaining fun bound =>
    (commaChain (declarator room) bound).bind fun _ vars_ => expect.after fun _ =>
      pure (.decl place vars_)

theorem unlessNext {s : Symbol} (room : Nat) :
    Marking P (fun e => ∀ e' ∈ e, e'.Marked P) (Parser.unlessNext s room) := by
  refine peek fun ts ahead => ?_
  split
  · exact pure nofun ts ahead
  · exact (expression room).bind (fun e e_ => pure (by rintro _ ⟨⟩; exact e_)) ts ahead

theorem expressionStmt (room : Nat) : Marking P (Stmt.Marked P) (Parser.expressionStmt room) :=
  (expression room).bind fun _ e_ => expect.after fun _ => pure (.expr e_)

/-- What begins like a declaration is one. -/
theorem declarationOr (room : Nat) : Marking P (Stmt.Marked P) (do
    if ← Parser.atDeclaration then Parser.declaration room else Parser.expressionStmt room) := by
  refine atDeclaration.after fun decl => ?_
  split
  · exact declaration room
  · exact expressionStmt room

theorem forInit (room : Nat) : Marking P (Stmt.Marked P) (Parser.forInit room) := by
  refine accept.after fun none_ => ?_
  split
  · exact pure .empty
  · exact declarationOr room

theorem blockRest {stmt : Parser Stmt} (stmts : Marking P (Stmt.Marked P) stmt)
    (bound : List Token) : Marking P (fun body => ∀ s ∈ body, s.Marked P)
      (Parser.blockRest stmt bound) := by
  induction bound with
  | nil => exact unexpected
  | cons t bound ih =>
      refine accept.after fun closed => ?_
      split
      · exact pure (List.forall_mem_nil _)
      · refine peek fun ts ahead => ?_
        split
        · exact unexpected ts ahead
        · exact stmts.bind (fun s s_ => ih.bind fun body body_ =>
            pure (List.forall_mem_cons.2 ⟨s_, body_⟩)) ts ahead

theorem statement (room : Nat) : Marking P (Stmt.Marked P) (Parser.statement room) := by
  induction room with
  | zero => exact outOfRoom
  | succ room ih =>
      refine here fun pos place => peek fun ts ahead => ?_
      split
      · next next_ => exact advance ahead next_ (by simp) (remaining fun bound =>
          (blockRest ih bound).bind fun body body_ => pure (.block body_))
      · next next_ => exact advance ahead next_ (by simp) (pure .empty)
      · next next_ =>
        refine advance ahead next_ (by simp) (expect.after fun _ => (expression room).bind
          fun cond cond_ => expect.after fun _ => ih.bind fun yes yes_ =>
            accept.after fun more => ?_)
        split
        · exact ih.bind fun no no_ => pure (.ifElse cond_ yes_ no_)
        · exact pure (.ifThen cond_ yes_)
      · next next_ => exact advance ahead next_ (by simp) (expect.after fun _ => (forInit room).bind
          fun init init_ => (unlessNext room).bind fun cond cond_ => expect.after fun _ =>
            (unlessNext room).bind fun step step_ => expect.after fun _ => ih.bind fun body body_ =>
              pure (.forLoop init_ cond_ step_ body_))
      · next next_ => exact advance ahead next_ (by simp) (expect.after fun _ =>
          (expression room).bind fun cond cond_ => expect.after fun _ => ih.bind fun body body_ =>
            pure (.whileLoop cond_ body_))
      · next next_ => exact advance ahead next_ (by simp) (ih.bind fun body body_ =>
          expect.after fun _ => expect.after fun _ => (expression room).bind fun cond cond_ =>
            expect.after fun _ => expect.after fun _ => pure (.doWhile body_ cond_))
      · next next_ =>
        exact advance ahead next_ (by simp) (expect.after fun _ => pure (.breakLoop place))
      · next next_ =>
        exact advance ahead next_ (by simp) (expect.after fun _ => pure (.continueLoop place))
      · next next_ =>
        exact advance ahead next_ (by simp) ((unlessNext room).bind fun value value_ =>
          expect.after fun _ => pure (.ret place value_))
      · exact declarationOr room ts ahead

/-! ### Functions -/

theorem param : Marking P (fun p => P p.pos) Parser.param :=
  accept.after fun _ => accept.after fun _ => typeName.after fun _ => here fun _ place =>
    word.after fun _ => pure place

theorem params : Marking P (fun ps => ∀ p ∈ ps, P p.pos) Parser.params := by
  have rest : Marking P (fun ps => ∀ p ∈ ps, P p.pos) (do
      if ← Parser.accept .rparen then return []
      Parser.commaList Parser.param "',' or ')'" (← Parser.remaining)) := by
    refine accept.after fun closed => ?_
    split
    · exact pure (List.forall_mem_nil _)
    · exact remaining fun bound => commaList param bound
  refine peek fun ts ahead => peekSecondAt ?_
  split
  · next void =>
    rw [Bool.and_eq_true, decide_eq_true_eq] at void
    exact advance ahead void.1 (by simp) rest
  · exact rest ts ahead

theorem kernelTag : Marking P (fun _ => True) Parser.kernelTag := by
  refine accept.after fun kernel => ?_
  split
  · refine accept.after fun reduce => ?_
    split <;> exact pure trivial
  · exact pure trivial

theorem functionDef : Marking P (FunctionDef.Marked P) Parser.functionDef :=
  here fun _ place => kernelTag.after fun _ => typeName.after fun _ => word.after fun _ =>
    expect.after fun _ => params.bind fun _ params_ => expect.after fun _ => remaining fun bound =>
      (blockRest (statement _) bound).bind fun _ body_ => pure ⟨place, params_, body_⟩

theorem functions (bound : List Token) :
    Marking P (fun fs => ∀ f ∈ fs, f.Marked P) (Parser.functions bound) := by
  induction bound with
  | nil => exact pure (List.forall_mem_nil _)
  | cons t bound ih =>
      refine peek fun ts ahead => ?_
      split
      · exact pure (List.forall_mem_nil _) ts ahead
      · exact functionDef.bind (fun f f_ => ih.bind fun fs fs_ =>
          pure (List.forall_mem_cons.2 ⟨f_, fs_⟩)) ts ahead

end Marking
end Parser
end PixelKernel.Language
