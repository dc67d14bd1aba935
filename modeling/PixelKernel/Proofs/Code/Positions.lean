import PixelKernel.Language.Code.Lowering
import PixelKernel.Proofs.Syntax.Positions
import PixelKernel.Proofs.Syntax.Spacing

/-! # Compilation without positions

Lowering keeps positions for complaints alone: trees that differ in nothing else become the same
program, or are refused for the same cause. So do texts whose tokens are of the same kinds, whatever
stands between the tokens.
-/

namespace PixelKernel.Language

namespace Lower

variable {α β γ δ : Type} {f : α → β} {g : γ → δ} {cx : Surroundings}

/-- Lowering `m'` does what `m` does, but for the positions in complaints. -/
abbrev Blind (f : α → β) (m : Lower α) (m' : Lower β) : Prop := Forgets id f m m'

theorem fit_bare (what : String) (pos : Nat) (found wanted : Ty) :
    fit what 0 found wanted = unplaced id (fit what pos found wanted) := by
  unfold fit
  split
  · rfl
  · split <;> rfl

namespace Blind

theorem get : Blind id MonadState.get MonadState.get := fun _ => rfl

theorem set (d : Draft) : Blind id (MonadState.set d) (MonadState.set d) := fun _ => rfl

theorem modify (h : Draft → Draft) : Blind id (modify h) (modify h) := fun _ => rfl

theorem complain {pos : Nat} {cause : Cause} :
    Blind f (Lower.complain pos cause) (Lower.complain 0 cause) := fun _ => rfl

/-- A check that complains at a position. -/
theorem guard {c : Prop} [Decidable c] {pos : Nat} {cause : Cause} {k : Unit → Lower α}
    {k' : Unit → Lower β} (h : Blind f (k ()) (k' ())) :
    Blind f (if c then Lower.complain pos cause >>= k else k ())
      (if c then Lower.complain 0 cause >>= k' else k' ()) := by
  split
  · exact fun _ => rfl
  · exact h

theorem liftCause {pos : Nat} (x : Except Cause α) :
    Blind id (Lower.liftCause pos x) (Lower.liftCause 0 x) := by
  cases x with
  | error cause => exact complain
  | ok a => exact .pure rfl

theorem lift {x : Except Complaint α} {x' : Except Complaint β} (h : x' = unplaced f x) :
    Blind f (liftM x) (liftM x') := by
  subst h
  intro d
  cases x <;> rfl

theorem fit {what : String} {pos : Nat} {found wanted : Ty} :
    Blind id (liftM (Lower.fit what pos found wanted)) (liftM (Lower.fit what 0 found wanted)) :=
  lift (fit_bare what pos found wanted)

theorem constant (v : Value) : Blind id (Lower.constant v) (Lower.constant v) := by
  unfold Lower.constant
  refine get.next fun draft => ?_
  split
  · exact .pure rfl
  · exact (set _).next fun _ => .pure rfl

theorem declare {pos : Nat} (name : String) (ty : Ty) (isConst : Bool) :
    Blind id (Lower.declare pos name ty isConst) (Lower.declare 0 name ty isConst) := by
  unfold Lower.declare
  refine get.next fun draft => ?_
  split
  exact guard (guard ((set _).next fun _ => .pure rfl))

end Blind

/-! ## Expressions -/

theorem pos_bare (e : Expr) : e.bare.pos = 0 := by
  cases e <;> rfl

theorem place_bare (scopes : List Scope) (e : Expr) : place scopes e.bare = place scopes e := by
  cases e with
  | select pos base fields => cases base <;> rfl
  | _ => rfl

/-- What a call does with an argument, but for the position. -/
def Fit.Blind (fit fit' : Fit) : Prop := ∀ i pos t, fit' i 0 t = unplaced id (fit i pos t)

theorem Fit.Blind.fitParams (params : List Ty) :
    Fit.Blind (Lower.fitParams params) (Lower.fitParams params) := by
  intro i pos t
  unfold Lower.fitParams
  dsimp only
  rw [fit_bare "argument" pos]
  cases fit "argument" pos t ((params[i]?).getD .void).operand <;> rfl

theorem Fit.Blind.fitConversion (callee : String) (pos : Nat) :
    Fit.Blind (Lower.fitConversion callee pos) (Lower.fitConversion callee 0) := by
  intro i _ t
  cases t <;> rfl

theorem Fit.Blind.fitParts (callee : String) :
    Fit.Blind (Lower.fitParts callee) (Lower.fitParts callee) := by
  intro i pos t
  unfold Lower.fitParts
  split
  · rfl
  · rfl
  · split <;> rfl

theorem Fit.Blind.fitBuiltin : Fit.Blind Lower.fitBuiltin Lower.fitBuiltin := fun _ _ _ => rfl

/-- What is called does not depend on where the call stands. -/
theorem callee_bare (cx : Surroundings) (pos : Nat) (name : String) (argc : Nat) :
    (∃ cause, callee cx pos name argc = .error cause ∧ callee cx 0 name argc = .error cause) ∨
      ∃ c c', callee cx pos name argc = .ok c ∧ callee cx 0 name argc = .ok c' ∧
        Fit.Blind c.fit c'.fit ∧ c'.finish = c.finish := by
  unfold callee
  split
  · exact .inl ⟨_, rfl, rfl⟩
  split
  · split
    · exact .inl ⟨_, rfl, rfl⟩
    · exact .inr ⟨_, _, rfl, rfl, .fitParams _, rfl⟩
  split
  · split
    · exact .inl ⟨_, rfl, rfl⟩
    · exact .inr ⟨_, _, rfl, rfl, .fitConversion _ _, rfl⟩
  split
  · exact .inr ⟨_, _, rfl, rfl, .fitParts _, rfl⟩
  split
  · exact .inl ⟨_, rfl, rfl⟩
  · exact .inr ⟨_, _, rfl, rfl, .fitBuiltin, rfl⟩

namespace Blind

mutual

theorem expr (cx : Surroundings) : (e : Expr) → Blind id (Lower.expr cx e) (Lower.expr cx e.bare)
  | .lit pos n => by
    rw [Expr.bare, Lower.expr, Lower.expr]
    exact (liftCause _).next fun v => (constant v).next fun _ => .pure rfl
  | .var pos name => by
    rw [Expr.bare, Lower.expr, Lower.expr]
    refine get.next fun draft => ?_
    split
    · exact complain
    · exact .pure rfl
  | .unary pos op e => by
    rw [Expr.bare, Lower.expr, Lower.expr]
    refine (expr cx e).next fun (code, t) => ?_
    exact (liftCause _).next fun _ => .pure rfl
  | .binary pos op left right => by
    rw [Expr.bare, Lower.expr, Lower.expr]
    refine (expr cx left).next fun (a, l) => ?_
    cases op with
    | logic =>
      rw [pos_bare, pos_bare]
      refine guard ?_
      refine (expr cx right).next fun (b, r) => ?_
      exact guard (.pure rfl)
    | arith | order =>
      refine (expr cx right).next fun (b, r) => ?_
      dsimp only
      split
      · exact complain
      · exact .pure rfl
  | .ternary pos cond yes no => by
    rw [Expr.bare, Lower.expr, Lower.expr]
    refine (expr cx cond).next fun (c, t) => ?_
    rw [pos_bare]
    refine guard ?_
    refine (expr cx yes).next fun (a, s) => (expr cx no).next fun (b, t) => ?_
    exact (liftCause _).next fun _ => .pure rfl
  | .call pos name args => by
    rw [Expr.bare, Lower.expr, Lower.expr]
    rw [Expr.bareList_eq_map, List.length_map, ← Expr.bareList_eq_map]
    obtain ⟨cause, found, found'⟩ | ⟨c, c', found, found', fits, finish⟩ :=
      callee_bare cx pos name args.length
    · rw [found, found']
      exact fun _ => rfl
    · rw [found, found']
      simp only [Lower.liftCause, pure_bind, finish]
      exact (arguments cx fits 0 args).next fun (code, types) =>
        (liftCause _).next fun _ => .pure rfl
  | .select pos base fields => by
    rw [Expr.bare, Lower.expr, Lower.expr]
    refine (expr cx base).next fun (code, t) => ?_
    exact guard ((liftCause _).next fun _ => .pure rfl)
  | .assign pos op target value => by
    rw [Expr.bare, Lower.expr, Lower.expr]
    refine get.next fun draft => ?_
    rw [pos_bare, pos_bare, place_bare]
    refine (liftCause _).next fun p => ?_
    split
    · exact (expr cx value).next fun (code, t) => fit.next fun _ => .pure rfl
    · exact (expr cx value).next fun (code, t) => guard (.pure rfl)
  | .step pos target increment leading => by
    rw [Expr.bare, Lower.expr, Lower.expr]
    refine get.next fun draft => ?_
    rw [pos_bare, place_bare]
    exact (liftCause _).next fun p => guard ((constant _).next fun _ => .pure rfl)

theorem arguments (cx : Surroundings) {fit fit' : Fit} (h : Fit.Blind fit fit') (i : Nat) :
    (es : List Expr) → Blind id (Lower.arguments cx fit i es)
      (Lower.arguments cx fit' i (Expr.bareList es))
  | [] => by
    rw [Expr.bareList, Lower.arguments, Lower.arguments]
    exact .pure rfl
  | e :: rest => by
    rw [Expr.bareList, Lower.arguments, Lower.arguments]
    refine (expr cx e).next fun (code, t) => ?_
    rw [pos_bare]
    refine (lift (h i e.pos t)).next fun (convert, t) => ?_
    exact (arguments cx h (i + 1) rest).next fun _ => .pure rfl

end

/-! ## Statements -/

theorem condition (cond : Expr) :
    Blind id (Lower.condition cx cond) (Lower.condition cx cond.bare) := by
  unfold Lower.condition
  rw [pos_bare]
  exact (expr cx cond).next fun (code, t) => guard (.pure rfl)

theorem effect (e : Expr) : Blind id (Lower.effect cx e) (Lower.effect cx e.bare) := by
  unfold Lower.effect
  exact (expr cx e).next fun (code, t) => .pure rfl

theorem declarator (ty : Ty) (isConst : Bool) (v : Declarator) :
    Blind id (Lower.declarator cx ty isConst v) (Lower.declarator cx ty isConst v.bare) := by
  obtain ⟨name, pos, init⟩ := v
  unfold Lower.declarator Declarator.bare
  cases init with
  | none =>
    refine guard ((constant _).next fun one => ?_)
    simp only [pure_bind]
    exact (declare _ _ _).next fun _ => .pure rfl
  | some e =>
    simp only [Option.map_some, pos_bare, pure_bind]
    exact (expr cx e).next fun (code, t) => fit.next fun _ =>
      (declare _ _ _).next fun _ => .pure rfl

theorem declarators (ty : Ty) (isConst : Bool) (vars : List Declarator) :
    Blind id (Lower.declarators cx ty isConst vars)
      (Lower.declarators cx ty isConst (vars.map Declarator.bare)) := by
  induction vars with
  | nil => exact .pure rfl
  | cons v rest ih =>
    rw [List.map_cons, Lower.declarators, Lower.declarators]
    exact (declarator ty isConst v).next fun _ => ih.next fun _ => .pure rfl

theorem returned (pos : Nat) (value : Option Expr) :
    Blind id (Lower.returned cx pos value) (Lower.returned cx 0 (value.map Expr.bare)) := by
  cases value with
  | none =>
    rw [Option.map_none, Lower.returned, Lower.returned]
    exact guard (.pure rfl)
  | some e =>
    rw [Option.map_some, Lower.returned, Lower.returned, pos_bare]
    refine guard ?_
    exact (expr cx e).next fun (code, t) => fit.next fun _ => .pure rfl

theorem clause {lower : Expr → Lower α} (h : ∀ e, Blind id (lower e) (lower e.bare))
    (e : Option Expr) : Blind id (Lower.clause lower e) (Lower.clause lower (e.map Expr.bare)) := by
  cases e with
  | none => exact .pure rfl
  | some e => exact (h e).next fun _ => .pure rfl

theorem enclosed {m m' : Lower α} (h : Blind id m m') :
    Blind id (Lower.enclosed m) (Lower.enclosed m') := by
  unfold Lower.enclosed
  exact get.next fun _ => (modify _).next fun _ => h.next fun _ => (modify _).next fun _ => .pure rfl

mutual

theorem stmt (cx : Surroundings) (inLoop : Bool) :
    (s : Stmt) → Blind id (Lower.stmt cx inLoop s) (Lower.stmt cx inLoop s.bare)
  | .empty => by
    rw [Stmt.bare, Lower.stmt]
    exact .pure rfl
  | .expr e => by
    rw [Stmt.bare, Lower.stmt, Lower.stmt]
    exact (effect e).next fun _ => .pure rfl
  | .block body => by
    rw [Stmt.bare, Lower.stmt, Lower.stmt]
    exact enclosed (stmts cx inLoop body)
  | .decl pos ty isConst vars => by
    rw [Stmt.bare, Lower.stmt, Lower.stmt]
    refine guard ?_
    refine guard ?_
    exact (declarators ty isConst vars).next fun _ => .pure rfl
  | .ifThen cond yes => by
    rw [Stmt.bare, Lower.stmt, Lower.stmt]
    exact (condition cond).next fun _ => (enclosed (stmt cx inLoop yes)).next fun _ => .pure rfl
  | .ifElse cond yes no => by
    rw [Stmt.bare, Lower.stmt, Lower.stmt]
    exact (condition cond).next fun _ => (enclosed (stmt cx inLoop yes)).next fun _ =>
      (enclosed (stmt cx inLoop no)).next fun _ => .pure rfl
  | .forLoop init cond step body => by
    rw [Stmt.bare, Lower.stmt, Lower.stmt]
    exact enclosed ((stmt cx inLoop init).next fun _ => (clause condition cond).next fun _ =>
      (enclosed (stmt cx true body)).next fun _ => (clause effect step).next fun _ => .pure rfl)
  | .whileLoop cond body => by
    rw [Stmt.bare, Lower.stmt, Lower.stmt]
    exact (condition cond).next fun _ => (enclosed (stmt cx true body)).next fun _ => .pure rfl
  | .doWhile body cond => by
    rw [Stmt.bare, Lower.stmt, Lower.stmt]
    exact (enclosed (stmt cx true body)).next fun _ => (condition cond).next fun _ => .pure rfl
  | .breakLoop pos => by
    rw [Stmt.bare, Lower.stmt, Lower.stmt]
    exact guard (.pure rfl)
  | .continueLoop pos => by
    rw [Stmt.bare, Lower.stmt, Lower.stmt]
    exact guard (.pure rfl)
  | .ret pos value => by
    rw [Stmt.bare, Lower.stmt, Lower.stmt]
    exact (returned pos value).next fun _ => .pure rfl

theorem stmts (cx : Surroundings) (inLoop : Bool) :
    (ss : List Stmt) → Blind id (Lower.stmts cx inLoop ss) (Lower.stmts cx inLoop (Stmt.bareList ss))
  | [] => by
    rw [Stmt.bareList, Lower.stmts]
    exact .pure rfl
  | s :: rest => by
    rw [Stmt.bareList, Lower.stmts, Lower.stmts]
    exact (stmt cx inLoop s).next fun _ => (stmts cx inLoop rest).next fun _ => .pure rfl

end

/-! ## Functions -/

theorem parameters (isKernel : Bool) (params : List Param) :
    Blind id (Lower.parameters isKernel params)
      (Lower.parameters isKernel (params.map Param.bare)) := by
  induction params with
  | nil => exact .pure rfl
  | cons p rest ih =>
    rw [List.map_cons, Lower.parameters, Lower.parameters]
    refine guard ?_
    refine guard ?_
    exact (declare _ _ _).next fun _ => ih

end Blind

theorem checkHead_bare (lib : Library) (f : FunctionDef) : checkHead lib f.bare = checkHead lib f := rfl

theorem function_bare (lib : Library) (consts : Array Value) (f : FunctionDef) :
    function lib consts f.bare = unplaced id (function lib consts f) := by
  unfold function
  rw [checkHead_bare]
  cases checkHead lib f with
  | error cause => rfl
  | ok =>
    have types : f.bare.params.map (·.ty) = f.params.map (·.ty) := by
      rw [FunctionDef.bare, List.map_map]
      rfl
    have body (cx : Surroundings) : Blind id
        (parameters f.kernel.isSome f.params >>= fun _ => stmts cx false f.body)
        (parameters f.kernel.isSome f.bare.params >>= fun _ => stmts cx false f.bare.body) :=
      (Blind.parameters _ f.params).next fun _ => Blind.stmts cx false f.body
    have run := body ⟨lib, f.name, f.ret, f.kernel⟩ ⟨consts, #[], [∅]⟩
    simp only [StateT.run, types]
    exact (congrArg (· >>= _) run).trans (unplaced_bind fun r => rfl)

theorem functionsFrom_bare (lib : Library) (consts : Array Value) (fs : List FunctionDef) :
    functionsFrom lib consts (fs.map FunctionDef.bare) = unplaced id (functionsFrom lib consts fs) := by
  induction fs generalizing lib consts with
  | nil => rfl
  | cons f rest ih =>
    rw [List.map_cons, functionsFrom, functionsFrom, function_bare]
    exact unplaced_bind fun r => ih (lib.add r.1) r.2

end Lower

theorem theKernel_bare (module : List FunctionDef) : theKernel (module.map FunctionDef.bare) =
    unplaced (Prod.map FunctionDef.bare id) (theKernel module) := by
  have tagged : (module.map FunctionDef.bare).filterMap (fun f => f.kernel.map (f, ·)) =
      (module.filterMap fun f => f.kernel.map (f, ·)).map (Prod.map FunctionDef.bare id) := by
    rw [List.filterMap_map, List.map_filterMap]
    congr 1
    funext f
    rw [Option.map_map]
    rfl
  unfold theKernel
  rw [tagged]
  cases module.filterMap fun f => f.kernel.map (f, ·) with
  | nil => rfl
  | cons first rest => cases rest <;> rfl

/-- Lowering reads nothing off the positions of a module. -/
theorem lowerModule_bare (module : List FunctionDef) :
    lowerModule (module.map FunctionDef.bare) = unplaced id (lowerModule module) := by
  unfold lowerModule
  rw [theKernel_bare, Lower.functionsFrom_bare, List.findIdx?_map]
  refine unplaced_bind fun k => unplaced_bind fun r => ?_
  have arguments : k.1.bare.params.map (fun p => (⟨p.name, p.ty, p.isStatic⟩ : Argument)) =
      k.1.params.map fun p => ⟨p.name, p.ty, p.isStatic⟩ := by
    rw [FunctionDef.bare, List.map_map]
    rfl
  exact congrArg (fun arguments => Except.ok (Program.mk _ _ _ _ arguments)) arguments

/-! ## Compilation -/

/-- Both texts become the same program, or they are refused with the same message. -/
def SameOutcome (source other : String) : Prop :=
  (∃ program, compile source = .ok program ∧ compile other = .ok program) ∨
    ∃ d d', compile source = .error d ∧ compile other = .error d' ∧ d.text = d'.text

variable {source other : String} {ts us : List Token}

theorem parse_and_lower (lexed : tokens source = .ok ts) : (parseModule source >>= lowerModule) =
    (Parser.functions ts ts).bind (lowerModule ·.1) := by
  unfold parseModule
  rw [lexed]
  change ((Parser.functions ts ts >>= fun r => pure r.1) >>= lowerModule) = _
  cases Parser.functions ts ts <;> rfl

/-- The kinds of tokens decide what they are parsed as and lowered to. -/
theorem lowered_of_kinds (same : us.map (·.kind) = ts.map (·.kind)) :
    unplaced id ((Parser.functions us us).bind (lowerModule ·.1)) =
      unplaced id ((Parser.functions ts ts).bind (lowerModule ·.1)) := by
  have bare (ts : List Token) :
      (unplaced (Prod.map (List.map FunctionDef.bare) (List.map Token.bare))
        (Parser.functions ts ts)).bind (lowerModule ·.1) =
      unplaced id ((Parser.functions ts ts).bind (lowerModule ·.1)) :=
    unplaced_bind fun r => lowerModule_bare r.1
  rw [← bare, ← bare, functions_of_kinds same]

/-- The kinds of the tokens decide what a text is compiled to. -/
theorem sameOutcome_of_kinds (lexed : tokens source = .ok ts) (lexed' : tokens other = .ok us)
    (same : us.map (·.kind) = ts.map (·.kind)) : SameOutcome source other := by
  have outcome : unplaced id (parseModule other >>= lowerModule) =
      unplaced id (parseModule source >>= lowerModule) := by
    rw [parse_and_lower lexed, parse_and_lower lexed', lowered_of_kinds same]
  unfold SameOutcome compile
  cases h : parseModule source >>= lowerModule with
  | ok program =>
    cases h' : parseModule other >>= lowerModule with
    | ok program' =>
      rw [h, h'] at outcome
      cases outcome
      exact .inl ⟨program, rfl, rfl⟩
    | error c' => rw [h, h'] at outcome; cases outcome
  | error c =>
    cases h' : parseModule other >>= lowerModule with
    | ok program' => rw [h, h'] at outcome; cases outcome
    | error c' =>
      rw [h, h'] at outcome
      injection outcome with outcome
      injection outcome with _ cause
      exact .inr ⟨_, _, rfl, rfl, (congrArg Cause.text cause).symm⟩

/-- The tokens of a text divide it into spellings and spacing that does not matter, and every text
    with tokens of the same kinds is compiled to the same. -/
theorem spacing_immaterial (lexed : tokens source = .ok ts) :
    (∃ pieces, Division source ts pieces) ∧ ∀ other us, tokens other = .ok us →
      us.map (·.kind) = ts.map (·.kind) → SameOutcome source other :=
  ⟨exists_division lexed, fun _ _ lexed' same => sameOutcome_of_kinds lexed lexed' same⟩

/-- The same kernel, once as short as can be, once with comments and lines. -/
def terse : String := "kernel vec4 f()\x7breturn vec4(1.5-.5);\x7d"

def airy : String :=
  "// white\nkernel /* the */ vec4\n  f ( )\n\x7b return vec4(1.5 - .5); /**/ \x7d // end"

/-- Spacing between the tokens, and what is compiled without it. -/
theorem airy_immaterial : (∃ ts pieces, tokens airy = .ok ts ∧ Division airy ts pieces) ∧
    SameOutcome airy terse := by
  have read : ((tokens airy).toOption.bind fun ts => (tokens terse).toOption.map fun us =>
      us.map (·.kind) == ts.map (·.kind)) = some true := by decide +kernel
  cases lexed : tokens airy with
  | error c => rw [lexed] at read; cases read
  | ok ts =>
    cases lexed' : tokens terse with
    | error c => rw [lexed, lexed'] at read; cases read
    | ok us =>
      rw [lexed, lexed'] at read
      have same : us.map (·.kind) = ts.map (·.kind) := eq_of_beq (Option.some.inj read)
      obtain ⟨⟨pieces, division⟩, outcome⟩ := spacing_immaterial lexed
      exact ⟨⟨ts, pieces, rfl, division⟩, outcome terse us lexed' same⟩

end PixelKernel.Language
