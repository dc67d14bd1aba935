import PixelKernel.Language.Syntax.Parser

/-! # The grammar

What tokens a syntax tree may be spelled with, rule by rule. The trees take their positions from
the tokens. Rules that repeat themselves on the left are also given from the left to the right,
the way they are read.
-/

namespace PixelKernel.Language

/-! ## Operators -/

/-- How tightly a binary operator binds; the tightest ones come first. -/
def BinaryOp.level : BinaryOp → Nat
  | .arith .mul | .arith .div => 1
  | .arith .add | .arith .sub => 2
  | .order .lt | .order .le | .order .gt | .order .ge => 3
  | .order .eq | .order .ne => 4
  | .logic .and => 5
  | .logic .or => 6

namespace Token

def Is (t : Token) (s : Symbol) : Prop := t.kind = .sym s

def IsWord (t : Token) (name : String) : Prop := t.kind = .word name

/-- The name of a type. -/
def IsType (t : Token) (ty : Ty) : Prop := ∃ name, t.IsWord name ∧ Ty.ofName? name = some ty

def IsOperator (t : Token) (op : BinaryOp) : Prop := ∃ s, t.Is s ∧ s.spelling = op.spelling

/-- An equals sign, behind the operator that it combines with, if there is one. -/
def IsAssignment (t : Token) (op : Option ArithOp) : Prop :=
  ∃ s, t.Is s ∧ s.spelling = (op.map ArithOp.spelling).getD "" ++ "="

/-- `++` or `--`. -/
def IsStep (t : Token) (increment : Bool) : Prop :=
  t.Is (if increment then .plusPlus else .minusMinus)

end Token

/-! ## Expressions -/

/-- Phrases of expressions, from those that bind most tightly to those that bind least. -/
inductive Phrase where
  /-- A literal, a name, a call, or an expression in parentheses. -/
  | primary (e : Expr)
  /-- With selections and steps behind it. -/
  | suffixed (e : Expr)
  /-- With operators before it. -/
  | unary (e : Expr)
  /-- With binary operators up to a level. -/
  | operation (level : Nat) (e : Expr)
  | conditional (e : Expr)
  /-- A conditional, or an assignment. -/
  | expression (e : Expr)
  /-- Expressions with commas between them. -/
  | arguments (es : List Expr)

/-- The phrase is spelled with these tokens. -/
inductive Phrase.Spelled : Phrase → List Token → Prop where
  | int {t n} (kind : t.kind = .int n) : (primary (.lit t.start (.int n))).Spelled [t]
  | float {t x} (kind : t.kind = .float x) : (primary (.lit t.start (.float x))).Spelled [t]
  | trueWord {t} (word : t.Is .trueWord) : (primary (.lit t.start (.bool true))).Spelled [t]
  | falseWord {t} (word : t.Is .falseWord) : (primary (.lit t.start (.bool false))).Spelled [t]
  | var {t name} (word : t.IsWord name) : (primary (.var t.start name)).Spelled [t]
  | callNone {t l r name} (word : t.IsWord name) (opens : l.Is .lparen) (closes : r.Is .rparen) :
      (primary (.call t.start name [])).Spelled [t, l, r]
  | call {t l r name es ts} (word : t.IsWord name) (opens : l.Is .lparen)
      (args : (arguments es).Spelled ts) (closes : r.Is .rparen) :
      (primary (.call t.start name es)).Spelled (t :: l :: (ts ++ [r]))
  | parens {l r e ts} (opens : l.Is .lparen) (inner : (expression e).Spelled ts)
      (closes : r.Is .rparen) : (primary e).Spelled (l :: (ts ++ [r]))
  | ofPrimary {e ts} (plain : (primary e).Spelled ts) : (suffixed e).Spelled ts
  | select {e ts dot t fields} (base : (suffixed e).Spelled ts) (dot_ : dot.Is .dot)
      (word : t.IsWord fields) : (suffixed (.select dot.start e fields)).Spelled (ts ++ [dot, t])
  | stepAfter {e ts t increment} (target : (suffixed e).Spelled ts) (step : t.IsStep increment) :
      (suffixed (.step t.start e increment false)).Spelled (ts ++ [t])
  | ofSuffixed {e ts} (plain : (suffixed e).Spelled ts) : (unary e).Spelled ts
  | neg {t e ts} (minus : t.Is .minus) (operand : (unary e).Spelled ts) :
      (unary (.unary t.start .neg e)).Spelled (t :: ts)
  | not {t e ts} (bang : t.Is .bang) (operand : (unary e).Spelled ts) :
      (unary (.unary t.start .not e)).Spelled (t :: ts)
  | plus {t e ts} (plus : t.Is .plus) (operand : (unary e).Spelled ts) : (unary e).Spelled (t :: ts)
  | stepBefore {t e ts increment} (step : t.IsStep increment) (target : (unary e).Spelled ts) :
      (unary (.step t.start e increment true)).Spelled (t :: ts)
  | ofUnary {e ts} (plain : (unary e).Spelled ts) : (operation 0 e).Spelled ts
  | tighter {level e ts} (plain : (operation level e).Spelled ts) :
      (operation (level + 1) e).Spelled ts
  | binary {level a b ts ts' t op} (left : (operation (level + 1) a).Spelled ts)
      (operator : t.IsOperator op) (own : op.level = level + 1)
      (right : (operation level b).Spelled ts') :
      (operation (level + 1) (.binary t.start op a b)).Spelled (ts ++ t :: ts')
  | ofOperation {e ts} (plain : (operation 6 e).Spelled ts) : (conditional e).Spelled ts
  | ternary {c a b ts ts' ts'' q colon} (cond : (operation 6 c).Spelled ts) (asks : q.Is .question)
      (yes : (expression a).Spelled ts') (divides : colon.Is .colon)
      (no : (conditional b).Spelled ts'') :
      (conditional (.ternary q.start c a b)).Spelled (ts ++ q :: (ts' ++ colon :: ts''))
  | ofConditional {e ts} (plain : (conditional e).Spelled ts) : (expression e).Spelled ts
  | assign {a b ts ts' t op} (target : (conditional a).Spelled ts) (equals : t.IsAssignment op)
      (value : (expression b).Spelled ts') :
      (expression (.assign t.start op a b)).Spelled (ts ++ t :: ts')
  | lastArgument {e ts} (plain : (expression e).Spelled ts) : (arguments [e]).Spelled ts
  | argument {e es ts ts' comma} (first : (expression e).Spelled ts) (comma_ : comma.Is .comma)
      (later : (arguments es).Spelled ts') : (arguments (e :: es)).Spelled (ts ++ comma :: ts')

/-! ## Lists -/

/-- Items with commas between them. -/
inductive Separated {α : Type} (item : α → List Token → Prop) : List α → List Token → Prop where
  | last {a ts} (only : item a ts) : Separated item [a] ts
  | cons {a as ts ts' comma} (first : item a ts) (comma_ : comma.Is .comma)
      (later : Separated item as ts') : Separated item (a :: as) (ts ++ comma :: ts')

/-- A symbol that may be left out, and whether it is there. -/
inductive Optionally (s : Symbol) : Bool → List Token → Prop where
  | absent : Optionally s false []
  | present {t} (symbol : t.Is s) : Optionally s true [t]

/-! ## Statements -/

inductive Declarator.Spelled : Declarator → List Token → Prop where
  | plain {t name} (word : t.IsWord name) : Spelled ⟨name, t.start, none⟩ [t]
  | initialised {t name equals e ts} (word : t.IsWord name) (equals_ : equals.Is .assign)
      (value : (Phrase.conditional e).Spelled ts) :
      Spelled ⟨name, t.start, some e⟩ (t :: equals :: ts)

/-- An expression that may be left out. -/
inductive Phrase.Maybe : Option Expr → List Token → Prop where
  | none : Maybe none []
  | some {e ts} (value : (Phrase.expression e).Spelled ts) : Maybe (some e) ts

/-- A declaration, or an expression, with its semicolon. -/
inductive Stmt.Simple : Stmt → List Token → Prop where
  | decl {const t ty isConst vars ts semi} (const_ : Optionally .constWord isConst const)
      (type : t.IsType ty) (list : Separated Declarator.Spelled vars ts) (ends : semi.Is .semi) :
      Simple (.decl (Parser.posOf (const ++ [t])) ty isConst vars)
        (const ++ t :: (ts ++ [semi]))
  | expr {e ts semi} (value : (Phrase.expression e).Spelled ts) (ends : semi.Is .semi) :
      Simple (.expr e) (ts ++ [semi])

/-- The first clause of a `for`, with its semicolon. -/
inductive Stmt.Initial : Stmt → List Token → Prop where
  | none {semi} (ends : semi.Is .semi) : Initial .empty [semi]
  | some {s ts} (simple : Simple s ts) : Initial s ts

/-- The statement ends in an `if` that could still get an `else`. -/
def Stmt.isOpen : Stmt → Bool
  | .ifThen .. => true
  | .ifElse _ _ s | .forLoop _ _ _ s | .whileLoop _ s => s.isOpen
  | _ => false

inductive Clause where
  | statement (s : Stmt)
  | statements (ss : List Stmt)

/-- The statements are spelled with these tokens. -/
inductive Clause.Spelled : Clause → List Token → Prop where
  | simple {s ts} (simple : s.Simple ts) : (statement s).Spelled ts
  | empty {semi} (ends : semi.Is .semi) : (statement .empty).Spelled [semi]
  | block {l r ss ts} (opens : l.Is .lbrace) (body : (statements ss).Spelled ts)
      (closes : r.Is .rbrace) : (statement (.block ss)).Spelled (l :: (ts ++ [r]))
  | ifThen {t l r c s ts ts'} (word : t.Is .ifWord) (opens : l.Is .lparen)
      (cond : (Phrase.expression c).Spelled ts) (closes : r.Is .rparen)
      (yes : (statement s).Spelled ts') :
      (statement (.ifThen c s)).Spelled (t :: l :: (ts ++ r :: ts'))
  /-- An `else` belongs to the nearest `if`, so none is left open before it. -/
  | ifElse {t l r t' c s s' ts ts' ts''} (word : t.Is .ifWord) (opens : l.Is .lparen)
      (cond : (Phrase.expression c).Spelled ts) (closes : r.Is .rparen)
      (yes : (statement s).Spelled ts') (closed : s.isOpen = false) (word' : t'.Is .elseWord)
      (no : (statement s').Spelled ts'') :
      (statement (.ifElse c s s')).Spelled (t :: l :: (ts ++ r :: (ts' ++ t' :: ts'')))
  | forLoop {t l semi r init c step s ts ts' ts'' ts'''} (word : t.Is .forWord) (opens : l.Is .lparen)
      (initial : init.Initial ts) (cond : Phrase.Maybe c ts') (divides : semi.Is .semi)
      (last : Phrase.Maybe step ts'') (closes : r.Is .rparen) (body : (statement s).Spelled ts''') :
      (statement (.forLoop init c step s)).Spelled
        (t :: l :: (ts ++ (ts' ++ semi :: (ts'' ++ r :: ts'''))))
  | whileLoop {t l r c s ts ts'} (word : t.Is .whileWord) (opens : l.Is .lparen)
      (cond : (Phrase.expression c).Spelled ts) (closes : r.Is .rparen)
      (body : (statement s).Spelled ts') :
      (statement (.whileLoop c s)).Spelled (t :: l :: (ts ++ r :: ts'))
  | doWhile {t t' l r semi c s ts ts'} (word : t.Is .doWord) (body : (statement s).Spelled ts)
      (word' : t'.Is .whileWord) (opens : l.Is .lparen) (cond : (Phrase.expression c).Spelled ts')
      (closes : r.Is .rparen) (ends : semi.Is .semi) :
      (statement (.doWhile s c)).Spelled (t :: (ts ++ t' :: l :: (ts' ++ [r, semi])))
  | breakLoop {t semi} (word : t.Is .breakWord) (ends : semi.Is .semi) :
      (statement (.breakLoop t.start)).Spelled [t, semi]
  | continueLoop {t semi} (word : t.Is .continueWord) (ends : semi.Is .semi) :
      (statement (.continueLoop t.start)).Spelled [t, semi]
  | ret {t semi v ts} (word : t.Is .returnWord) (value : Phrase.Maybe v ts) (ends : semi.Is .semi) :
      (statement (.ret t.start v)).Spelled (t :: (ts ++ [semi]))
  | nil : (statements []).Spelled []
  | cons {s ss ts ts'} (first : (statement s).Spelled ts) (later : (statements ss).Spelled ts') :
      (statements (s :: ss)).Spelled (ts ++ ts')

/-! ## Functions -/

inductive Param.Spelled : Param → List Token → Prop where
  | mk {isStatic isConst static const t ty t' name} (static_ : Optionally .staticWord isStatic static)
      (const_ : Optionally .constWord isConst const) (type : t.IsType ty) (word : t'.IsWord name) :
      Spelled ⟨name, ty, isStatic, t'.start⟩ (static ++ (const ++ [t, t']))

/-- What stands between the parentheses of a function. -/
inductive Param.Between : List Param → List Token → Prop where
  | none : Between [] []
  | void {t} (word : t.IsWord "void") : Between [] [t]
  | some {ps ts} (list : Separated Param.Spelled ps ts) : Between ps ts

/-- What marks a function as the kernel. -/
inductive Tag : Option Target → List Token → Prop where
  | none : Tag none []
  | normal {t} (kernel : t.Is .kernelWord) : Tag (some .normal) [t]
  | reduce {t t'} (kernel : t.Is .kernelWord) (reduce : t'.Is .reduceWord) :
      Tag (some .reduce) [t, t']

inductive FunctionDef.Spelled : FunctionDef → List Token → Prop where
  | mk {kernel tag t ret t' name l ps ts r l' body ts' r'} (tag_ : Tag kernel tag)
      (type : t.IsType ret) (word : t'.IsWord name) (opens : l.Is .lparen) (params : Param.Between ps ts)
      (closes : r.Is .rparen) (begins : l'.Is .lbrace) (body_ : (Clause.statements body).Spelled ts')
      (ends : r'.Is .rbrace) :
      Spelled ⟨name, ret, ps, body, kernel, Parser.posOf (tag ++ [t])⟩
        (tag ++ t :: t' :: l :: (ts ++ r :: l' :: (ts' ++ [r'])))

/-- Functions one after the other. -/
inductive IsModule : List FunctionDef → List Token → Prop where
  | nil : IsModule [] []
  | cons {f fs ts ts'} (first : f.Spelled ts) (later : IsModule fs ts') :
      IsModule (f :: fs) (ts ++ ts')

/-! ## From the left to the right -/

namespace Phrase

/-- What stands behind a primary expression. -/
inductive Suffixes : Expr → List Token → Expr → Prop where
  | done {e} : Suffixes e [] e
  | select {a e dot t fields ts} (dot_ : dot.Is .dot) (word : t.IsWord fields)
      (more : Suffixes (.select dot.start a fields) ts e) : Suffixes a (dot :: t :: ts) e
  | step {a e t increment ts} (step : t.IsStep increment)
      (more : Suffixes (.step t.start a increment false) ts e) : Suffixes a (t :: ts) e

/-- The operators of a level behind their first operand. -/
inductive Chain (level : Nat) : Expr → List Token → Expr → Prop where
  | done {e} : Chain level e [] e
  | operator {a b e t op ts ts'} (operator : t.IsOperator op) (own : op.level = level + 1)
      (right : (operation level b).Spelled ts) (more : Chain level (.binary t.start op a b) ts' e) :
      Chain level a (t :: (ts ++ ts')) e

theorem Suffixes.append {a b e : Expr} {ts ts' : List Token} (h : Suffixes a ts b)
    (h' : Suffixes b ts' e) : Suffixes a (ts ++ ts') e := by
  induction h with
  | done => exact h'
  | select dot word _ ih => exact .select dot word (ih h')
  | step step _ ih => exact .step step (ih h')

theorem Chain.append {level : Nat} {a b e : Expr} {ts ts' : List Token} (h : Chain level a ts b)
    (h' : Chain level b ts' e) : Chain level a (ts ++ ts') e := by
  induction h with
  | done => exact h'
  | operator operator own right _ ih =>
      rw [List.cons_append, List.append_assoc]
      exact .operator operator own right (ih h')

theorem Suffixes.spelled {a e : Expr} {ts ts' : List Token} (h : Suffixes a ts' e)
    (base : (suffixed a).Spelled ts) : (suffixed e).Spelled (ts ++ ts') := by
  induction h generalizing ts with
  | done => rwa [List.append_nil]
  | select dot word _ ih => simpa using ih (base.select dot word)
  | step step _ ih => simpa using ih (base.stepAfter step)

theorem Chain.spelled {level : Nat} {a e : Expr} {ts ts' : List Token} (h : Chain level a ts' e)
    (left : (operation (level + 1) a).Spelled ts) : (operation (level + 1) e).Spelled (ts ++ ts') := by
  induction h generalizing ts with
  | done => rwa [List.append_nil]
  | operator operator own right _ ih => simpa using ih (left.binary operator own right)

/-- Suffixes are read one after the other. -/
theorem suffixed_iff {e : Expr} {ts : List Token} : (suffixed e).Spelled ts ↔
    ∃ a front back, ts = front ++ back ∧ (primary a).Spelled front ∧ Suffixes a back e := by
  constructor
  · intro h
    generalize phrase : suffixed e = p at h
    induction h generalizing e with
    | ofPrimary plain =>
        cases phrase
        exact ⟨_, _, [], (List.append_nil _).symm, plain, .done⟩
    | select base dot word ih =>
        cases phrase
        obtain ⟨a, front, back, rfl, plain, suffixes⟩ := ih rfl
        exact ⟨a, front, _, List.append_assoc .., plain, suffixes.append (.select dot word .done)⟩
    | stepAfter target step ih =>
        cases phrase
        obtain ⟨a, front, back, rfl, plain, suffixes⟩ := ih rfl
        exact ⟨a, front, _, List.append_assoc .., plain, suffixes.append (.step step .done)⟩
    | _ => cases phrase
  · rintro ⟨a, front, back, rfl, plain, suffixes⟩
    exact suffixes.spelled (.ofPrimary plain)

/-- Operators of one level are read one after the other. -/
theorem operation_succ_iff {level : Nat} {e : Expr} {ts : List Token} :
    (operation (level + 1) e).Spelled ts ↔ ∃ a front back, ts = front ++ back ∧
      (operation level a).Spelled front ∧ Chain level a back e := by
  constructor
  · intro h
    generalize phrase : operation (level + 1) e = p at h
    induction h generalizing e with
    | tighter plain =>
        cases phrase
        exact ⟨_, _, [], (List.append_nil _).symm, plain, .done⟩
    | binary left operator own right ih =>
        cases phrase
        obtain ⟨a, front, back, rfl, plain, chain⟩ := ih rfl
        refine ⟨a, front, _, List.append_assoc .., plain, chain.append ?_⟩
        simpa using Chain.operator operator own right .done
    | _ => cases phrase
  · rintro ⟨a, front, back, rfl, plain, chain⟩
    exact chain.spelled (.tighter plain)

theorem arguments_iff {es : List Expr} {ts : List Token} : (arguments es).Spelled ts ↔
    Separated (fun e => (expression e).Spelled) es ts := by
  constructor
  · intro h
    generalize phrase : arguments es = p at h
    induction h generalizing es with
    | lastArgument plain => cases phrase; exact .last plain
    | argument first comma later _ ih => cases phrase; exact .cons first comma (ih rfl)
    | _ => cases phrase
  · intro h
    induction h with
    | last only => exact .lastArgument only
    | cons first comma _ ih => exact .argument first comma ih

end Phrase

/-! ## The stop token stands for nothing -/

/-- There is no stop token. -/
def Unstopped (ts : List Token) : Prop := ∀ t ∈ ts, t.kind ≠ .stop

namespace Unstopped

variable {t : Token} {ts ts' : List Token}

theorem nil : Unstopped [] := nofun

theorem cons_iff : Unstopped (t :: ts) ↔ t.kind ≠ .stop ∧ Unstopped ts := List.forall_mem_cons

theorem append (h : Unstopped ts) (h' : Unstopped ts') : Unstopped (ts ++ ts') :=
  List.forall_mem_append.2 ⟨h, h'⟩

theorem symbol {s : Symbol} (h : t.Is s) (more : Unstopped ts) : Unstopped (t :: ts) :=
  cons_iff.2 ⟨by rw [h]; exact nofun, more⟩

theorem word {name : String} (h : t.IsWord name) (more : Unstopped ts) : Unstopped (t :: ts) :=
  cons_iff.2 ⟨by rw [h]; exact nofun, more⟩

theorem type {ty : Ty} (h : t.IsType ty) (more : Unstopped ts) : Unstopped (t :: ts) := by
  obtain ⟨name, name_, _⟩ := h
  exact word name_ more

theorem separated {α : Type} {item : α → List Token → Prop} {as : List α}
    (h : Separated item as ts) (items : ∀ {a ts}, item a ts → Unstopped ts) : Unstopped ts := by
  induction h with
  | last only => exact items only
  | cons first comma _ ih => exact (items first).append (symbol comma ih)

theorem optionally {s : Symbol} {b : Bool} (h : Optionally s b ts) : Unstopped ts := by
  cases h with
  | absent => exact nil
  | present s => exact symbol s nil

end Unstopped

section

variable {ts : List Token}

open Unstopped

theorem Phrase.Spelled.unstopped {p : Phrase} (h : p.Spelled ts) : Unstopped ts := by
  induction h with
  | int kind | float kind => exact cons_iff.2 ⟨by rw [kind]; exact nofun, nil⟩
  | trueWord s | falseWord s => exact symbol s nil
  | var name => exact word name nil
  | callNone name l r => exact word name (symbol l (symbol r nil))
  | call name l _ r ih => exact word name (symbol l (ih.append (symbol r nil)))
  | parens l _ r ih => exact symbol l (ih.append (symbol r nil))
  | ofPrimary _ ih | ofSuffixed _ ih | ofUnary _ ih | tighter _ ih | ofOperation _ ih
  | ofConditional _ ih | lastArgument _ ih => exact ih
  | select _ dot fields ih => exact ih.append (symbol dot (word fields nil))
  | stepAfter _ step ih => exact ih.append (symbol step nil)
  | neg s _ ih | not s _ ih | plus s _ ih | stepBefore s _ ih => exact symbol s ih
  | binary _ operator _ _ ih ih' | assign _ operator _ ih ih' =>
      obtain ⟨s, operator, _⟩ := operator
      exact ih.append (symbol operator ih')
  | ternary _ q _ colon _ ih ih' ih'' => exact ih.append (symbol q (ih'.append (symbol colon ih'')))
  | argument _ comma _ ih ih' => exact ih.append (symbol comma ih')

theorem Declarator.Spelled.unstopped {v : Declarator} (h : v.Spelled ts) : Unstopped ts := by
  cases h with
  | plain name => exact word name nil
  | initialised name equals value => exact word name (symbol equals value.unstopped)

theorem Phrase.Maybe.unstopped {v : Option Expr} (h : Phrase.Maybe v ts) : Unstopped ts := by
  cases h with
  | none => exact nil
  | some value => exact value.unstopped

theorem Stmt.Simple.unstopped {s : Stmt} (h : s.Simple ts) : Unstopped ts := by
  cases h with
  | decl const ty list semi =>
      have vars := separated list Declarator.Spelled.unstopped
      exact (optionally const).append (type ty (vars.append (symbol semi nil)))
  | expr value semi => exact value.unstopped.append (symbol semi nil)

theorem Stmt.Initial.unstopped {s : Stmt} (h : s.Initial ts) : Unstopped ts := by
  cases h with
  | none semi => exact symbol semi nil
  | some simple => exact simple.unstopped

theorem Clause.Spelled.unstopped {c : Clause} (h : c.Spelled ts) : Unstopped ts := by
  induction h with
  | simple simple => exact simple.unstopped
  | empty semi => exact symbol semi .nil
  | block l _ r ih => exact symbol l (ih.append (symbol r .nil))
  | ifThen w l cond r _ ih | whileLoop w l cond r _ ih =>
      exact symbol w (symbol l (cond.unstopped.append (symbol r ih)))
  | ifElse w l cond r _ _ w' _ ih ih' =>
      exact symbol w (symbol l (cond.unstopped.append (symbol r (ih.append (symbol w' ih')))))
  | forLoop w l initial cond semi step r _ ih =>
      have ends := symbol semi (step.unstopped.append (symbol r ih))
      exact symbol w (symbol l (initial.unstopped.append (cond.unstopped.append ends)))
  | doWhile w _ w' l cond r semi ih =>
      have ends := cond.unstopped.append (symbol r (symbol semi .nil))
      exact symbol w (ih.append (symbol w' (symbol l ends)))
  | breakLoop w semi | continueLoop w semi => exact symbol w (symbol semi .nil)
  | ret w value semi => exact symbol w (value.unstopped.append (symbol semi .nil))
  | nil => exact Unstopped.nil
  | cons _ _ ih ih' => exact ih.append ih'

theorem Param.Spelled.unstopped {p : Param} (h : p.Spelled ts) : Unstopped ts := by
  obtain ⟨static, const, ty, name⟩ := h
  exact (optionally static).append ((optionally const).append (type ty (word name nil)))

theorem Param.Between.unstopped {ps : List Param} (h : Param.Between ps ts) : Unstopped ts := by
  cases h with
  | none => exact nil
  | void name => exact word name nil
  | some list => exact separated list Param.Spelled.unstopped

theorem Tag.unstopped {kernel : Option Target} (h : Tag kernel ts) : Unstopped ts := by
  cases h with
  | none => exact nil
  | normal kernel => exact symbol kernel nil
  | reduce kernel reduce => exact symbol kernel (symbol reduce nil)

theorem FunctionDef.Spelled.ne_nil {f : FunctionDef} (h : f.Spelled ts) : ts ≠ [] := by
  cases h
  simp

theorem FunctionDef.Spelled.unstopped {f : FunctionDef} (h : f.Spelled ts) : Unstopped ts := by
  obtain ⟨tag, ret, name, l, params, r, l', body, r'⟩ := h
  have rest := symbol r (symbol l' (body.unstopped.append (symbol r' nil)))
  exact tag.unstopped.append (type ret (word name (symbol l (params.unstopped.append rest))))

theorem IsModule.unstopped {fs : List FunctionDef} (h : IsModule fs ts) : Unstopped ts := by
  induction h with
  | nil => exact .nil
  | cons first _ ih => exact first.unstopped.append ih

end
end PixelKernel.Language
