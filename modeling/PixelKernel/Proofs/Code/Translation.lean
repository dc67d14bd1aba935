import PixelKernel.Proofs.Code.Placement
import PixelKernel.Language.Code.Lowering
import Mathlib.Data.List.Forall2

/-! # Trees and their code

Says which instructions of a function's code belong to which part of its tree. Jumps are told
by where they lead, so nothing here depends on how code is put together.
-/

namespace PixelKernel.Language

/-- A function's code, with what its instructions refer to. -/
structure Site where
  module : List FunctionDef
  consts : Array Value
  code : Array Op
  /-- Number of the function's slots. -/
  slots : Nat
  /-- Declared result of the function. -/
  ret : Ty

/-- A value of the first type may stand where the second is wanted. -/
def Fits (found wanted : Ty) : Prop := found = wanted ∨ (found = .int ∧ wanted = .float)

/-- The type that both branches of a conditional are brought to. -/
def Joins (s t r : Ty) : Prop := Fits s r ∧ Fits t r ∧ (r = s ∨ r = t) ∧ r ≠ .void

/-- An entry that becomes a part of a vector. -/
def PartFits (found wanted : Ty) : Prop :=
  (wanted = found ∧ wanted.lanes?.isSome) ∨
    ((found = .int ∨ found = .bool) ∧ wanted = .float)

/-- Code that makes a value of type `t` one of type `w`; there may be none. -/
inductive FitAt (code : Array Op) : Nat → Ty → Ty → Nat → Prop where
  | same {pc t} : FitAt code pc t t pc
  | float {pc t} (number : t = .int ∨ t = .bool) (op : code[pc]? = some (.toFloat 0)) :
      FitAt code pc t .float (pc + 1)

/-- The instruction of a call, behind arguments of types `found` that were made `wanted`. -/
inductive CallAt (site : Site) (pc : Nat) (name : String) : List Ty → List Ty → Ty → Prop where
  | function {found i f} (named : site.module.find? (·.name == name) = some f)
      (at_ : site.module[i]? = some f) (index : i < 65536) (count : f.params.length < 256)
      (fits : List.Forall₂ Fits found (f.params.map (·.ty.operand)))
      (op : site.code[pc]? = some (.call (.ofNat i) (.ofNat f.params.length))) :
      CallAt site pc name found (f.params.map (·.ty.operand)) f.ret.operand
  | conversion {a o t} (unnamed : site.module.find? (·.name == name) = none)
      (named : Lower.conversion? name = some (o, t)) (scalar : a = .int ∨ a = .float ∨ a = .bool)
      (op : site.code[pc]? = some o) : CallAt site pc name [a] [a] t
  | vector {found wanted width o t} (unnamed : site.module.find? (·.name == name) = none)
      (notConversion : Lower.conversion? name = none)
      (named : Lower.vectorWidth? name = some width) (count : wanted.length < 256)
      (fits : List.Forall₂ PartFits found wanted)
      (result : Lower.finishVector name width wanted = .ok (o, t))
      (op : site.code[pc]? = some o) : CallAt site pc name found wanted t
  | builtin {found b t} (unnamed : site.module.find? (·.name == name) = none)
      (notConversion : Lower.conversion? name = none) (notVector : Lower.vectorWidth? name = none)
      (count : found.length < 256)
      (named : Builtin.resolve? name (found.map fun t => if t = .int then .float else t) =
        some (b, t))
      (op : site.code[pc]? = some (.builtin b (.ofNat found.length))) :
      CallAt site pc name found (found.map fun t => if t = .int then .float else t) t

/-- A constant that is loaded. -/
def ConstAt (site : Site) (pc : Nat) (v : Value) : Prop :=
  ∃ i, site.code[pc]? = some (.const i) ∧ site.consts[i.toNat]? = some v

/-- Changes a variable by one and leaves its new or its old value. -/
def stepOps (slot : UInt16) (one : UInt32) (op : ArithOp) (leading : Bool) : List Op :=
  if leading then [.load slot, .const one, .arith op, .dup, .store slot]
  else [.load slot, .dup, .const one, .arith op, .store slot]

mutual

/-- The code from `pc` to `pc'` evaluates an expression of type `t`. -/
inductive ExprAt (site : Site) (scopes : List Scope) : Nat → Expr → Ty → Nat → Prop where
  | lit {pc p l v} (value : Lower.literal l = .ok v) (const : ConstAt site pc v) :
      ExprAt site scopes pc (.lit p l) v.ty (pc + 1)
  | var {pc p name x} (found : Lower.find? scopes name = some x)
      (op : site.code[pc]? = some (.load x.slot)) :
      ExprAt site scopes pc (.var p name) x.ty.operand (pc + 1)
  | unary {pc p op e t pc₁ o} (operand : ExprAt site scopes pc e t pc₁)
      (typed : Lower.unaryResult op t = .ok o) (instr : site.code[pc₁]? = some o) :
      ExprAt site scopes pc (.unary p op e) t (pc₁ + 1)
  | logic {pc p op a b pc₁ pc₂ skip} (left : ExprAt site scopes pc a .bool pc₁)
      (dup : site.code[pc₁]? = some .dup)
      (leave : site.code[pc₁ + 1]? = some (match op with
        | .and => .jumpIfFalse skip
        | .or => .jumpIfTrue skip))
      (pop : site.code[pc₁ + 2]? = some .pop) (right : ExprAt site scopes (pc₁ + 3) b .bool pc₂)
      (lands : Leads site.code (pc₁ + 1) skip pc₂) :
      ExprAt site scopes pc (.binary p (.logic op) a b) .bool pc₂
  | binary {pc p op a b l r t pc₁ pc₂ pc₃ o} (left : ExprAt site scopes pc a l pc₁)
      (right : ExprAt site scopes pc₁ b r pc₂)
      (promoted : OpsAt site.code pc₂ (Lower.promote l r).1 pc₃)
      (typed : Lower.operator? op (Lower.promote l r).2.1 (Lower.promote l r).2.2 = some (o, t))
      (instr : site.code[pc₃]? = some o) :
      ExprAt site scopes pc (.binary p op a b) t (pc₃ + 1)
  | ternary {pc p c a b s t r pc₁ pc₂ pc₃ pc₄ pc₅ skip} (cond : ExprAt site scopes pc c .bool pc₁)
      (branch : site.code[pc₁]? = some (.jumpIfFalse skip))
      (yes : ExprAt site scopes (pc₁ + 1) a s pc₂) (fitYes : FitAt site.code pc₂ s r pc₃)
      (past : JumpAt site.code pc₃ pc₅)
      (no : ExprAt site scopes (pc₃ + 1) b t pc₄) (fitNo : FitAt site.code pc₄ t r pc₅)
      (lands : Leads site.code pc₁ skip (pc₃ + 1)) (joined : Joins s t r) :
      ExprAt site scopes pc (.ternary p c a b) r pc₅
  | call {pc p name es found wanted t pc₁} (args : ArgsAt site scopes pc es found wanted pc₁)
      (call : CallAt site pc₁ name found wanted t) :
      ExprAt site scopes pc (.call p name es) t (pc₁ + 1)
  | select {pc p e fields t t' lanes pc₁} (base : ExprAt site scopes pc e t pc₁)
      (vector : t.isVector = true) (read : Lower.selection fields (t.lanes?.getD 4) = .ok lanes)
      (typed : Ty.ofLanes? lanes.length = some t')
      (instr : site.code[pc₁]? = some (.select lanes)) :
      ExprAt site scopes pc (.select p e fields) t' (pc₁ + 1)
  | assign {pc p target e place t pc₁ pc₂ pc₃} (goal : Lower.place scopes target = .ok place)
      (value : ExprAt site scopes pc e t pc₁) (fits : Fits t place.ty)
      (fit : FitAt site.code pc₁ t place.ty pc₂)
      (ops : OpsAt site.code pc₂ [.dup, place.write] pc₃) :
      ExprAt site scopes pc (.assign p none target e) place.ty pc₃
  | combine {pc p op target e place t w pc₁ pc₂ pc₃ pc₄}
      (goal : Lower.place scopes target = .ok place) (read : OpsAt site.code pc place.read pc₁)
      (value : ExprAt site scopes pc₁ e t pc₂) (fit : FitAt site.code pc₂ t w pc₃)
      (promoted : w = if t = .int ∧ place.ty ≠ .int then .float else t)
      (typed : Lower.arithResult? place.ty w = some place.ty)
      (ops : OpsAt site.code pc₃ [.arith op, .dup, place.write] pc₄) :
      ExprAt site scopes pc (.assign p (some op) target e) place.ty pc₄
  | step {pc p target x increment leading i pc₁}
      (goal : Lower.place scopes target = .ok ⟨x, none⟩) (ordered : x.ty.isOrdered = true)
      (one : site.consts[i.toNat]? = some (if x.ty = .int then .int 1 else .float 1))
      (ops : OpsAt site.code pc (stepOps x.slot i (if increment then .add else .sub) leading) pc₁) :
      ExprAt site scopes pc (.step p target increment leading) x.ty pc₁

/-- Arguments one behind the other, each made to fit before the next one. -/
inductive ArgsAt (site : Site) (scopes : List Scope) :
    Nat → List Expr → List Ty → List Ty → Nat → Prop where
  | nil {pc} : ArgsAt site scopes pc [] [] [] pc
  | cons {pc e rest t w found wanted pc₁ pc₂ pc₃} (head : ExprAt site scopes pc e t pc₁)
      (fit : FitAt site.code pc₁ t w pc₂) (tail : ArgsAt site scopes pc₂ rest found wanted pc₃) :
      ArgsAt site scopes pc (e :: rest) (t :: found) (w :: wanted) pc₃

end

/-- An expression whose value is dropped. -/
def EffectAt (site : Site) (scopes : List Scope) (pc : Nat) (e : Expr) (pc' : Nat) : Prop :=
  ∃ t pc₁, ExprAt site scopes pc e t pc₁ ∧
    (t = .void ∧ pc' = pc₁ ∨ t ≠ .void ∧ site.code[pc₁]? = some .pop ∧ pc' = pc₁ + 1)

/-- The condition of a loop or of a choice; what is not fulfilled goes on at `stop`. -/
def TestAt (site : Site) (scopes : List Scope) (pc : Nat) (cond : Expr) (stop pc' : Nat) : Prop :=
  ∃ pc₁ skip, ExprAt site scopes pc cond .bool pc₁ ∧ site.code[pc₁]? = some (.jumpIfFalse skip) ∧
    Leads site.code pc₁ skip stop ∧ pc' = pc₁ + 1

/-- A clause of a loop that may be left out. -/
def ClauseAt (At : Nat → Expr → Nat → Prop) (pc : Nat) (clause : Option Expr) (pc' : Nat) : Prop :=
  match clause with
  | none => pc' = pc
  | some e => At pc e pc'

/-- The innermost scope gets a variable, in a slot that no other variable in scope has. -/
structure Declared (slots : Nat) (scopes : List Scope) (name : String) (x : Local)
    (scopes' : List Scope) : Prop where
  inner : ∃ scope outer, scopes = scope :: outer ∧ scopes' = scope.insert name x :: outer ∧
    scope[name]? = none
  fresh : ∀ scope ∈ scopes, ∀ (n : String) y, scope[n]? = some y → y.slot ≠ x.slot
  room : x.slot.toNat < slots

/-- A declaration of variables of one type, one behind the other. -/
inductive DeclsAt (site : Site) (ty : Ty) :
    List Scope → Nat → List Declarator → Nat → List Scope → Prop where
  | nil {scopes pc} : DeclsAt site ty scopes pc [] pc scopes
  | init {scopes pc v rest e t x scopes₁ pc₁ pc₂ pc₃ scopes₂} (given : v.init = some e)
      (value : ExprAt site scopes pc e t pc₁) (fits : Fits t ty.operand)
      (fit : FitAt site.code pc₁ t ty.operand pc₂)
      (declared : Declared site.slots scopes v.name x scopes₁) (typed : x.ty = ty)
      (store : site.code[pc₂]? = some (.store x.slot))
      (tail : DeclsAt site ty scopes₁ (pc₂ + 1) rest pc₃ scopes₂) :
      DeclsAt site ty scopes pc (v :: rest) pc₃ scopes₂
  | zero {scopes pc v rest x scopes₁ pc₁ scopes₂} (left : v.init = none)
      (value : ConstAt site pc (.zero ty))
      (declared : Declared site.slots scopes v.name x scopes₁) (typed : x.ty = ty)
      (store : site.code[pc + 1]? = some (.store x.slot))
      (tail : DeclsAt site ty scopes₁ (pc + 2) rest pc₁ scopes₂) :
      DeclsAt site ty scopes pc (v :: rest) pc₁ scopes₂

mutual

/-- The code from `pc` to `pc'` executes a statement and leaves the variables `scopes'` in
    scope. -/
inductive StmtAt (site : Site) :
    Option Loop → List Scope → Nat → Stmt → Nat → List Scope → Prop where
  | empty {loop scopes pc} : StmtAt site loop scopes pc .empty pc scopes
  | expr {loop scopes pc e pc'} (effect : EffectAt site scopes pc e pc') :
      StmtAt site loop scopes pc (.expr e) pc' scopes
  | block {loop scopes pc ss pc' inner}
      (body : StmtsAt site loop (∅ :: scopes) pc ss pc' (inner :: scopes)) :
      StmtAt site loop scopes pc (.block ss) pc' scopes
  | decl {loop scopes pc p ty isConst vs pc' scopes'} (value : ty ≠ .void)
      (vars : DeclsAt site ty scopes pc vs pc' scopes') :
      StmtAt site loop scopes pc (.decl p ty isConst vs) pc' scopes'
  | ifThen {loop scopes pc c a pc₁ pc' inner} (test : TestAt site scopes pc c pc' pc₁)
      (yes : StmtAt site loop (∅ :: scopes) pc₁ a pc' (inner :: scopes)) :
      StmtAt site loop scopes pc (.ifThen c a) pc' scopes
  | ifElse {loop scopes pc c a b pc₁ pc₂ pc' inner inner'}
      (test : TestAt site scopes pc c (pc₂ + 1) pc₁)
      (yes : StmtAt site loop (∅ :: scopes) pc₁ a pc₂ (inner :: scopes))
      (past : JumpAt site.code pc₂ pc')
      (no : StmtAt site loop (∅ :: scopes) (pc₂ + 1) b pc' (inner' :: scopes)) :
      StmtAt site loop scopes pc (.ifElse c a b) pc' scopes
  | forLoop {loop scopes pc start c next s pc₁ pc₂ again pc₃ scope inner}
      (init : StmtAt site loop (∅ :: scopes) pc start pc₁ (scope :: scopes))
      (test : ClauseAt (fun i e j => TestAt site (scope :: scopes) i e (pc₃ + 1) j) pc₁ c pc₂)
      (body : StmtAt site (some ⟨pc₃ + 1, again⟩) (∅ :: scope :: scopes) pc₂ s again
        (inner :: scope :: scopes))
      (step : ClauseAt (EffectAt site (scope :: scopes)) again next pc₃)
      (back : JumpAt site.code pc₃ pc₁) :
      StmtAt site loop scopes pc (.forLoop start c next s) (pc₃ + 1) scopes
  | whileLoop {loop scopes pc c s pc₁ pc₂ inner} (test : TestAt site scopes pc c (pc₂ + 1) pc₁)
      (body : StmtAt site (some ⟨pc₂ + 1, pc⟩) (∅ :: scopes) pc₁ s pc₂ (inner :: scopes))
      (back : JumpAt site.code pc₂ pc) :
      StmtAt site loop scopes pc (.whileLoop c s) (pc₂ + 1) scopes
  | doWhile {loop scopes pc c s again pc₁ skip inner}
      (body : StmtAt site (some ⟨pc₁ + 1, again⟩) (∅ :: scopes) pc s again (inner :: scopes))
      (cond : ExprAt site scopes again c .bool pc₁)
      (branch : site.code[pc₁]? = some (.jumpIfTrue skip)) (lands : Leads site.code pc₁ skip pc) :
      StmtAt site loop scopes pc (.doWhile s c) (pc₁ + 1) scopes
  | breakLoop {loop scopes pc p} (jump : JumpAt site.code pc loop.stop) :
      StmtAt site (some loop) scopes pc (.breakLoop p) (pc + 1) scopes
  | continueLoop {loop scopes pc p} (jump : JumpAt site.code pc loop.again) :
      StmtAt site (some loop) scopes pc (.continueLoop p) (pc + 1) scopes
  | retVoid {loop scopes pc p} (void : site.ret = .void)
      (instr : site.code[pc]? = some .retVoid) :
      StmtAt site loop scopes pc (.ret p none) (pc + 1) scopes
  | ret {loop scopes pc p e t pc₁ pc₂} (value : ExprAt site scopes pc e t pc₁)
      (nonvoid : site.ret ≠ .void) (fits : Fits t site.ret.operand)
      (fit : FitAt site.code pc₁ t site.ret.operand pc₂) (instr : site.code[pc₂]? = some .ret) :
      StmtAt site loop scopes pc (.ret p (some e)) (pc₂ + 1) scopes

inductive StmtsAt (site : Site) :
    Option Loop → List Scope → Nat → List Stmt → Nat → List Scope → Prop where
  | nil {loop scopes pc} : StmtsAt site loop scopes pc [] pc scopes
  | cons {loop scopes pc s rest pc₁ scopes₁ pc₂ scopes₂}
      (head : StmtAt site loop scopes pc s pc₁ scopes₁)
      (tail : StmtsAt site loop scopes₁ pc₁ rest pc₂ scopes₂) :
      StmtsAt site loop scopes pc (s :: rest) pc₂ scopes₂

end

end PixelKernel.Language
