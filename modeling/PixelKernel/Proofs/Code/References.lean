import PixelKernel.Proofs.Meaning.Evaluation

/-! # What names and literals refer to

Variables of a function are numbered in the order in which they are declared, the parameters
first, and functions by their places in the module. With this, a syntax tree tells which
constants, variables and functions its code has to refer to, and in which order. These numbers
have no bound, unlike the operands of instructions.
-/

namespace PixelKernel.Language

/-! ## References -/

/-- What an instruction refers to. -/
inductive Reference where
  /-- An int, -/
  | int (n : Int)
  /-- or a constant of another type. -/
  | value (v : Value)
  | read (number : Nat)
  | write (number : Nat) (lanes : Option Selection)
  /-- Lanes picked from a vector. -/
  | pick (lanes : Selection)
  /-- A vector made of some arguments. -/
  | vector (width arguments : Nat)
  | builtin (arguments : Nat)
  | call (function arguments : Nat)
  deriving Repr, DecidableEq

/-- What a constant is a constant of. -/
def Value.reference : Value → Reference
  | .int n => .int n.toInt
  | v => .value v

/-- What an instruction refers to in code with the given constants. -/
def Op.reference? (consts : Array Value) : Op → Option Reference
  | .const i => (consts[i.toNat]?).map Value.reference
  | .load slot => some (.read slot.toNat)
  | .store slot => some (.write slot.toNat none)
  | .storeLanes slot lanes => some (.write slot.toNat (some lanes))
  | .select lanes => some (.pick lanes)
  | .construct width argc => some (.vector width.toNat argc.toNat)
  | .builtin _ argc => some (.builtin argc.toNat)
  | .call i argc => some (.call i.toNat argc.toNat)
  | _ => none

namespace Reference

/-- The variable that is written. -/
def written? : Reference → Option Nat
  | .write n _ => some n
  | _ => none

/-- The reference that is left of it in an instruction: function numbers are cut to 16 bits. -/
def narrowed : Reference → Reference
  | .call i argc => .call (i % 2 ^ 16) argc
  | r => r

/-- Writes of one variable. -/
def writes (i : Nat) (rs : List Reference) : List Reference := rs.filter (·.written? == some i)

theorem writes_append {i : Nat} {rs rs' : List Reference} :
    writes i (rs ++ rs') = writes i rs ++ writes i rs' :=
  List.filter_append ..

theorem narrowed_value (v : Value) : v.reference.narrowed = v.reference := by
  cases v <;> rfl

theorem written?_value (v : Value) : v.reference.written? = none := by
  cases v <;> rfl

end Reference

/-! ## Names -/

/-- A variable and its number among those of its function. -/
structure Numbered where
  number : Nat
  ty : Ty
  isConst : Bool
  deriving Repr, DecidableEq

/-- It can be written by an assignment. -/
def Numbered.Assignable (x : Numbered) : Prop := x.isConst = false ∧ x.ty ≠ .sampler

structure Naming where
  /-- Open scopes with the innermost first, in each the latest variable first. -/
  scopes : List (List (String × Numbered))
  /-- All variables declared so far. -/
  declared : List Numbered

namespace Naming

/-- The innermost variable of a name. -/
def find? (n : Naming) (name : String) : Option Numbered := n.scopes.findSome? (·.lookup name)

/-- Names behind a declaration. -/
def declare (n : Naming) (name : String) (ty : Ty) (isConst : Bool) : Naming :=
  let x : Numbered := ⟨n.declared.length, ty, isConst⟩
  { scopes := match n.scopes with
      | [] => [[(name, x)]]
      | scope :: outer => ((name, x) :: scope) :: outer
    declared := n.declared ++ [x] }

/-- Names in a new scope. -/
def enter (n : Naming) : Naming := { n with scopes := [] :: n.scopes }

/-- What is found out in a scope of its own, with the names that are left behind it. -/
def leave (n : Naming) (r : List Reference × Naming) : List Reference × Naming :=
  (r.1, { r.2 with scopes := n.scopes })

end Naming

/-! ## Syntax trees -/

section

variable (module : List FunctionDef)

def Literal.reference : Literal → Reference
  | .int n => .int n
  | .float x => .value (.float (Binary.narrow x))
  | .bool b => .value (.bool b)

/-- What a call refers to besides its arguments. Functions hide nothing: a name belongs to a
    function, a conversion, a vector or a builtin. -/
def calleeReferences (name : String) (arguments : Nat) : List Reference :=
  match module.find? (·.name == name) with
  | some f => [.call (module.findIdx (·.name == name)) f.params.length]
  | none =>
    if (Lower.conversion? name).isSome then []
    else match Lower.vectorWidth? name with
    | some width => [.vector width arguments]
    | none => [.builtin arguments]

variable (vars : String → Option Numbered)

/-- Variable and lanes that an assignable expression denotes. -/
def target? (e : Expr) : Option (Numbered × Option Selection) := do
  let (name, lanes) ← Meaning.place? e
  return (← vars name, lanes)

def readReferences (e : Expr) : List Reference :=
  match target? vars e with
  | some (x, lanes) => .read x.number :: (lanes.map .pick).toList
  | none => []

def writeReferences (e : Expr) : List Reference :=
  match target? vars e with
  | some (x, lanes) => [.write x.number lanes]
  | none => []

/-- The one that a counter goes up or down by. -/
def unitReferences (e : Expr) : List Reference :=
  match target? vars e with
  | some (x, _) => [if x.ty = .int then .int 1 else .value (.float 1)]
  | none => []

mutual

def Expr.references : Expr → List Reference
  | .lit _ l => [l.reference]
  | .var _ name => ((vars name).map fun x => .read x.number).toList
  | .unary _ _ e => e.references
  | .binary _ _ a b => a.references ++ b.references
  | .ternary _ c a b => c.references ++ a.references ++ b.references
  | .call _ name args => Expr.referencesAll args ++ calleeReferences module name args.length
  | .select _ e fields => e.references ++ ((Meaning.lanes? fields).map .pick).toList
  | .assign _ none target e => e.references ++ writeReferences vars target
  | .assign _ (some _) target e =>
    readReferences vars target ++ e.references ++ writeReferences vars target
  | .step _ target _ _ =>
    readReferences vars target ++ unitReferences vars target ++ writeReferences vars target

def Expr.referencesAll : List Expr → List Reference
  | [] => []
  | e :: rest => e.references ++ Expr.referencesAll rest

end

def Expr.clauseReferences : Option Expr → List Reference
  | none => []
  | some e => e.references module vars

end

section

variable (module : List FunctionDef)

/-- What the first value of a variable refers to. -/
def Declarator.references (ty : Ty) (n : Naming) (v : Declarator) : List Reference :=
  match v.init with
  | some e => e.references module n.find?
  | none => [(Value.zero ty).reference]

/-- Variables of one declaration, which are written when they are declared. -/
def resolveDeclarators (ty : Ty) (isConst : Bool) (n : Naming) :
    List Declarator → List Reference × Naming
  | [] => ([], n)
  | v :: rest =>
    let more := resolveDeclarators ty isConst (n.declare v.name ty isConst) rest
    (v.references module ty n ++ [.write n.declared.length none] ++ more.1, more.2)

mutual

/-- What a statement refers to, and the names behind it. -/
def Stmt.resolve (n : Naming) : Stmt → List Reference × Naming
  | .empty | .breakLoop _ | .continueLoop _ => ([], n)
  | .expr e => (e.references module n.find?, n)
  | .block body => n.leave (Stmt.resolveAll n.enter body)
  | .decl _ ty isConst vars => resolveDeclarators module ty isConst n vars
  | .ifThen c a =>
    let yes := n.leave (a.resolve n.enter)
    (c.references module n.find? ++ yes.1, yes.2)
  | .ifElse c a b =>
    let yes := n.leave (a.resolve n.enter)
    let no := yes.2.leave (b.resolve yes.2.enter)
    (c.references module n.find? ++ yes.1 ++ no.1, no.2)
  | .forLoop init c step body =>
    let first := init.resolve n.enter
    let inner := first.2.leave (body.resolve first.2.enter)
    n.leave (first.1 ++ Expr.clauseReferences module first.2.find? c ++ inner.1 ++
      Expr.clauseReferences module inner.2.find? step, inner.2)
  | .whileLoop c body =>
    let inner := n.leave (body.resolve n.enter)
    (c.references module n.find? ++ inner.1, inner.2)
  | .doWhile body c =>
    let inner := n.leave (body.resolve n.enter)
    (inner.1 ++ c.references module inner.2.find?, inner.2)
  | .ret _ value => (Expr.clauseReferences module n.find? value, n)

def Stmt.resolveAll (n : Naming) : List Stmt → List Reference × Naming
  | [] => ([], n)
  | s :: rest =>
    let first := s.resolve n
    let more := Stmt.resolveAll first.2 rest
    (first.1 ++ more.1, more.2)

end

/-- Names in the body of a function. -/
def FunctionDef.naming (f : FunctionDef) : Naming :=
  f.params.foldl (fun n p => n.declare p.name p.ty false) ⟨[[]], []⟩

/-- What a function refers to, and its variables. -/
def FunctionDef.resolve (f : FunctionDef) : List Reference × Naming :=
  Stmt.resolveAll module f.naming f.body

end

/-! ## Calls -/

/-- A call refers to a function of the module and has as many arguments as that has parameters. -/
def Reference.Within (module : List FunctionDef) : Reference → Prop
  | .call i argc => ∃ f, module[i]? = some f ∧ f.params.length = argc
  | _ => True

section

variable {module : List FunctionDef} {vars : String → Option Numbered}

theorem within_value (v : Value) : v.reference.Within module := by
  cases v <;> trivial

theorem within_callee (name : String) (arguments : Nat) :
    ∀ r ∈ calleeReferences module name arguments, r.Within module := by
  unfold calleeReferences
  split
  next f found =>
    rw [List.forall_mem_singleton]
    obtain ⟨holds, -⟩ := List.find?_eq_some_iff_append.1 found
    have inside : module.findIdx (·.name == name) < module.length :=
      List.findIdx_lt_length_of_exists ⟨f, List.mem_of_find?_eq_some found, holds⟩
    refine ⟨f, ?_, rfl⟩
    rw [← found, List.find?_eq_getElem?_findIdx]
  next =>
    split
    · nofun
    · split <;> exact List.forall_mem_singleton.2 trivial

theorem within_targets (e : Expr) : (∀ r ∈ readReferences vars e, r.Within module) ∧
    (∀ r ∈ unitReferences vars e, r.Within module) ∧
      ∀ r ∈ writeReferences vars e, r.Within module := by
  unfold readReferences unitReferences writeReferences
  cases target? vars e with
  | none => exact ⟨nofun, nofun, nofun⟩
  | some t =>
      obtain ⟨x, lanes⟩ := t
      refine ⟨List.forall_mem_cons.2 ⟨trivial, ?_⟩, List.forall_mem_singleton.2 ?_,
        List.forall_mem_singleton.2 trivial⟩
      · cases lanes with
        | none => nofun
        | some lanes => exact List.forall_mem_singleton.2 trivial
      · split <;> trivial

mutual

theorem Expr.within (e : Expr) : ∀ r ∈ e.references module vars, r.Within module :=
  match e with
  | .lit _ l => by
    rw [Expr.references]
    cases l <;> exact List.forall_mem_singleton.2 trivial
  | .var _ name => by
    rw [Expr.references]
    cases vars name with
    | none => nofun
    | some x => exact List.forall_mem_singleton.2 trivial
  | .unary _ _ e => by
    rw [Expr.references]
    exact e.within
  | .binary _ _ a b => by
    rw [Expr.references]
    exact List.forall_mem_append.2 ⟨a.within, b.within⟩
  | .ternary _ c a b => by
    rw [Expr.references]
    exact List.forall_mem_append.2 ⟨List.forall_mem_append.2 ⟨c.within, a.within⟩, b.within⟩
  | .call _ name args => by
    rw [Expr.references]
    exact List.forall_mem_append.2 ⟨Expr.withinAll args, within_callee name _⟩
  | .select _ e fields => by
    rw [Expr.references]
    refine List.forall_mem_append.2 ⟨e.within, ?_⟩
    cases Meaning.lanes? fields with
    | none => nofun
    | some lanes => exact List.forall_mem_singleton.2 trivial
  | .assign _ none target e => by
    rw [Expr.references]
    exact List.forall_mem_append.2 ⟨e.within, (within_targets target).2.2⟩
  | .assign _ (some _) target e => by
    obtain ⟨read, -, write⟩ := @within_targets module vars target
    rw [Expr.references]
    exact List.forall_mem_append.2 ⟨List.forall_mem_append.2 ⟨read, e.within⟩, write⟩
  | .step _ target _ _ => by
    obtain ⟨read, unit, write⟩ := @within_targets module vars target
    rw [Expr.references]
    exact List.forall_mem_append.2 ⟨List.forall_mem_append.2 ⟨read, unit⟩, write⟩

theorem Expr.withinAll (es : List Expr) :
    ∀ r ∈ Expr.referencesAll module vars es, r.Within module :=
  match es with
  | [] => nofun
  | e :: rest => by
    rw [Expr.referencesAll]
    exact List.forall_mem_append.2 ⟨e.within, Expr.withinAll rest⟩

end

theorem within_clause (c : Option Expr) :
    ∀ r ∈ Expr.clauseReferences module vars c, r.Within module := by
  cases c with
  | none => nofun
  | some e => exact e.within

theorem within_declarators (ty : Ty) (isConst : Bool) (vs : List Declarator) (n : Naming) :
    ∀ r ∈ (resolveDeclarators module ty isConst n vs).1, r.Within module := by
  induction vs generalizing n with
  | nil => nofun
  | cons v rest ih =>
      refine List.forall_mem_append.2 ⟨List.forall_mem_append.2 ⟨?_, ?_⟩, ih _⟩
      · unfold Declarator.references
        cases v.init with
        | none => exact List.forall_mem_singleton.2 (within_value _)
        | some e => exact e.within
      · exact List.forall_mem_singleton.2 trivial

mutual

theorem Stmt.within (s : Stmt) (n : Naming) : ∀ r ∈ (s.resolve module n).1, r.Within module :=
  match s with
  | .empty | .breakLoop _ | .continueLoop _ => by
    rw [Stmt.resolve]
    nofun
  | .expr e => by
    rw [Stmt.resolve]
    exact e.within
  | .block body => by
    rw [Stmt.resolve]
    exact Stmt.withinAll body _
  | .decl _ ty isConst vars => by
    rw [Stmt.resolve]
    exact within_declarators ty isConst vars n
  | .ifThen c a => by
    rw [Stmt.resolve]
    exact List.forall_mem_append.2 ⟨c.within, a.within _⟩
  | .ifElse c a b => by
    rw [Stmt.resolve]
    exact List.forall_mem_append.2 ⟨List.forall_mem_append.2 ⟨c.within, a.within _⟩, b.within _⟩
  | .forLoop init c step body => by
    rw [Stmt.resolve]
    exact List.forall_mem_append.2 ⟨List.forall_mem_append.2 ⟨List.forall_mem_append.2
      ⟨init.within _, within_clause c⟩, body.within _⟩, within_clause step⟩
  | .whileLoop c body => by
    rw [Stmt.resolve]
    exact List.forall_mem_append.2 ⟨c.within, body.within _⟩
  | .doWhile body c => by
    rw [Stmt.resolve]
    exact List.forall_mem_append.2 ⟨body.within _, c.within⟩
  | .ret _ value => by
    rw [Stmt.resolve]
    exact within_clause value

theorem Stmt.withinAll (ss : List Stmt) (n : Naming) :
    ∀ r ∈ (Stmt.resolveAll module n ss).1, r.Within module :=
  match ss with
  | [] => nofun
  | s :: rest => by
    rw [Stmt.resolveAll]
    exact List.forall_mem_append.2 ⟨s.within n, Stmt.withinAll rest _⟩

end

theorem Reference.Within.narrowed {r : Reference} (h : r.Within module)
    (few : module.length ≤ 2 ^ 16) :
    r.narrowed = r := by
  cases r with
  | call i argc =>
      obtain ⟨f, there, -⟩ := h
      have inside := (List.getElem?_eq_some_iff.1 there).1
      rw [Reference.narrowed, Nat.mod_eq_of_lt (by omega)]
  | _ => rfl

end

/-! ## Variables that stay as they are -/

namespace Naming

/-- Variables have their places as numbers, and those in scope are among them. -/
structure Sound (n : Naming) : Prop where
  numbered : ∀ i (x : Numbered), n.declared[i]? = some x → x.number = i
  inScope : ∀ scope ∈ n.scopes, ∀ b ∈ scope, n.declared[b.2.number]? = some b.2

variable {n : Naming} {r : List Reference × Naming}

theorem mem_of_lookup {name : String} {x : Numbered} {scope : List (String × Numbered)}
    (h : scope.lookup name = some x) : (name, x) ∈ scope := by
  induction scope with
  | nil => cases h
  | cons b rest ih =>
      obtain ⟨other, y⟩ := b
      rw [List.lookup_cons] at h
      split at h
      next same =>
        cases h
        rw [eq_of_beq same]
        exact List.mem_cons_self
      next => exact List.mem_cons_of_mem _ (ih h)

theorem Sound.find? (h : n.Sound) {name : String} {x : Numbered} (found : n.find? name = some x) :
    n.declared[x.number]? = some x := by
  obtain ⟨scope, mem, here⟩ := List.exists_of_findSome?_eq_some found
  exact h.inScope scope mem _ (mem_of_lookup here)

theorem getElem?_of_prefix {xs ys : List Numbered} {i : Nat} {x : Numbered} (h : xs <+: ys)
    (there : xs[i]? = some x) : ys[i]? = some x := by
  obtain ⟨more, rfl⟩ := h
  rw [List.getElem?_append_left (List.getElem?_eq_some_iff.1 there).1, there]

theorem Sound.declare (h : n.Sound) (name : String) (ty : Ty) (isConst : Bool) :
    (n.declare name ty isConst).Sound := by
  have old {i x} : n.declared[i]? = some x → (n.declare name ty isConst).declared[i]? = some x :=
    getElem?_of_prefix (List.prefix_append ..)
  have new : (n.declare name ty isConst).declared[n.declared.length]? =
      some ⟨n.declared.length, ty, isConst⟩ := List.getElem?_concat_length
  constructor
  · intro i x there
    obtain here | rfl := Nat.lt_or_eq_of_le (Nat.le_of_lt_succ (by
      simpa [Naming.declare] using (List.getElem?_eq_some_iff.1 there).1))
    · refine h.numbered i x ?_
      rw [← there, Naming.declare, List.getElem?_append_left here]
    · cases new.symm.trans there
      rfl
  · intro scope mem b hb
    unfold Naming.declare at mem
    split at mem
    · obtain rfl := List.mem_singleton.1 mem
      obtain rfl := List.mem_singleton.1 hb
      exact new
    next inner outer scopes =>
      rcases List.mem_cons.1 mem with rfl | mem
      · rcases List.mem_cons.1 hb with rfl | hb
        · exact new
        · exact old (h.inScope inner (by simp [scopes]) b hb)
      · exact old (h.inScope scope (by simp [scopes, mem]) b hb)

theorem Sound.enter (h : n.Sound) : n.enter.Sound where
  numbered := h.numbered
  inScope scope mem b hb := by
    rcases List.mem_cons.1 mem with rfl | mem
    · cases hb
    · exact h.inScope scope mem b hb

theorem Sound.leave (h : n.Sound) (inner : r.2.Sound) (grown : n.declared <+: r.2.declared) :
    (n.leave r).2.Sound where
  numbered := inner.numbered
  inScope scope mem b hb := getElem?_of_prefix grown (h.inScope scope mem b hb)

end Naming

open Reference

/-- Between two namings, variables that cannot be assigned to are written when they are declared
    and at no other time. -/
structure Respects (n : Naming) (r : List Reference × Naming) : Prop where
  grown : n.declared <+: r.2.declared
  below : ∀ i, r.2.declared.length ≤ i → writes i r.1 = []
  once : ∀ i (x : Numbered), r.2.declared[i]? = some x → ¬ x.Assignable →
    writes i r.1 = if i < n.declared.length then [] else [.write i none]

namespace Respects

variable {n n₁ n₂ : Naming} {rs rs' : List Reference}

/-- What writes assignable variables only. -/
theorem assigns (h : ∀ r ∈ rs, ∀ i, r.written? = some i →
    ∃ x : Numbered, n.declared[i]? = some x ∧ x.Assignable) : Respects n (rs, n) where
  grown := List.prefix_refl _
  below i outside := by
    refine List.filter_eq_nil_iff.2 fun r mem writes => ?_
    obtain ⟨x, there, -⟩ := h r mem i (eq_of_beq writes)
    exact Nat.not_lt.2 outside (List.getElem?_eq_some_iff.1 there).1
  once i x there fixed := by
    rw [if_pos (List.getElem?_eq_some_iff.1 there).1]
    refine List.filter_eq_nil_iff.2 fun r mem writes => ?_
    obtain ⟨y, there', assignable⟩ := h r mem i (eq_of_beq writes)
    cases there.symm.trans there'
    exact fixed assignable

/-- What writes nothing. -/
theorem quiet (h : ∀ r ∈ rs, r.written? = none) : Respects n (rs, n) :=
  assigns fun r mem i writes => by rw [h r mem] at writes; cases writes

theorem append (first : Respects n (rs, n₁)) (second : Respects n₁ (rs', n₂)) :
    Respects n (rs ++ rs', n₂) where
  grown := first.grown.trans second.grown
  below i outside := by
    have length : n₁.declared.length ≤ n₂.declared.length := second.grown.length_le
    rw [writes_append, first.below i (Nat.le_trans length outside), second.below i outside]
    rfl
  once i x there fixed := by
    have length : n.declared.length ≤ n₁.declared.length := first.grown.length_le
    rw [writes_append, second.once i x there fixed]
    by_cases before : i < n₁.declared.length
    · have there₁ : n₁.declared[i]? = some x := by
        obtain ⟨more, eq⟩ := second.grown
        rw [← eq, List.getElem?_append_left before] at there
        exact there
      rw [first.once i x there₁ fixed, if_pos before, List.append_nil]
    · rw [first.below i (Nat.not_lt.1 before), if_neg before,
        if_neg (show ¬ i < n.declared.length by omega)]
      rfl

theorem declare (name : String) (ty : Ty) (isConst : Bool) :
    Respects n ([.write n.declared.length none], n.declare name ty isConst) where
  grown := List.prefix_append ..
  below i outside := by
    rw [Naming.declare, List.length_append, List.length_singleton] at outside
    have other : n.declared.length ≠ i := by omega
    simp [writes, written?, other]
  once i x there fixed := by
    have inside := (List.getElem?_eq_some_iff.1 there).1
    rw [Naming.declare, List.length_append, List.length_singleton] at inside
    by_cases same : n.declared.length = i
    · subst same
      simp [writes, written?]
    · rw [if_pos (by omega)]
      simp [writes, written?, same]

theorem leave {r : List Reference × Naming} (h : Respects n.enter r) : Respects n (n.leave r) where
  grown := h.grown
  below := h.below
  once := h.once

end Respects

end PixelKernel.Language
