import PixelKernel.Proofs.Code.Resolution
import PixelKernel.Proofs.Code.Types
import PixelKernel.Proofs.Machine.Builtins

/-! # Types told by code

Read from the front to the back, lowered code tells the types of what it puts on the stack and of
the variables that it declares: the slot of a declaration is the first one that is not yet taken.
Where a jump leads does not matter for this, so it holds of code of any length.
-/

namespace PixelKernel.Language

/-! ## Tallies -/

/-- Types of what instructions refer to by number. -/
structure Signature where
  const : Nat → Ty
  result : Nat → Ty

/-- Types of the entries of the stack, with its top first, and of the slots taken so far. A call
    without a result counts as an entry. -/
structure Tally where
  stack : List Ty
  slots : List Ty

namespace Tally

/-- The entries above some others are replaced by one. -/
def replace (x : Tally) (count : Nat) (t : Ty) : Tally :=
  { x with stack := t :: x.stack.drop count }

/-- The top is taken off the stack and goes into a slot, which may be the next one. -/
def store (x : Tally) (slot : Nat) : Tally where
  stack := x.stack.tail
  slots := if slot = x.slots.length then x.slots ++ x.stack.head?.toList else x.slots

end Tally

/-- The tally behind an instruction. A jump that is not conditional stands behind a value that
    another one replaces, or nothing is on the stack. -/
def Op.tally (s : Signature) (x : Tally) : Op → Tally
  | .const i => x.replace 0 (s.const i.toNat)
  | .load slot => x.replace 0 (x.slots[slot.toNat]?.getD .void)
  | .store slot => x.store slot.toNat
  | .storeLanes .. | .pop | .jump _ | .jumpIfFalse _ | .jumpIfTrue _ | .ret =>
    { x with stack := x.stack.tail }
  | .select lanes => x.replace 1 ((Ty.ofLanes? lanes.length).getD .float)
  | .dup => { x with stack := x.stack.head?.toList ++ x.stack }
  | .arith _ =>
    match x.stack with
    | r :: l :: _ => x.replace 2 ((Lower.arithResult? l r).getD .void)
    | _ => x
  | .compare _ => x.replace 2 .bool
  | .toFloat depth => { x with stack := x.stack.set depth.toNat .float }
  | .toInt => x.replace 1 .int
  | .toBool => x.replace 1 .bool
  | .construct width argc => x.replace argc.toNat ((Ty.ofLanes? width.toNat).getD .vec4)
  | .builtin f argc =>
    x.replace argc.toNat ((f.result? (x.stack.take argc.toNat).reverse).getD .void)
  | .call i argc => x.replace argc.toNat (s.result i.toNat)
  | .neg | .not | .retVoid | .missingReturn => x

/-- The tally behind some instructions. -/
def Op.tallies (s : Signature) (ops : List Op) (x : Tally) : Tally := ops.foldl (Op.tally s) x

/-- Open jumps count like other ones. -/
def Step.tally (s : Signature) (x : Tally) : Step → Tally
  | .op o => o.tally s x
  | .breakOut | .continueOn => { x with stack := x.stack.tail }

def Chunk.tally (s : Signature) (c : Chunk) (x : Tally) : Tally := c.foldl (Step.tally s) x

section

variable {s : Signature} {ops more : List Op} {c c' : Chunk} {x : Tally}

@[simp] theorem Op.tallies_nil : Op.tallies s [] x = x := rfl

@[simp] theorem Op.tallies_cons {o : Op} :
    Op.tallies s (o :: ops) x = Op.tallies s ops (o.tally s x) := rfl

@[simp] theorem Op.tallies_append :
    Op.tallies s (ops ++ more) x = Op.tallies s more (Op.tallies s ops x) := List.foldl_append

namespace Chunk

@[simp] theorem tally_nil : tally s [] x = x := rfl

@[simp] theorem tally_cons {step : Step} : tally s (step :: c) x = tally s c (step.tally s x) := rfl

@[simp] theorem tally_append : tally s (c ++ c') x = tally s c' (tally s c x) := List.foldl_append

@[simp] theorem tally_ofOps : tally s (.ofOps ops) x = Op.tallies s ops x := List.foldl_map

@[simp] theorem tally_closeFrom {site again stop : Nat} :
    tally s (c.closeFrom site again stop) x = tally s c x := by
  induction c generalizing site x with
  | nil => rfl
  | cons step c ih => cases step <;> exact ih

theorem Closed.tallies_ops (h : c.Closed) : Op.tallies s c.ops x = tally s c x := by
  induction c generalizing x with
  | nil => rfl
  | cons step c ih =>
      obtain ⟨o, rfl⟩ := h step List.mem_cons_self
      exact ih fun step there => h step (List.mem_cons_of_mem _ there)

end Chunk
end

/-! ## Signatures and drafts -/

/-- Types of the variables declared so far, as they are inside of expressions. -/
def Naming.types (n : Naming) : List Ty := n.declared.map (·.ty.operand)

@[simp] theorem Naming.types_declare (n : Naming) (name : String) (ty : Ty) (isConst : Bool) :
    (n.declare name ty isConst).types = n.types ++ [ty.operand] := by
  simp [types, declare]

namespace Lower

/-- The signature is that of the constants and of the functions so far. -/
structure Signs (s : Signature) (lib : Library) (consts : Array Value) : Prop where
  const : ∀ (i : Nat) v, consts[i]? = some v → s.const i = v.ty
  result : ∀ (i : Nat) f, lib.functions[i]? = some f →
    s.result (UInt16.ofNat i).toNat = f.ret.operand

variable {cx : Surroundings} {d d' d₁ d₂ : Draft} {n n' n₁ n₂ : Naming} {s : Signature}
  {ops more : List Op} {ts us stack : List Ty} {t w : Ty}

theorem Signs.before {lib : Library} {consts consts' : Array Value} (h : Signs s lib consts')
    (grown : consts.toList <+: consts'.toList) : Signs s lib consts where
  const i v there := by
    obtain ⟨rest, eq⟩ := grown
    rw [← Array.getElem?_toList] at there
    refine h.const i v ?_
    rw [← Array.getElem?_toList, ← eq,
      List.getElem?_append_left (List.getElem?_eq_some_iff.1 there).1, there]
  result := h.result

/-- What an expression adds to the tally when its code gets from one draft to another. -/
structure Tells (cx : Surroundings) (d d' : Draft) (n : Naming) (ops : List Op) (ts : List Ty) :
    Prop where
  ready : Ready d' n
  consts : d.consts.toList <+: d'.consts.toList
  tally : ∀ {s : Signature}, Signs s cx.library d'.consts → ∀ stack,
    Op.tallies s ops ⟨stack, n.types⟩ = ⟨ts ++ stack, n.types⟩

namespace Tells

theorem nil (ready : Ready d n) : Tells cx d d n [] [] :=
  ⟨ready, List.prefix_refl _, fun _ _ => rfl⟩

theorem cast (h : Tells cx d d' n ops ts) (code : more = ops) (types : us = ts) :
    Tells cx d d' n more us := by
  rw [code, types]
  exact h

theorem append (first : Tells cx d d₁ n ops ts) (second : Tells cx d₁ d₂ n more us) :
    Tells cx d d₂ n (ops ++ more) (us ++ ts) where
  ready := second.ready
  consts := first.consts.trans second.consts
  tally signs stack := by
    rw [Op.tallies_append, first.tally (signs.before second.consts), second.tally signs,
      List.append_assoc]

/-- Instructions that need no constants, behind some others. -/
theorem behind (h : Tells cx d d' n ops ts) (more : List Op) (step : ∀ {s : Signature},
    Signs s cx.library d'.consts → ∀ stack,
      Op.tallies s more ⟨ts ++ stack, n.types⟩ = ⟨us ++ stack, n.types⟩) :
    Tells cx d d' n (ops ++ more) us where
  ready := h.ready
  consts := h.consts
  tally signs stack := by rw [Op.tallies_append, h.tally signs, step signs]

/-- Both operands are bools, of which one is left. -/
theorem shortCircuit (op : LogicOp) (left : Tells cx d d₁ n ops [t])
    (right : Tells cx d₁ d₂ n more [w]) : Tells cx d d₂ n (Op.shortCircuit op ops more) [w] where
  ready := right.ready
  consts := left.consts.trans right.consts
  tally signs stack := by
    cases op <;>
      simp [Op.shortCircuit, Op.tally, left.tally (signs.before right.consts), right.tally signs]

/-- The value of a branch is replaced by that of the other one. -/
theorem choose {yes : List Op} (cond : Tells cx d d₁ n ops [t]) (left : Tells cx d₁ d₂ n yes [w])
    (right : Tells cx d₂ d' n more [w]) : Tells cx d d' n (Op.choose ops yes more) [w] where
  ready := right.ready
  consts := (cond.consts.trans left.consts).trans right.consts
  tally signs stack := by
    have signs₂ := signs.before right.consts
    simp [Op.choose, Op.tally, cond.tally (signs₂.before left.consts), left.tally signs₂,
      right.tally signs]

theorem constant {v : Value} {o : Op} (ready : Ready d n) (hv : Constant v)
    (h : constant v d = .ok (o, d')) : Tells cx d d' n [o] [v.ty] := by
  obtain ⟨grows, i, rfl, held⟩ := constant_eq_ok ready.pool hv h
  refine ⟨ready.grows grows, grows.consts, fun signs stack => ?_⟩
  simp [Op.tally, Tally.replace, signs.const _ _ held]

end Tells

/-! ## Conversions and operators -/

theorem tallies_fit {what : String} {pos : Nat} (h : fit what pos t w = .ok ops)
    (slots : List Ty) : Op.tallies s ops ⟨t :: stack, slots⟩ = ⟨w :: stack, slots⟩ := by
  unfold fit at h
  split at h
  next same => cases h; rw [same]; rfl
  next =>
    split at h
    next widens => cases h; rw [widens.2]; rfl
    next => cases h

theorem Fit.Sound.tallies {f : Fit} (sound : f.Sound) {i pos : Nat}
    (h : f i pos t = .ok (ops, w)) (slots : List Ty) :
    Op.tallies s ops ⟨t :: stack, slots⟩ = ⟨w :: stack, slots⟩ := by
  rcases sound i pos t ops w h with ⟨rfl, rfl⟩ | ⟨rfl, rfl, -⟩ <;> rfl

theorem tallies_promote (l r : Ty) (slots : List Ty) :
    Op.tallies s (promote l r).1 ⟨r :: l :: stack, slots⟩ =
      ⟨(promote l r).2.2 :: (promote l r).2.1 :: stack, slots⟩ := by
  unfold promote
  split
  · rfl
  · split <;> rfl

theorem tally_operator? {op : BinaryOp} {l r : Ty} {o : Op} (h : operator? op l r = some (o, t))
    (slots : List Ty) : o.tally s ⟨r :: l :: stack, slots⟩ = ⟨t :: stack, slots⟩ := by
  unfold operator? at h
  cases op with
  | arith op =>
      obtain ⟨_, result, ⟨⟩⟩ := Option.map_eq_some_iff.1 h
      simp [Op.tally, Tally.replace, result]
  | order op =>
      dsimp only at h
      split at h
      all_goals
        obtain ⟨-, ⟨⟩⟩ := Option.ite_none_right_eq_some.1 h
        rfl
  | logic op => cases h

theorem tally_unaryResult {op : UnaryOp} {o : Op} (h : unaryResult op t = .ok o) (x : Tally) :
    o.tally s x = x := by
  unfold unaryResult at h
  split at h
  all_goals
    split at h <;> cases h
    rfl

/-! ## Calls -/

theorem tally_conversion? {name : String} {o : Op} (h : conversion? name = some (o, t)) (a : Ty)
    (slots : List Ty) : o.tally s ⟨a :: stack, slots⟩ = ⟨t :: stack, slots⟩ := by
  unfold conversion? at h
  split at h <;> cases h <;> rfl

theorem tally_finishVector {name : String} {width : Nat} {types : List Ty} {o : Op}
    (vector : vectorWidth? name = some width) (few : ¬ types.length > 255)
    (h : finishVector name width types = .ok (o, t)) (slots : List Ty) :
    o.tally s ⟨types.reverse ++ stack, slots⟩ = ⟨t :: stack, slots⟩ := by
  have wide : (UInt8.ofNat width).toNat = width := by
    unfold vectorWidth? at vector
    split at vector <;> cases vector <;> rfl
  unfold finishVector at h
  dsimp only at h
  split at h
  · cases h
  · cases h
    simp [Op.tally, Tally.replace, wide, toNat_ofNat_of_few few]

theorem tally_finishBuiltin {kernel : Option Target} {name : String} {types : List Ty} {o : Op}
    (few : ¬ types.length > 255) (h : finishBuiltin kernel name types = .ok (o, t))
    (slots : List Ty) : o.tally s ⟨types.reverse ++ stack, slots⟩ = ⟨t :: stack, slots⟩ := by
  unfold finishBuiltin at h
  split at h
  · cases h
  next b t' resolved =>
    split at h
    · cases h
    · cases h
      simp [Op.tally, Tally.replace, toNat_ofNat_of_few few, Builtin.result?_of_resolve? resolved]

/-- A call takes its arguments off the stack, whatever it means, and leaves its result. -/
theorem tally_callee {consts : Array Value} {pos argc : Nat} {name : String} {c : Callee}
    (h : callee cx pos name argc = .ok c) {types : List Ty} {o : Op} (count : types.length = argc)
    (finish : c.finish types = .ok (o, t)) (signs : Signs s cx.library consts) (slots : List Ty) :
    o.tally s ⟨types.reverse ++ stack, slots⟩ = ⟨t :: stack, slots⟩ := by
  subst count
  unfold callee at h
  split at h
  · cases h
  next few =>
  split at h
  next i g there =>
    split at h
    · cases h
    · cases h
      cases finish
      obtain ⟨j, -, found⟩ := Option.bind_eq_some_iff.1 there
      obtain ⟨_, at_, ⟨⟩⟩ := Option.bind_eq_some_iff.1 found
      simp [Op.tally, Tally.replace, toNat_ofNat_of_few few, ← signs.result i g at_]
  next =>
  split at h
  next r conversion =>
    split at h
    · cases h
    next one =>
      obtain ⟨a, rfl⟩ := List.length_eq_one_iff.1 (Decidable.not_not.1 one)
      cases h
      cases finish
      exact tally_conversion? conversion a slots
  next =>
  split at h
  next width vector =>
    cases h
    exact tally_finishVector vector few finish slots
  next =>
    split at h
    · cases h
    · cases h
      exact tally_finishBuiltin few finish slots

/-! ## Places -/

theorem Ready.type (ready : Ready d n) {name : String} {x : Local}
    (found : Lower.find? d.scopes name = some x) : n.types[x.slot.toNat]? = some x.ty.operand := by
  have there : n.find? name = some x.numbered := by
    rw [ready.find?, found]
    rfl
  have declared : n.declared[x.slot.toNat]? = some x.numbered := ready.sound.find? there
  rw [Naming.types, List.getElem?_map, declared]
  rfl

section

variable {e : Expr} {p : Place} (ready : Ready d n) (h : place d.scopes e = .ok p)
include ready h

theorem type_place : n.types[p.var.slot.toNat]? = some p.var.ty.operand := by
  obtain ⟨name, found, -⟩ := place_eq_ok h
  exact ready.type found

theorem tallies_read : Op.tallies s p.read ⟨stack, n.types⟩ = ⟨p.ty :: stack, n.types⟩ := by
  have type := type_place ready h
  unfold Place.read Place.ty
  cases p.lanes <;> simp [Op.tally, Tally.replace, type]

/-- What is written has its slot already. -/
theorem tally_write : p.write.tally s ⟨t :: stack, n.types⟩ = ⟨stack, n.types⟩ := by
  have inside := (List.getElem?_eq_some_iff.1 (type_place ready h)).1
  unfold Place.write
  cases p.lanes with
  | none => simp [Op.tally, Tally.store, Nat.ne_of_lt inside]
  | some lanes => rfl

end

/-! ## Expressions -/

/-- The code of an expression tells the type of the expression, whichever draft it is lowered in. -/
abbrev ExprTells (cx : Surroundings) (e : Expr) : Prop :=
  ∀ {d d' : Draft} {n : Naming} {ops : List Op} {t : Ty}, Ready d n →
    expr cx e d = .ok ((ops, t), d') → Tells cx d d' n ops [t]

theorem lit_tells {p : Nat} {l : Literal} (floats : (Expr.lit p l).Floats Signless) :
    ExprTells cx (.lit p l) := by
  intro d d' n ops t ready h
  rw [expr] at h
  simp only [bind_eq_ok, liftCause_eq_ok, pure_eq_ok] at h
  obtain ⟨v, _, ⟨value, rfl⟩, o, _, made, same, rfl⟩ := h
  cases same
  exact .constant ready (constant_literal floats value) made

theorem var_tells {p : Nat} {name : String} : ExprTells cx (.var p name) := by
  intro d d' n ops t ready h
  rw [expr] at h
  simp only [bind_eq_ok, get_eq_ok] at h
  obtain ⟨_, _, ⟨rfl, rfl⟩, h⟩ := h
  cases found : find? d.scopes name with
  | none =>
      rw [found] at h
      exact absurd h complain_ne_ok
  | some x =>
      rw [found] at h
      obtain ⟨same, rfl⟩ := pure_eq_ok.1 h
      cases same
      exact (Tells.nil ready).behind _ fun _ stack => by
        simp [Op.tally, Tally.replace, ready.type found]

theorem unary_tells {p : Nat} {op : UnaryOp} {e : Expr} (operand : ExprTells cx e) :
    ExprTells cx (.unary p op e) := by
  intro d d' n ops t ready h
  rw [expr] at h
  simp only [bind_eq_ok, liftCause_eq_ok, pure_eq_ok] at h
  obtain ⟨⟨code, t⟩, d₁, lowered, o, _, ⟨typed, rfl⟩, same, rfl⟩ := h
  cases same
  exact (operand ready lowered).behind [o] fun _ stack => tally_unaryResult typed _

theorem logic_tells {p : Nat} {op : LogicOp} {a b : Expr} (left : ExprTells cx a)
    (right : ExprTells cx b) : ExprTells cx (.binary p (.logic op) a b) := by
  intro d d' n ops t ready h
  rw [expr] at h
  simp only [bind_eq_ok, check_eq_ok, pure_eq_ok] at h
  obtain ⟨⟨codeA, l⟩, d₁, loweredA, -, ⟨codeB, r⟩, d₂, loweredB, bool, same, rfl⟩ := h
  obtain rfl : r = .bool := Decidable.not_not.1 bool
  cases same
  have first := left ready loweredA
  exact first.shortCircuit op (right first.ready loweredB)

theorem binary_tells {p : Nat} {op : BinaryOp} {a b : Expr} (plain : ∀ l, op ≠ .logic l)
    (left : ExprTells cx a) (right : ExprTells cx b) : ExprTells cx (.binary p op a b) := by
  intro d d' n ops t ready h
  obtain ⟨codeA, l, d₁, codeB, r, o, loweredA, loweredB, typed, rfl⟩ := binary_ran plain h
  have first := left ready loweredA
  have promoted : Tells cx d d' n _ [(promote l r).2.2, (promote l r).2.1] :=
    (first.append (right first.ready loweredB)).behind _ fun _ stack => tallies_promote l r n.types
  exact promoted.behind [o] fun _ stack => tally_operator? typed n.types

theorem ternary_tells {p : Nat} {c a b : Expr} (cond : ExprTells cx c) (yes : ExprTells cx a)
    (no : ExprTells cx b) : ExprTells cx (.ternary p c a b) := by
  intro d d' n ops t ready h
  rw [expr] at h
  simp only [bind_eq_ok, check_eq_ok, liftCause_eq_ok, pure_eq_ok] at h
  obtain ⟨⟨codeC, tc⟩, d₁, loweredC, -, ⟨opsA, s⟩, d₂, loweredA, ⟨opsB, t⟩, d₃, loweredB,
    ⟨opsA', opsB', r⟩, _, ⟨joined, rfl⟩, same, rfl⟩ := h
  obtain ⟨-, fitA, fitB, rfl, rfl, fittedA, fittedB⟩ := joinBranches_eq_ok joined
  cases same
  have test := cond ready loweredC
  have first := yes test.ready loweredA
  have second := no first.ready loweredB
  have left : Tells cx d₁ d₂ n _ [r] := first.behind _ fun _ stack => tallies_fit fittedA n.types
  have right : Tells cx d₂ d₃ n _ [r] := second.behind _ fun _ stack => tallies_fit fittedB n.types
  exact test.choose left right

theorem select_tells {p : Nat} {e : Expr} {fields : String} (base : ExprTells cx e) :
    ExprTells cx (.select p e fields) := by
  intro d d' n ops t ready h
  rw [expr] at h
  simp only [bind_eq_ok, check_eq_ok, liftCause_eq_ok, pure_eq_ok] at h
  obtain ⟨⟨code, t⟩, d₁, lowered, -, lanes, _, ⟨read, rfl⟩, same, rfl⟩ := h
  cases same
  exact (base ready lowered).behind [.select lanes] fun _ stack => rfl

theorem assign_tells {p : Nat} {target e : Expr} (value : ExprTells cx e) :
    ExprTells cx (.assign p none target e) := by
  intro d d' n ops t ready h
  rw [expr] at h
  simp only [bind_eq_ok, get_eq_ok, liftCause_eq_ok, liftM_eq_ok, pure_eq_ok] at h
  obtain ⟨_, _, ⟨rfl, rfl⟩, place, _, ⟨goal, rfl⟩, ⟨code, t⟩, d₁, lowered, convert, _,
    ⟨fitted, rfl⟩, same, rfl⟩ := h
  cases same
  have made : Tells cx d d₁ n _ [place.ty] :=
    (value ready lowered).behind _ fun _ stack => tallies_fit fitted n.types
  exact made.behind [.dup, place.write] fun _ stack => tally_write ready goal

theorem combine_tells {p : Nat} {op : ArithOp} {target e : Expr} (value : ExprTells cx e) :
    ExprTells cx (.assign p (some op) target e) := by
  intro d d' n ops t ready h
  rw [expr] at h
  simp only [bind_eq_ok, get_eq_ok, liftCause_eq_ok] at h
  obtain ⟨_, _, ⟨rfl, rfl⟩, place, _, ⟨goal, rfl⟩, ⟨code, t⟩, d₁, lowered, h⟩ := h
  simp only [check_eq_ok, pure_eq_ok] at h
  obtain ⟨typed, same, rfl⟩ := h
  rw [Decidable.not_not] at typed
  cases same
  have read : Tells cx d d n _ [place.ty] :=
    (Tells.nil ready).behind _ fun _ stack => tallies_read ready goal
  have both := read.append (value ready lowered)
  have store {s : Signature} {stack : List Ty} {w : Ty}
      (result : arithResult? place.ty w = some place.ty) :
      Op.tallies s [.arith op, .dup, place.write] ⟨w :: place.ty :: stack, n.types⟩ =
        ⟨place.ty :: stack, n.types⟩ := by
    simp only [Op.tallies_cons, Op.tallies_nil, Op.tally, result]
    exact tally_write ready goal
  split at typed
  next widens =>
    have widened : Tells cx d d₁ n _ [.float, place.ty] :=
      both.behind [.toFloat 0] fun _ stack => rfl
    rw [if_pos widens]
    exact (widened.behind _ fun _ stack => store typed).cast (by simp) rfl
  next widens =>
    rw [if_neg widens]
    exact (both.behind _ fun _ stack => store typed).cast (by simp) rfl

theorem step_tells {p : Nat} {target : Expr} {increment leading : Bool} :
    ExprTells cx (.step p target increment leading) := by
  intro d d' n ops t ready h
  rw [expr] at h
  simp only [bind_eq_ok, get_eq_ok, liftCause_eq_ok, check_eq_ok, pure_eq_ok] at h
  obtain ⟨_, _, ⟨rfl, rfl⟩, ⟨x, lanes⟩, _, ⟨goal, rfl⟩, counter, o, _, made, same, rfl⟩ := h
  rw [not_or, Decidable.not_not] at counter
  obtain ⟨whole, ordered⟩ := counter
  obtain rfl : lanes = none := by simpa using whole
  have one := Constant.one (decide (x.ty = .int))
  simp only [decide_eq_true_eq] at one
  obtain ⟨grows, i, rfl, held⟩ := constant_eq_ok ready.pool one made
  cases same
  refine ⟨ready.grows grows, grows.consts, fun {s} signs stack => ?_⟩
  have changed : s.const i.toNat = x.ty ∧ arithResult? x.ty x.ty = some x.ty := by
    rw [signs.const _ _ held]
    dsimp only at ordered
    generalize x.ty = t at ordered
    cases t <;> first | exact ⟨rfl, rfl⟩ | cases ordered
  have type : n.types[x.slot.toNat]? = some x.ty :=
    (type_place ready goal).trans (congrArg some (Ty.operand_of_isOrdered ordered))
  have store (stack : List Ty) : (Op.store x.slot).tally s ⟨x.ty :: stack, n.types⟩ =
      ⟨stack, n.types⟩ := tally_write ready goal
  have load (stack : List Ty) : (Op.load x.slot).tally s ⟨stack, n.types⟩ =
      ⟨x.ty :: stack, n.types⟩ := by
    simp [Op.tally, Tally.replace, type]
  have change (o : ArithOp) (stack : List Ty) : Op.tallies s [.const i, .arith o]
      ⟨x.ty :: stack, n.types⟩ = ⟨x.ty :: stack, n.types⟩ := by
    simp [Op.tally, Tally.replace, changed.1, changed.2]
  cases leading with
  | true =>
      change Op.tallies s ([.const i, .arith _] ++ [.dup, .store x.slot])
        ((Op.load x.slot).tally s _) = _
      rw [load, Op.tallies_append, change]
      exact store _
  | false =>
      change Op.tallies s ([.const i, .arith _] ++ [.store x.slot])
        (Op.dup.tally s ((Op.load x.slot).tally s _)) = _
      rw [load, Op.tallies_append]
      exact (congrArg _ (change _ _)).trans (store _)

theorem call_tells {p : Nat} {name : String} {es : List Expr}
    (args : ∀ {f : Fit} {d d' : Draft} {n : Naming} {ops : List Op} {types : List Ty}, f.Sound →
      Ready d n → arguments cx f 0 es d = .ok ((ops, types), d') →
      Tells cx d d' n ops types.reverse ∧ types.length = es.length) :
    ExprTells cx (.call p name es) := by
  intro d d' n ops t ready h
  rw [expr] at h
  simp only [bind_eq_ok, liftCause_eq_ok, pure_eq_ok] at h
  obtain ⟨c, _, ⟨meant, rfl⟩, ⟨code, types⟩, d₁, lowered, ⟨o, t⟩, _, ⟨finish, rfl⟩, same, rfl⟩ := h
  cases same
  obtain ⟨first, count⟩ := args (callAt_of_callee meant).1 ready lowered
  exact first.behind [o] fun signs stack => tally_callee meant count finish signs n.types

mutual

theorem expr_tells (cx : Surroundings) (e : Expr) (floats : e.Floats Signless) : ExprTells cx e :=
  match e, floats with
  | .lit .., floats => lit_tells floats
  | .var .., _ => var_tells
  | .unary _ _ e, floats => unary_tells (expr_tells cx e floats)
  | .binary _ (.logic _) a b, floats =>
    logic_tells (expr_tells cx a floats.1) (expr_tells cx b floats.2)
  | .binary _ (.arith _) a b, floats =>
    binary_tells (by simp) (expr_tells cx a floats.1) (expr_tells cx b floats.2)
  | .binary _ (.order _) a b, floats =>
    binary_tells (by simp) (expr_tells cx a floats.1) (expr_tells cx b floats.2)
  | .ternary _ c a b, floats =>
    ternary_tells (expr_tells cx c floats.1) (expr_tells cx a floats.2.1)
      (expr_tells cx b floats.2.2)
  | .call _ _ es, floats => call_tells fun sound => arguments_tell cx es floats sound 0
  | .select _ e _, floats => select_tells (expr_tells cx e floats)
  | .assign _ none _ e, floats => assign_tells (expr_tells cx e floats.2)
  | .assign _ (some _) _ e, floats => combine_tells (expr_tells cx e floats.2)
  | .step .., _ => step_tells

theorem arguments_tell (cx : Surroundings) (es : List Expr)
    (floats : Expr.FloatsList Signless es) {f : Fit} (sound : f.Sound) (i : Nat) {d d' : Draft}
    {n : Naming} {ops : List Op} {types : List Ty} (ready : Ready d n)
    (h : arguments cx f i es d = .ok ((ops, types), d')) :
    Tells cx d d' n ops types.reverse ∧ types.length = es.length :=
  match es, floats with
  | [], _ => by
    rw [arguments] at h
    obtain ⟨same, rfl⟩ := pure_eq_ok.1 h
    cases same
    exact ⟨.nil ready, rfl⟩
  | e :: rest, floats => by
    rw [arguments] at h
    simp only [bind_eq_ok, liftM_eq_ok, pure_eq_ok] at h
    obtain ⟨⟨code, t⟩, d₁, lowered, ⟨convert, w⟩, _, ⟨fitted, rfl⟩, ⟨more, types⟩, d₂, others, same,
      rfl⟩ := h
    cases same
    have first : Tells cx d d₁ n _ [w] :=
      (expr_tells cx e floats.1 ready lowered).behind _ fun _ stack => sound.tallies fitted n.types
    obtain ⟨second, count⟩ := arguments_tell cx rest floats.2 sound (i + 1) first.ready others
    exact ⟨(first.append second).cast rfl (List.reverse_cons ..), by simp [count]⟩

end

/-! ## Statements -/

/-- What a statement adds to the tally: types of the variables that it declares. -/
structure Allots (cx : Surroundings) (d d' : Draft) (n n' : Naming) (c : Chunk) : Prop where
  ready : Ready d' n'
  consts : d.consts.toList <+: d'.consts.toList
  grown : n.declared <+: n'.declared
  tally : ∀ {s : Signature}, Signs s cx.library d'.consts → ∀ stack, ∃ stack',
    Chunk.tally s c ⟨stack, n.types⟩ = ⟨stack', n'.types⟩

theorem Tells.allots (h : Tells cx d d' n ops ts) : Allots cx d d' n n (.ofOps ops) where
  ready := h.ready
  consts := h.consts
  grown := List.prefix_refl _
  tally signs stack := ⟨ts ++ stack, by rw [Chunk.tally_ofOps, h.tally signs]⟩

namespace Allots

variable {c c' : Chunk}

theorem cast (h : Allots cx d d' n n' c) (same : ∀ s x, Chunk.tally s c' x = Chunk.tally s c x) :
    Allots cx d d' n n' c' where
  ready := h.ready
  consts := h.consts
  grown := h.grown
  tally signs stack := by
    rw [same]
    exact h.tally signs stack

theorem append (first : Allots cx d d₁ n n₁ c) (second : Allots cx d₁ d₂ n₁ n₂ c') :
    Allots cx d d₂ n n₂ (c ++ c') where
  ready := second.ready
  consts := first.consts.trans second.consts
  grown := first.grown.trans second.grown
  tally signs stack := by
    obtain ⟨between, firstly⟩ := first.tally (signs.before second.consts) stack
    rw [Chunk.tally_append, firstly]
    exact second.tally signs between

/-- A jump, wherever it leads. -/
theorem jump (ready : Ready d n) : Allots cx d d n n [.op (.jump 0)] where
  ready := ready
  consts := List.prefix_refl _
  grown := List.prefix_refl _
  tally _ stack := ⟨stack.tail, rfl⟩

theorem leave (ready : Ready d n)
    (h : Allots cx { d with scopes := ∅ :: d.scopes } d₁ n.enter n' c) :
    Allots cx d { d₁ with scopes := d.scopes } n { n' with scopes := n.scopes } c where
  ready := ready.leave (r := ([], n')) h.ready h.grown
  consts := h.consts
  grown := h.grown
  tally := h.tally

theorem declare {pos : Nat} {name : String} {ty : Ty} {isConst : Bool} {slot : UInt16}
    (value : Tells cx d d₁ n ops [ty.operand])
    (h : Lower.declare pos name ty isConst d₁ = .ok (slot, d')) :
    Allots cx d d' n (n.declare name ty isConst) (.ofOps (ops ++ [.store slot])) := by
  obtain ⟨place, consts, ready⟩ := value.ready.declare h
  refine ⟨ready, consts ▸ value.consts, List.prefix_append .., fun signs stack => ⟨stack, ?_⟩⟩
  rw [consts] at signs
  have next : slot.toNat = n.types.length := by rw [place, Naming.types, List.length_map]
  rw [Chunk.tally_ofOps, Op.tallies_append, value.tally signs]
  simp [Op.tally, Tally.store, next]

end Allots

theorem condition_allots {e : Expr} (floats : e.Floats Signless) (ready : Ready d n)
    (h : condition cx e d = .ok (ops, d')) : Allots cx d d' n n (.ofOps ops) := by
  unfold condition at h
  simp only [bind_eq_ok, check_eq_ok, pure_eq_ok] at h
  obtain ⟨⟨code, t⟩, _, lowered, -, rfl, rfl⟩ := h
  exact (expr_tells cx e floats ready lowered).allots

theorem effect_allots {e : Expr} (floats : e.Floats Signless) (ready : Ready d n)
    (h : effect cx e d = .ok (ops, d')) : Allots cx d d' n n (.ofOps ops) := by
  unfold effect at h
  simp only [bind_eq_ok, pure_eq_ok] at h
  obtain ⟨⟨code, t⟩, d₁, lowered, rfl, rfl⟩ := h
  have value := expr_tells cx e floats ready lowered
  dsimp only
  split
  · exact value.allots
  · have dropped : Tells cx d d₁ n _ [] := value.behind [.pop] fun _ stack => rfl
    exact dropped.allots

theorem declarator_allots {ty : Ty} {isConst : Bool} {v : Declarator}
    (value : ty ≠ .void) (storable : ty ≠ .sampler) (floats : Expr.FloatsOption Signless v.init)
    (ready : Ready d n) (h : declarator cx ty isConst v d = .ok (ops, d')) :
    Allots cx d d' n (n.declare v.name ty isConst) (.ofOps ops) := by
  unfold declarator at h
  cases given : v.init with
  | none =>
      rw [given] at h
      simp only [check_eq_ok, bind_eq_ok, pure_eq_ok] at h
      obtain ⟨-, o, d₁, made, _, _, ⟨rfl, rfl⟩, _, _, declared, rfl, rfl⟩ := h
      have zero : Tells cx d d₁ n [o] [ty.operand] :=
        (Tells.constant ready (.zero value storable) made).cast rfl
          (by rw [Value.zero_ty value])
      exact .declare zero declared
  | some e =>
      rw [given] at h floats
      simp only [bind_eq_ok, liftM_eq_ok, pure_eq_ok] at h
      obtain ⟨⟨code, t⟩, d₁, evaluated, convert, _, ⟨fitted, rfl⟩, _, _, ⟨rfl, rfl⟩, _, _, declared,
        rfl, rfl⟩ := h
      have first := expr_tells cx e floats ready evaluated
      exact .declare (first.behind convert fun _ stack => tallies_fit fitted n.types) declared

theorem declarators_allot {ty : Ty} {isConst : Bool} {vars : List Declarator}
    (value : ty ≠ .void) (storable : ty ≠ .sampler)
    (floats : ∀ v ∈ vars, Expr.FloatsOption Signless v.init) (ready : Ready d n)
    (h : declarators cx ty isConst vars d = .ok (ops, d')) :
    ∃ n', Allots cx d d' n n' (.ofOps ops) := by
  induction vars generalizing d n ops with
  | nil =>
      obtain ⟨rfl, rfl⟩ := pure_eq_ok.1 h
      exact ⟨n, (Tells.nil ready).allots⟩
  | cons v rest ih =>
      rw [List.forall_mem_cons] at floats
      unfold declarators at h
      simp only [bind_eq_ok, pure_eq_ok] at h
      obtain ⟨head, d₁, lowered, more, _, others, rfl, rfl⟩ := h
      have first := declarator_allots value storable floats.1 ready lowered
      obtain ⟨n', second⟩ := ih floats.2 first.ready others
      exact ⟨n', (first.append second).cast fun s x => by simp⟩

theorem returned_allots {pos : Nat} {value : Option Expr}
    (floats : Expr.FloatsOption Signless value) (ready : Ready d n)
    (h : returned cx pos value d = .ok (ops, d')) : Allots cx d d' n n (.ofOps ops) := by
  cases value with
  | none =>
      simp only [returned, check_eq_ok, pure_eq_ok] at h
      obtain ⟨-, rfl, rfl⟩ := h
      exact (Tells.nil ready).allots.cast fun s x => by simp [Op.tally]
  | some e =>
      simp only [returned, bind_eq_ok, check_eq_ok, liftM_eq_ok, pure_eq_ok] at h
      obtain ⟨-, ⟨code, t⟩, d₁, lowered, convert, _, ⟨fitted, rfl⟩, rfl, rfl⟩ := h
      have fitted : Tells cx d d₁ n _ [cx.ret.operand] :=
        (expr_tells cx e floats ready lowered).behind _ fun _ stack => tallies_fit fitted n.types
      have left : Tells cx d d₁ n _ [] := fitted.behind [.ret] fun _ stack => rfl
      exact left.allots

/-- The code of a statement tells the types of what it declares. -/
abbrev StmtAllots (cx : Surroundings) (s : Stmt) : Prop :=
  ∀ {inLoop : Bool} {d d' : Draft} {n : Naming} {chunk : Chunk}, Ready d n →
    stmt cx inLoop s d = .ok (chunk, d') → ∃ n', Allots cx d d' n n' chunk

abbrev StmtsAllot (cx : Surroundings) (ss : List Stmt) : Prop :=
  ∀ {inLoop : Bool} {d d' : Draft} {n : Naming} {chunk : Chunk}, Ready d n →
    stmts cx inLoop ss d = .ok (chunk, d') → ∃ n', Allots cx d d' n n' chunk

/-- A statement in a scope of its own. -/
theorem enclosed_allots {s : Stmt} {inLoop : Bool} {chunk : Chunk} (body : StmtAllots cx s)
    (ready : Ready d n) (h : enclosed (stmt cx inLoop s) d = .ok (chunk, d')) :
    ∃ n', Allots cx d d' n n' chunk := by
  obtain ⟨d₁, lowered, rfl⟩ := enclosed_eq_ok h
  obtain ⟨n', inner⟩ := body ready.enter lowered
  exact ⟨_, inner.leave ready⟩

theorem block_allots {ss : List Stmt} (body : StmtsAllot cx ss) : StmtAllots cx (.block ss) := by
  intro inLoop d d' n chunk ready h
  rw [stmt] at h
  obtain ⟨d₁, lowered, rfl⟩ := enclosed_eq_ok h
  obtain ⟨n', inner⟩ := body ready.enter lowered
  exact ⟨_, inner.leave ready⟩

theorem exprStmt_allots {e : Expr} (floats : e.Floats Signless) : StmtAllots cx (.expr e) := by
  intro inLoop d d' n chunk ready h
  rw [stmt] at h
  simp only [bind_eq_ok, pure_eq_ok] at h
  obtain ⟨ops, _, lowered, rfl, rfl⟩ := h
  exact ⟨n, effect_allots floats ready lowered⟩

theorem decl_allots {p : Nat} {ty : Ty} {isConst : Bool} {vars : List Declarator}
    (floats : ∀ v ∈ vars, Expr.FloatsOption Signless v.init) :
    StmtAllots cx (.decl p ty isConst vars) := by
  intro inLoop d d' n chunk ready h
  rw [stmt] at h
  simp only [check_eq_ok, bind_eq_ok, pure_eq_ok] at h
  obtain ⟨value, storable, ops, _, lowered, rfl, rfl⟩ := h
  exact declarators_allot value storable floats ready lowered

theorem ifThen_allots {c : Expr} {a : Stmt} (floats : c.Floats Signless)
    (yes : StmtAllots cx a) : StmtAllots cx (.ifThen c a) := by
  intro inLoop d d' n chunk ready h
  rw [stmt] at h
  simp only [bind_eq_ok, pure_eq_ok] at h
  obtain ⟨ops, d₁, lowered, part, _, loweredA, rfl, rfl⟩ := h
  have test := condition_allots floats ready lowered
  obtain ⟨n', first⟩ := enclosed_allots yes test.ready loweredA
  refine ⟨n', ((test.append (.jump test.ready)).append first).cast fun s x => ?_⟩
  simp [Chunk.ifThen, Step.tally, Op.tally]

theorem ifElse_allots {c : Expr} {a b : Stmt} (floats : c.Floats Signless)
    (yes : StmtAllots cx a) (no : StmtAllots cx b) : StmtAllots cx (.ifElse c a b) := by
  intro inLoop d d' n chunk ready h
  rw [stmt] at h
  simp only [bind_eq_ok, pure_eq_ok] at h
  obtain ⟨ops, d₁, lowered, partA, d₂, loweredA, partB, _, loweredB, rfl, rfl⟩ := h
  have test := condition_allots floats ready lowered
  obtain ⟨n₁, first⟩ := enclosed_allots yes test.ready loweredA
  obtain ⟨n', second⟩ := enclosed_allots no first.ready loweredB
  have left := ((test.append (.jump test.ready)).append first).append (.jump first.ready)
  refine ⟨n', (left.append second).cast fun s x => ?_⟩
  simp [Chunk.ifElse, Step.tally, Op.tally]

theorem whileLoop_allots {c : Expr} {s : Stmt} (floats : c.Floats Signless)
    (body : StmtAllots cx s) : StmtAllots cx (.whileLoop c s) := by
  intro inLoop d d' n chunk ready h
  rw [stmt] at h
  simp only [bind_eq_ok, pure_eq_ok] at h
  obtain ⟨ops, d₁, lowered, part, _, loweredS, rfl, rfl⟩ := h
  have test := condition_allots floats ready lowered
  obtain ⟨n', inner⟩ := enclosed_allots body test.ready loweredS
  have loop := ((test.append (.jump test.ready)).append inner).append (.jump inner.ready)
  refine ⟨n', loop.cast fun s x => ?_⟩
  simp [Chunk.testFirst, Chunk.closeLoop, Step.tally, Op.tally]

theorem doWhile_allots {c : Expr} {s : Stmt} (floats : c.Floats Signless)
    (body : StmtAllots cx s) : StmtAllots cx (.doWhile s c) := by
  intro inLoop d d' n chunk ready h
  rw [stmt] at h
  simp only [bind_eq_ok, pure_eq_ok] at h
  obtain ⟨part, d₁, loweredS, ops, _, lowered, rfl, rfl⟩ := h
  obtain ⟨n', inner⟩ := enclosed_allots body ready loweredS
  have test := condition_allots floats inner.ready lowered
  refine ⟨n', ((inner.append test).append (.jump test.ready)).cast fun s x => ?_⟩
  simp [Chunk.testLast, Chunk.closeLoop, Step.tally, Op.tally]

theorem forLoop_allots {i s : Stmt} {c next : Option Expr} (init : StmtAllots cx i)
    (floatsC : Expr.FloatsOption Signless c) (floatsN : Expr.FloatsOption Signless next)
    (body : StmtAllots cx s) : StmtAllots cx (.forLoop i c next s) := by
  intro inLoop d d' n chunk ready h
  rw [stmt] at h
  obtain ⟨d₄, ran, rfl⟩ := enclosed_eq_ok h
  simp only [bind_eq_ok, pure_eq_ok] at ran
  obtain ⟨start, d₁, loweredI, test, d₂, loweredC, part, d₃, loweredS, step, d₅, loweredN, rfl,
    rfl⟩ := ran
  obtain ⟨n₁, first⟩ := init ready.enter loweredI
  -- The test of the loop, which may be left out with its jump.
  have tested : Allots cx d₁ d₂ n₁ n₁
      (test.elim [] fun ops => Chunk.ofOps ops ++ [.op (.jump 0)]) := by
    rcases clause_eq_ok loweredC with ⟨rfl, rfl, rfl⟩ | ⟨e, ops, rfl, rfl, lowered⟩
    · exact (Tells.nil first.ready).allots
    · have test := condition_allots floatsC first.ready lowered
      exact test.append (.jump test.ready)
  obtain ⟨n₂, inner⟩ := enclosed_allots body tested.ready loweredS
  have stepped : Allots cx d₃ d₅ n₂ n₂ (.ofOps (step.getD [])) := by
    rcases clause_eq_ok loweredN with ⟨rfl, rfl, rfl⟩ | ⟨e, ops, rfl, rfl, lowered⟩
    · exact (Tells.nil inner.ready).allots
    · exact effect_allots floatsN inner.ready lowered
  have loop := ((first.append tested).append inner).append stepped
  refine ⟨_, Allots.leave ready ((loop.append (.jump stepped.ready)).cast fun s x => ?_)⟩
  cases test <;> simp [Chunk.testFirst, Chunk.closeLoop, Step.tally, Op.tally]

theorem empty_allots : StmtAllots cx .empty := by
  intro inLoop d d' n chunk ready h
  rw [stmt] at h
  obtain ⟨rfl, rfl⟩ := pure_eq_ok.1 h
  exact ⟨n, (Tells.nil ready).allots⟩

/-- Statements that leave a loop or go on with it. -/
theorem jumpOut_allots {s : Stmt} (out : (∃ p, s = .breakLoop p) ∨ ∃ p, s = .continueLoop p) :
    StmtAllots cx s := by
  intro inLoop d d' n chunk ready h
  rcases out with ⟨p, rfl⟩ | ⟨p, rfl⟩
  all_goals
    rw [stmt] at h
    simp only [check_eq_ok, pure_eq_ok] at h
    obtain ⟨-, rfl, rfl⟩ := h
    exact ⟨n, (Allots.jump ready).cast fun s x => rfl⟩

theorem ret_allots {p : Nat} {value : Option Expr} (floats : Expr.FloatsOption Signless value) :
    StmtAllots cx (.ret p value) := by
  intro inLoop d d' n chunk ready h
  rw [stmt] at h
  simp only [bind_eq_ok, pure_eq_ok] at h
  obtain ⟨ops, _, lowered, rfl, rfl⟩ := h
  exact ⟨n, returned_allots floats ready lowered⟩

theorem nil_allot : StmtsAllot cx [] := by
  intro inLoop d d' n chunk ready h
  rw [stmts] at h
  obtain ⟨rfl, rfl⟩ := pure_eq_ok.1 h
  exact ⟨n, (Tells.nil ready).allots⟩

theorem cons_allot {s : Stmt} {rest : List Stmt} (head : StmtAllots cx s)
    (tail : StmtsAllot cx rest) : StmtsAllot cx (s :: rest) := by
  intro inLoop d d' n chunk ready h
  rw [stmts] at h
  simp only [bind_eq_ok, pure_eq_ok] at h
  obtain ⟨start, d₁, lowered, more, _, others, rfl, rfl⟩ := h
  obtain ⟨n₁, first⟩ := head ready lowered
  obtain ⟨n', second⟩ := tail first.ready others
  exact ⟨n', first.append second⟩

mutual

theorem stmt_allots (cx : Surroundings) (s : Stmt) (floats : s.Floats Signless) :
    StmtAllots cx s :=
  match s, floats with
  | .empty, _ => empty_allots
  | .expr _, floats => exprStmt_allots floats
  | .block ss, floats => block_allots (stmts_allot cx ss floats)
  | .decl .., floats => decl_allots floats
  | .ifThen _ a, floats => ifThen_allots floats.1 (stmt_allots cx a floats.2)
  | .ifElse _ a b, floats =>
    ifElse_allots floats.1 (stmt_allots cx a floats.2.1) (stmt_allots cx b floats.2.2)
  | .forLoop i _ _ s, floats =>
    forLoop_allots (stmt_allots cx i floats.1) floats.2.1 floats.2.2.1
      (stmt_allots cx s floats.2.2.2)
  | .whileLoop _ s, floats => whileLoop_allots floats.1 (stmt_allots cx s floats.2)
  | .doWhile s _, floats => doWhile_allots floats.1 (stmt_allots cx s floats.2)
  | .breakLoop p, _ => jumpOut_allots (.inl ⟨p, rfl⟩)
  | .continueLoop p, _ => jumpOut_allots (.inr ⟨p, rfl⟩)
  | .ret .., floats => ret_allots floats

theorem stmts_allot (cx : Surroundings) (ss : List Stmt) (floats : Stmt.FloatsList Signless ss) :
    StmtsAllot cx ss :=
  match ss, floats with
  | [], _ => nil_allot
  | s :: rest, floats => cons_allot (stmt_allots cx s floats.1) (stmts_allot cx rest floats.2)

end

end Lower

/-! ## Functions and programs -/

/-- The code of the function tells the types of its variables, starting from its parameters. -/
def Function.Tallied (s : Signature) (f : Function) : Prop :=
  (Op.tallies s f.code.toList ⟨[], f.params.map Ty.operand⟩).slots =
    f.locals.toList.map Ty.operand

def Program.signature (p : Program) : Signature where
  const i := (p.consts[i]?).elim .void Value.ty
  result i := (p.functions[i]?).elim .void (·.ret.operand)

namespace Lower

variable {s : Signature} {lib lib' : Library} {consts consts' : Array Value}

theorem types_parameters (params : List Param) (n : Naming) :
    (params.foldl (fun n p => n.declare p.name p.ty false) n).types =
      n.types ++ params.map (·.ty.operand) := by
  induction params generalizing n with
  | nil => simp
  | cons p rest ih => simp [ih]

theorem function_tallied {f : FunctionDef} {g : Function} (pool : Pool consts)
    (floats : Stmt.FloatsList Signless f.body) (h : function lib consts f = .ok (g, consts'))
    (signs : Signs s lib consts') : g.Tallied s := by
  obtain ⟨-, d, chunk, d', taken, body, rfl, rfl⟩ := function_ran h
  obtain ⟨-, ready⟩ := parameters_ready (.start pool) taken
  obtain ⟨-, closed, -⟩ :=
    stmts_lower _ f.body floats (parameters_eq_ok (.start pool) taken).1.sound body
  obtain ⟨n', made⟩ := stmts_allot _ f.body floats ready body
  obtain ⟨stack, told⟩ := made.tally signs []
  rw [types_parameters, ← (closed rfl).tallies_ops] at told
  -- The last instruction, which ends the function, stores nothing.
  have last (x : Tally) :
      (if f.ret = .void then Op.retVoid else .missingReturn).tally s x = x := by
    split <;> rfl
  have types : f.params.map (·.ty.operand) = (f.params.map (·.ty)).map Ty.operand := by
    rw [List.map_map]
    rfl
  unfold Function.Tallied
  rw [Op.tallies_append, ← types]
  refine (congrArg (fun x => (Op.tallies s _ x).slots) told).trans ?_
  rw [Op.tallies_cons, Op.tallies_nil, last, Naming.types, made.ready.locals, List.map_map]
  rfl

theorem Signs.of_add {g : Function} (h : Signs s (lib.add g) consts) : Signs s lib consts where
  const := h.const
  result i f there := by
    refine h.result i f ?_
    rw [Library.add, Array.getElem?_push_lt (Array.getElem?_eq_some_iff.1 there).1]
    exact congrArg some (Array.getElem?_eq_some_iff.1 there).2

/-- What signs the functions and constants at the end has signed them all the time. -/
theorem functionsFrom_tallied {fs : List FunctionDef} (pool : Pool consts)
    (floats : ∀ f ∈ fs, Stmt.FloatsList Signless f.body)
    (h : functionsFrom lib consts fs = .ok (lib', consts')) (signs : Signs s lib' consts') :
    Signs s lib consts ∧
      ((∀ g ∈ lib.functions, g.Tallied s) → ∀ g ∈ lib'.functions, g.Tallied s) := by
  induction fs generalizing lib consts with
  | nil =>
      cases h
      exact ⟨signs, id⟩
  | cons f rest ih =>
      rw [List.forall_mem_cons] at floats
      unfold functionsFrom at h
      cases made : function lib consts f with
      | error => rw [made] at h; cases h
      | ok r =>
          obtain ⟨g, consts₁⟩ := r
          rw [made] at h
          have ok := function_eq_ok pool floats.1 made
          obtain ⟨signs₁, later⟩ := ih ok.pool floats.2 h
          have own := function_tallied pool floats.1 made signs₁.of_add
          refine ⟨signs₁.of_add.before ok.consts, fun before => later fun g' there => ?_⟩
          rcases Array.mem_push.1 there with old | rfl
          · exact before g' old
          · exact own

end Lower

/-- As long as calls can tell the functions apart, a program has a signature. -/
theorem signs_signature {lib : Library} {p : Program} (functions : p.functions = lib.functions)
    (few : p.functions.size ≤ 65536) : Lower.Signs p.signature lib p.consts where
  const i v there := by simp [Program.signature, there]
  result i f there := by
    have inside : i < p.functions.size := functions ▸ (Array.getElem?_eq_some_iff.1 there).1
    have own : (UInt16.ofNat i).toNat = i :=
      UInt16.toNat_ofNat_of_lt' (Nat.lt_of_lt_of_le inside few)
    rw [← functions] at there
    simp [Program.signature, own, there]

/-- If calls can tell the functions of a program apart, its code tells the types of all
    variables. -/
theorem tallied_of_compile {source : String} {p : Program} (h : compile source = .ok p)
    (few : p.functions.size ≤ 65536) : ∀ f ∈ p.functions, f.Tallied p.signature := by
  obtain ⟨module, parsed, lowered⟩ := lowerModule_of_compile h
  obtain ⟨k, target, lib, consts, -, made, rfl⟩ := lowerModule_eq_ok lowered
  exact (Lower.functionsFrom_tallied .empty (floats_parseModule parsed) made
    (signs_signature rfl few)).2 (by simp [Library.empty])

end PixelKernel.Language
