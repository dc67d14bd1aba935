import PixelKernel.Proofs.Code.Draft
import PixelKernel.Proofs.Code.Places
import PixelKernel.Proofs.Syntax.Literals

/-! # Code of expressions

Lowering an expression yields code that, wherever it is placed, stands for the expression.
-/

namespace PixelKernel.Language

open Unsigned

/-- Floats that literals have: there is no NaN and no sign. -/
abbrev Signless (x : Float) : Prop := Plain x.toModel.unpack

/-- A site whose function was lowered through the given draft. -/
structure Site.Serves (site : Site) (cx : Surroundings) (d : Draft) : Prop where
  short : site.code.size < 2 ^ 31
  consts : d.consts.toList <+: site.consts.toList
  slots : d.locals.size ≤ site.slots
  ret : site.ret = cx.ret
  functions : ∀ name i g, cx.library.find? name = some (i, g) → i < 65536 ∧ ∃ f,
    site.module.find? (·.name == name) = some f ∧ site.module[i]? = some f ∧
      g.params = f.params.map (·.ty) ∧ g.ret = f.ret
  /-- No function has the name of a builtin or a type. -/
  unnamed : ∀ name, Builtin.named name ≠ [] ∨ (Ty.ofName? name).isSome →
    site.module.find? (·.name == name) = none

variable {cx : Surroundings} {site : Site} {d d' d₁ : Draft} {pc pc' : Nat}

theorem Site.Serves.before (h : site.Serves cx d') (grown : Lower.Grows d d') :
    site.Serves cx d :=
  { h with
    consts := grown.consts.trans h.consts
    slots := grown.locals ▸ h.slots }

namespace Lower

attribute [simp] expr arguments

/-! ## Conversions -/

theorem fits_of_fit {what : String} {pos : Nat} {t w : Ty} {ops : List Op}
    (h : fit what pos t w = .ok ops) : Fits t w := by
  unfold fit at h
  split at h
  next same => exact .inl same
  next => split at h
          next widens => exact .inr widens
          next => cases h

theorem fitAt_of_fit {what : String} {pos : Nat} {t w : Ty} {ops : List Op}
    (h : fit what pos t w = .ok ops) (code : OpsAt site.code pc ops pc') :
    FitAt site.code pc t w pc' := by
  unfold fit at h
  split at h
  next same =>
    cases h
    cases code
    exact same ▸ .same
  next =>
    split at h
    next widens =>
      cases h
      obtain ⟨op, rest⟩ := Placed.cons_iff.1 code
      cases rest
      exact widens.2 ▸ .float (.inl widens.1) op
    next => cases h

/-! ## Calls -/

/-- What a rule for arguments does to a value is nothing or a conversion to float. -/
def Fit.Sound (f : Fit) : Prop := ∀ i pos t ops w, f i pos t = .ok (ops, w) →
  (ops = [] ∧ w = t) ∨ (ops = [.toFloat 0] ∧ w = .float ∧ (t = .int ∨ t = .bool))

theorem Fit.Sound.fitAt {f : Fit} (sound : f.Sound) {i pos : Nat} {t w : Ty} {ops : List Op}
    (h : f i pos t = .ok (ops, w)) (code : OpsAt site.code pc ops pc') :
    FitAt site.code pc t w pc' := by
  rcases sound i pos t ops w h with ⟨rfl, rfl⟩ | ⟨rfl, rfl, number⟩
  · cases code
    exact .same
  · obtain ⟨op, rest⟩ := Placed.cons_iff.1 code
    cases rest
    exact .float number op

/-- Types of arguments before and after a rule was applied to them. -/
inductive Fitted (f : Fit) : Nat → List Ty → List Ty → Prop where
  | nil {i} : Fitted f i [] []
  | cons {i pos t ts w ws ops} (head : f i pos t = .ok (ops, w)) (tail : Fitted f (i + 1) ts ws) :
      Fitted f i (t :: ts) (w :: ws)

namespace Fitted

variable {f : Fit} {i : Nat} {ts ws : List Ty}

theorem length (h : Fitted f i ts ws) : ws.length = ts.length := by
  induction h with
  | nil => rfl
  | cons _ _ ih => rw [List.length_cons, ih, List.length_cons]

theorem forall₂ {R : Ty → Ty → Prop} (h : Fitted f i ts ws)
    (imp : ∀ i pos t ops w, f i pos t = .ok (ops, w) → R t w) : List.Forall₂ R ts ws := by
  induction h with
  | nil => exact .nil
  | cons head _ ih => exact .cons (imp _ _ _ _ _ head) ih

theorem map {g : Ty → Ty} (h : Fitted f i ts ws)
    (imp : ∀ i pos t ops w, f i pos t = .ok (ops, w) → w = g t) : ws = ts.map g := by
  induction h with
  | nil => rfl
  | cons head _ ih => rw [List.map_cons, ← ih, imp _ _ _ _ _ head]

theorem params {params : List Ty} (h : Fitted (fitParams params) i ts ws)
    (count : i + ts.length = params.length) :
    ws = (params.drop i).map Ty.operand ∧ List.Forall₂ Fits ts ws := by
  induction ts generalizing i ws with
  | nil =>
      cases h
      rw [List.drop_of_length_le (by simp at count; omega)]
      exact ⟨rfl, .nil⟩
  | cons t ts ih =>
      rw [List.length_cons] at count
      cases h with
      | cons head tail =>
          obtain ⟨same, fits⟩ := ih tail (by omega)
          have inside : i < params.length := by omega
          simp only [fitParams, List.getElem?_eq_getElem inside, Option.getD_some] at head
          cases fitted : fit "argument" _ t params[i].operand with
          | error => rw [fitted] at head; cases head
          | ok ops =>
              rw [fitted] at head
              cases head
              rw [List.drop_eq_getElem_cons inside, List.map_cons, same]
              exact ⟨rfl, .cons (fits_of_fit fitted) (same ▸ fits)⟩

end Fitted

theorem sound_fitParams (params : List Ty) : (fitParams params).Sound := by
  intro i pos t ops w h
  unfold fitParams at h
  dsimp only at h
  cases fitted : fit "argument" pos t ((params[i]?).getD .void).operand with
  | error => rw [fitted] at h; cases h
  | ok ops' =>
      rw [fitted] at h
      cases h
      unfold fit at fitted
      split at fitted
      next same => cases fitted; exact .inl ⟨rfl, same.symm⟩
      next =>
        split at fitted
        next widens => cases fitted; exact .inr ⟨rfl, widens.2, .inl widens.1⟩
        next => cases fitted

theorem fitConversion_eq_ok {callee : String} {call i pos : Nat} {t w : Ty} {ops : List Op}
    (h : fitConversion callee call i pos t = .ok (ops, w)) :
    ops = [] ∧ w = t ∧ (t = .int ∨ t = .float ∨ t = .bool) := by
  unfold fitConversion at h
  split at h
  · cases h; exact ⟨rfl, rfl, .inl rfl⟩
  · cases h; exact ⟨rfl, rfl, .inr (.inl rfl)⟩
  · cases h; exact ⟨rfl, rfl, .inr (.inr rfl)⟩
  · cases h

theorem fitParts_eq_ok {callee : String} {i pos : Nat} {t w : Ty} {ops : List Op}
    (h : fitParts callee i pos t = .ok (ops, w)) :
    (ops = [] ∧ w = t ∧ t.lanes?.isSome) ∨
      (ops = [.toFloat 0] ∧ w = .float ∧ (t = .int ∨ t = .bool)) := by
  unfold fitParts at h
  split at h
  · cases h; simp
  · cases h; simp
  · split at h
    next lanes => cases h; exact .inl ⟨rfl, rfl, lanes⟩
    next => cases h

theorem fitBuiltin_eq_ok {i pos : Nat} {t w : Ty} {ops : List Op}
    (h : fitBuiltin i pos t = .ok (ops, w)) :
    w = (if t = .int then .float else t) ∧ ops = if t = .int then [.toFloat 0] else [] := by
  unfold fitBuiltin at h
  split at h
  next int => cases h; simp [int]
  next int => cases h; simp [int]

theorem ofName?_of_conversion? {name : String} {r : Op × Ty} (h : conversion? name = some r) :
    (Ty.ofName? name).isSome := by
  unfold conversion? at h
  split at h <;> first | rfl | cases h

theorem ofName?_of_vectorWidth? {name : String} {n : Nat} (h : vectorWidth? name = some n) :
    (Ty.ofName? name).isSome := by
  unfold vectorWidth? at h
  split at h <;> first | rfl | cases h

theorem sound_fitConversion (callee : String) (call : Nat) : (fitConversion callee call).Sound :=
  fun _ _ _ _ _ h =>
    have ⟨none_, same, _⟩ := fitConversion_eq_ok h
    .inl ⟨none_, same⟩

theorem sound_fitParts (callee : String) : (fitParts callee).Sound :=
  fun i _ _ _ _ h => (@fitParts_eq_ok callee i _ _ _ _ h).imp (fun g => ⟨g.1, g.2.1⟩) id

theorem sound_fitBuiltin : fitBuiltin.Sound := by
  intro i pos t ops w h
  obtain ⟨rfl, rfl⟩ := @fitBuiltin_eq_ok i pos _ _ _ h
  split
  next int => exact .inr ⟨rfl, rfl, .inl int⟩
  next => exact .inl ⟨rfl, rfl⟩

section

variable {name : String} {found wanted : List Ty} {o : Op} {t : Ty} (serves : site.Serves cx d)
include serves

theorem callAt_function {i : Nat} {g : Function} (there : cx.library.find? name = some (i, g))
    (fitted : Fitted (fitParams g.params) 0 found wanted) (count : found.length = g.params.length)
    (few : g.params.length < 256)
    (op : site.code[pc]? = some (.call (.ofNat i) (.ofNat found.length))) :
    CallAt site pc name found wanted g.ret.operand := by
  obtain ⟨index, f, named, at_, params, ret⟩ := serves.functions name i g there
  obtain ⟨rfl, fits⟩ := fitted.params (by omega)
  rw [List.drop_zero, params, List.map_map] at fits ⊢
  rw [count, params, List.length_map] at op
  rw [params, List.length_map] at few
  rw [ret]
  exact .function named at_ index few fits op

theorem callAt_conversion {pos : Nat} (named : conversion? name = some (o, t))
    (fitted : Fitted (fitConversion name pos) 0 found wanted) (count : found.length = 1)
    (op : site.code[pc]? = some o) : CallAt site pc name found wanted t := by
  obtain ⟨a, rfl⟩ := List.length_eq_one_iff.1 count
  cases fitted with
  | cons head tail =>
      cases tail
      obtain ⟨-, rfl, scalar⟩ := fitConversion_eq_ok head
      have unnamed := serves.unnamed name (.inr (ofName?_of_conversion? named))
      exact .conversion unnamed named scalar op

theorem callAt_vector {width : Nat} (notConversion : conversion? name = none) (named : vectorWidth? name = some width)
    (fitted : Fitted (fitParts name) 0 found wanted) (few : found.length < 256)
    (finish : finishVector name width wanted = .ok (o, t)) (op : site.code[pc]? = some o) :
    CallAt site pc name found wanted t := by
  have unnamed := serves.unnamed name (.inr (ofName?_of_vectorWidth? named))
  refine .vector unnamed notConversion named (by rw [fitted.length]; exact few) ?_ finish op
  refine fitted.forall₂ fun i pos t ops w h => ?_
  rcases fitParts_eq_ok h with ⟨-, rfl, lanes⟩ | ⟨-, rfl, number⟩
  · exact .inl ⟨rfl, lanes⟩
  · exact .inr ⟨number, rfl⟩

theorem callAt_builtin (notConversion : conversion? name = none) (notVector : vectorWidth? name = none)
    (named : (Builtin.named name).isEmpty = false) (fitted : Fitted fitBuiltin 0 found wanted)
    (few : found.length < 256) (finish : finishBuiltin cx.kernel name wanted = .ok (o, t))
    (op : site.code[pc]? = some o) : CallAt site pc name found wanted t := by
  have unnamed := serves.unnamed name (.inl (by simpa using named))
  have widened : wanted = found.map fun t => if t = .int then .float else t :=
    fitted.map fun i pos t ops w h => (fitBuiltin_eq_ok h).1
  unfold finishBuiltin at finish
  split at finish
  · cases finish
  next b t' resolved =>
    split at finish
    · cases finish
    next =>
      cases finish
      have len : wanted.length = found.length := by rw [widened, List.length_map]
      rw [len] at op
      subst widened
      exact .builtin unnamed notConversion notVector few resolved op

end

/-- What a call means is settled before its arguments are looked at. -/
theorem callAt_of_callee {pos argc : Nat} {name : String} {c : Callee}
    (h : callee cx pos name argc = .ok c) : c.fit.Sound ∧
      ∀ {site : Site} {d : Draft} {pc : Nat} {found wanted : List Ty} {o : Op} {t : Ty},
        site.Serves cx d → Fitted c.fit 0 found wanted → found.length = argc →
        c.finish wanted = .ok (o, t) → site.code[pc]? = some o →
        CallAt site pc name found wanted t := by
  unfold callee at h
  split at h
  · cases h
  next few =>
  split at h
  next i g there =>
    split at h
    · cases h
    next count =>
      cases h
      refine ⟨sound_fitParams _, fun serves fitted len finish op => ?_⟩
      cases finish
      exact callAt_function serves there fitted (by omega) (by omega) (len ▸ op)
  next =>
  split at h
  next r conversion =>
    split at h
    · cases h
    next one =>
      cases h
      refine ⟨sound_fitConversion _ _, fun serves fitted len finish op => ?_⟩
      cases finish
      exact callAt_conversion serves conversion fitted (by omega) op
  next notConversion =>
  split at h
  next width vector =>
    cases h
    exact ⟨sound_fitParts _, fun serves fitted len finish op =>
      callAt_vector serves notConversion vector fitted (by omega) finish op⟩
  next notVector =>
    split at h
    · cases h
    next builtin =>
      cases h
      exact ⟨sound_fitBuiltin, fun serves fitted len finish op =>
        callAt_builtin serves notConversion notVector (by simpa using builtin) fitted
          (by omega) finish op⟩

/-! ## Expressions -/

/-- What lowering an expression achieves. -/
structure ExprOk (cx : Surroundings) (d d' : Draft) (e : Expr) (ops : List Op) (t : Ty) :
    Prop where
  grows : Grows d d'
  placed : ∀ {site : Site} {pc pc' : Nat}, site.Serves cx d' → OpsAt site.code pc ops pc' →
    ExprAt site d.scopes pc e t pc'

structure ArgsOk (cx : Surroundings) (d d' : Draft) (f : Fit) (i : Nat) (es : List Expr)
    (found : List Ty) (ops : List Op) (wanted : List Ty) : Prop where
  grows : Grows d d'
  fitted : Fitted f i found wanted
  count : found.length = es.length
  placed : ∀ {site : Site} {pc pc' : Nat}, site.Serves cx d' → OpsAt site.code pc ops pc' →
    ArgsAt site d.scopes pc es found wanted pc'

/-- Lowering the expression achieves what it should, in any draft. -/
abbrev Lowers (cx : Surroundings) (e : Expr) : Prop := ∀ {d d' : Draft} {ops : List Op} {t : Ty},
  Pool d.consts → expr cx e d = .ok ((ops, t), d') → ExprOk cx d d' e ops t

theorem constant_literal {p : Nat} {l : Literal} {v : Value}
    (floats : (Expr.lit p l).Floats Signless) (h : literal l = .ok v) : Constant v := by
  unfold literal at h
  split at h
  next n =>
    split at h
    next small =>
      cases h
      refine .int ?_
      rw [Int32.toInt_ofNat_of_lt small]
      exact Int.natCast_nonneg n
    next => cases h
  next x => cases h; exact .float (plain_narrow floats)
  next b => cases h; exact .bool b

/-- A constant of the draft is one of the site. -/
theorem constAt {i : UInt32} {v : Value} (serves : site.Serves cx d)
    (held : d.consts[i.toNat]? = some v) : site.consts[i.toNat]? = some v := by
  obtain ⟨more, eq⟩ := serves.consts
  rw [← Array.getElem?_toList] at held ⊢
  rw [← eq, List.getElem?_append_left (List.getElem?_eq_some_iff.1 held).1, held]

variable {ops : List Op} {t : Ty}

theorem lit_lowers {p : Nat} {l : Literal} (floats : (Expr.lit p l).Floats Signless) :
    Lowers cx (.lit p l) := by
  intro d d' ops t pool h
  rw [expr] at h
  simp only [bind_eq_ok, liftCause_eq_ok, pure_eq_ok] at h
  obtain ⟨v, _, ⟨value, rfl⟩, o, _, made, same, rfl⟩ := h
  cases same
  obtain ⟨grows, i, rfl, held⟩ := constant_eq_ok pool (constant_literal floats value) made
  refine ⟨grows, fun serves code => ?_⟩
  obtain ⟨op, rest⟩ := Placed.cons_iff.1 code
  cases rest
  exact .lit value ⟨i, op, constAt serves held⟩

theorem var_lowers {p : Nat} {name : String} : Lowers cx (.var p name) := by
  intro d d' ops t pool h
  rw [expr] at h
  simp only [bind_eq_ok, get_eq_ok] at h
  obtain ⟨_, _, ⟨rfl, rfl⟩, h⟩ := h
  cases found : find? d.scopes name with
  | none =>
      rw [found] at h
      exact absurd h complain_ne_ok
  | some x =>
      rw [found] at h
      obtain ⟨same, rfl⟩ := pure_eq_ok.1 h
      cases same
      refine ⟨.refl pool, fun serves code => ?_⟩
      obtain ⟨op, rest⟩ := Placed.cons_iff.1 code
      cases rest
      exact .var found op

theorem unary_lowers {p : Nat} {op : UnaryOp} {e : Expr} (operand : Lowers cx e) :
    Lowers cx (.unary p op e) := by
  intro d d' ops t pool h
  rw [expr] at h
  simp only [bind_eq_ok, liftCause_eq_ok, pure_eq_ok] at h
  obtain ⟨⟨code, t⟩, d₁, lowered, o, _, ⟨typed, rfl⟩, same, rfl⟩ := h
  cases same
  obtain ⟨grows, placed⟩ := operand pool lowered
  refine ⟨grows, fun serves at_ => ?_⟩
  obtain ⟨pc₁, before, last⟩ := Placed.append.1 at_
  obtain ⟨instr, rest⟩ := Placed.cons_iff.1 last
  cases rest
  exact .unary (placed serves before) typed instr

theorem logic_lowers {p : Nat} {op : LogicOp} {a b : Expr} (left : Lowers cx a)
    (right : Lowers cx b) : Lowers cx (.binary p (.logic op) a b) := by
  intro d d' ops t pool h
  rw [expr] at h
  simp only [bind_eq_ok, check_eq_ok, pure_eq_ok] at h
  obtain ⟨⟨codeA, l⟩, d₁, loweredA, boolA, ⟨codeB, r⟩, d₂, loweredB, boolB, same, rfl⟩ := h
  obtain rfl : l = .bool := Decidable.not_not.1 boolA
  obtain rfl : r = .bool := Decidable.not_not.1 boolB
  dsimp only at same
  cases same
  obtain ⟨growsA, placedA⟩ := left pool loweredA
  obtain ⟨growsB, placedB⟩ := right growsA.pool loweredB
  refine ⟨growsA.trans growsB, fun {site pc pc'} serves at_ => ?_⟩
  obtain ⟨pc₁, before, rest⟩ := Placed.append.1 at_
  obtain ⟨dup, rest⟩ := Placed.cons_iff.1 rest
  obtain ⟨leave, rest⟩ := Placed.cons_iff.1 rest
  obtain ⟨pop, behind⟩ := Placed.cons_iff.1 rest
  have inside := OpsAt.le_size behind (lt_size_of_op pop)
  have lands := leads_ahead serves.short inside
    (show pc' = pc₁ + 1 + (codeB.length + 2) by rw [behind.length]; omega)
  have placed := placedB serves behind
  rw [growsA.scopes] at placed
  exact .logic (placedA (serves.before growsB) before) dup leave pop placed lands

/-- The walk over an operator: its operands, a promotion and the instruction. -/
theorem binary_ran {p : Nat} {op : BinaryOp} {a b : Expr} (plain : ∀ l, op ≠ .logic l)
    (h : expr cx (.binary p op a b) d = .ok ((ops, t), d')) :
    ∃ codeA l d₁ codeB r o, expr cx a d = .ok ((codeA, l), d₁) ∧
      expr cx b d₁ = .ok ((codeB, r), d') ∧
      operator? op (promote l r).2.1 (promote l r).2.2 = some (o, t) ∧
      ops = codeA ++ codeB ++ (promote l r).1 ++ [o] := by
  rw [expr] at h
  cases op with
  | logic l => exact absurd rfl (plain l)
  | arith op | order op =>
      simp only [bind_eq_ok] at h
      obtain ⟨⟨codeA, l⟩, d₁, loweredA, ⟨codeB, r⟩, d₂, loweredB, h⟩ := h
      dsimp only at h
      generalize typed : operator? _ (promote l r).2.1 (promote l r).2.2 = found at h
      rcases found with _ | ⟨o, t⟩
      · exact absurd h complain_ne_ok
      · obtain ⟨same, rfl⟩ := pure_eq_ok.1 h
        cases same
        exact ⟨codeA, l, d₁, codeB, r, o, loweredA, loweredB, typed, rfl⟩

theorem binary_lowers {p : Nat} {op : BinaryOp} {a b : Expr} (plain : ∀ l, op ≠ .logic l)
    (left : Lowers cx a) (right : Lowers cx b) : Lowers cx (.binary p op a b) := by
  intro d d' ops t pool h
  obtain ⟨codeA, l, d₁, codeB, r, o, loweredA, loweredB, typed, rfl⟩ := binary_ran plain h
  obtain ⟨growsA, placedA⟩ := left pool loweredA
  obtain ⟨growsB, placedB⟩ := right growsA.pool loweredB
  refine ⟨growsA.trans growsB, fun serves at_ => ?_⟩
  obtain ⟨pc₃, rest, last⟩ := Placed.append.1 at_
  obtain ⟨pc₂, rest, promoted⟩ := Placed.append.1 rest
  obtain ⟨pc₁, before, behind⟩ := Placed.append.1 rest
  obtain ⟨instr, rest⟩ := Placed.cons_iff.1 last
  cases rest
  have placed := placedB serves behind
  rw [growsA.scopes] at placed
  exact .binary (placedA (serves.before growsB) before) placed promoted typed instr

theorem joinBranches_eq_ok {a b a' b' : List Op} {s t r : Ty}
    (h : joinBranches a b s t = .ok (a', b', r)) : Joins s t r ∧
      ∃ fa fb, a' = a ++ fa ∧ b' = b ++ fb ∧ fit "" 0 s r = .ok fa ∧ fit "" 0 t r = .ok fb := by
  unfold joinBranches at h
  by_cases left : s = .int ∧ t = .float
  · obtain ⟨rfl, rfl⟩ := left
    cases h
    exact ⟨⟨.inr ⟨rfl, rfl⟩, .inl rfl, .inr rfl, nofun⟩, _, _, rfl, (List.append_nil b).symm,
      rfl, rfl⟩
  · rw [if_neg left] at h
    by_cases right : t = .int ∧ s = .float
    · obtain ⟨rfl, rfl⟩ := right
      cases h
      exact ⟨⟨.inl rfl, .inr ⟨rfl, rfl⟩, .inl rfl, nofun⟩, _, _, (List.append_nil a).symm, rfl,
        rfl, rfl⟩
    · rw [if_neg right] at h
      dsimp only at h
      split at h
      · cases h
      next same =>
        cases h
        rw [not_or, Decidable.not_not] at same
        obtain ⟨rfl, value⟩ := same
        exact ⟨⟨.inl rfl, .inl rfl, .inl rfl, value⟩, _, _, (List.append_nil _).symm,
          (List.append_nil _).symm, if_pos rfl, if_pos rfl⟩

theorem ternary_lowers {p : Nat} {c a b : Expr} (cond : Lowers cx c) (yes : Lowers cx a)
    (no : Lowers cx b) : Lowers cx (.ternary p c a b) := by
  intro d d' ops t pool h
  rw [expr] at h
  simp only [bind_eq_ok, check_eq_ok, liftCause_eq_ok, pure_eq_ok] at h
  obtain ⟨⟨codeC, tc⟩, d₁, loweredC, boolC, ⟨opsA, s⟩, d₂, loweredA, ⟨opsB, t⟩, d₃, loweredB,
    ⟨opsA', opsB', r⟩, _, ⟨joined, rfl⟩, same, rfl⟩ := h
  obtain rfl : tc = .bool := Decidable.not_not.1 boolC
  obtain ⟨joins, fitA, fitB, rfl, rfl, fittedA, fittedB⟩ := joinBranches_eq_ok joined
  dsimp only at same
  cases same
  obtain ⟨growsC, placedC⟩ := cond pool loweredC
  obtain ⟨growsA, placedA⟩ := yes growsC.pool loweredA
  obtain ⟨growsB, placedB⟩ := no growsA.pool loweredB
  refine ⟨(growsC.trans growsA).trans growsB, fun {site pc pc'} serves at_ => ?_⟩
  obtain ⟨pc₃, rest, tail⟩ := Placed.append.1 at_
  obtain ⟨pc₁, before, rest⟩ := Placed.append.1 rest
  obtain ⟨branch, chosen⟩ := Placed.cons_iff.1 rest
  obtain ⟨past, other⟩ := Placed.cons_iff.1 tail
  obtain ⟨pc₂, codeA, convertA⟩ := Placed.append.1 chosen
  obtain ⟨pc₄, codeB, convertB⟩ := Placed.append.1 other
  have inside := OpsAt.le_size other (lt_size_of_op past)
  have lands := leads_ahead serves.short (lt_size_of_op past)
    (show pc₃ + 1 = pc₁ + ((opsA ++ fitA).length + 2) by rw [chosen.length]; omega)
  have landsOver := leads_ahead serves.short inside
    (show pc' = pc₃ + ((opsB ++ fitB).length + 1) by rw [other.length]; omega)
  have placedA := placedA (serves.before growsB) codeA
  have placedB := placedB serves codeB
  rw [growsC.scopes] at placedA
  rw [growsA.scopes, growsC.scopes] at placedB
  exact .ternary (placedC (serves.before (growsA.trans growsB)) before) branch placedA
    (fitAt_of_fit fittedA convertA) ⟨_, past, landsOver⟩ placedB (fitAt_of_fit fittedB convertB)
    lands joins

theorem select_lowers {p : Nat} {e : Expr} {fields : String} (base : Lowers cx e) :
    Lowers cx (.select p e fields) := by
  intro d d' ops t pool h
  rw [expr] at h
  simp only [bind_eq_ok, check_eq_ok, liftCause_eq_ok, pure_eq_ok] at h
  obtain ⟨⟨code, t⟩, d₁, lowered, vector, lanes, _, ⟨read, rfl⟩, same, rfl⟩ := h
  simp only [Bool.not_eq_true, Bool.not_eq_false'] at vector
  cases same
  obtain ⟨grows, placed⟩ := base pool lowered
  refine ⟨grows, fun serves at_ => ?_⟩
  obtain ⟨pc₁, before, last⟩ := Placed.append.1 at_
  obtain ⟨instr, rest⟩ := Placed.cons_iff.1 last
  cases rest
  exact .select (placed serves before) vector read (selection_ofLanes? read) instr

theorem assign_lowers {p : Nat} {target e : Expr} (value : Lowers cx e) :
    Lowers cx (.assign p none target e) := by
  intro d d' ops t pool h
  rw [expr] at h
  simp only [bind_eq_ok, get_eq_ok, liftCause_eq_ok, liftM_eq_ok, pure_eq_ok] at h
  obtain ⟨_, _, ⟨rfl, rfl⟩, place, _, ⟨goal, rfl⟩, ⟨code, t⟩, d₁, lowered, convert, _,
    ⟨fitted, rfl⟩, same, rfl⟩ := h
  cases same
  obtain ⟨grows, placed⟩ := value pool lowered
  refine ⟨grows, fun serves at_ => ?_⟩
  obtain ⟨pc₂, rest, store⟩ := Placed.append.1 at_
  obtain ⟨pc₁, before, fit⟩ := Placed.append.1 rest
  exact .assign goal (placed serves before) (fits_of_fit fitted) (fitAt_of_fit fitted fit) store

theorem combine_lowers {p : Nat} {op : ArithOp} {target e : Expr} (value : Lowers cx e) :
    Lowers cx (.assign p (some op) target e) := by
  intro d d' ops t pool h
  rw [expr] at h
  simp only [bind_eq_ok, get_eq_ok, liftCause_eq_ok] at h
  obtain ⟨_, _, ⟨rfl, rfl⟩, place, _, ⟨goal, rfl⟩, ⟨code, t⟩, d₁, lowered, h⟩ := h
  simp only [check_eq_ok, pure_eq_ok] at h
  obtain ⟨typed, same, rfl⟩ := h
  rw [Decidable.not_not] at typed
  cases same
  obtain ⟨grows, placed⟩ := value pool lowered
  refine ⟨grows, fun serves at_ => ?_⟩
  obtain ⟨pc₃, rest, store⟩ := Placed.append.1 at_
  obtain ⟨pc₂, rest, convert⟩ := Placed.append.1 rest
  obtain ⟨pc₁, read, before⟩ := Placed.append.1 rest
  by_cases widens : t = .int ∧ place.ty ≠ .int
  · rw [if_pos widens] at typed convert
    obtain ⟨op, rest⟩ := Placed.cons_iff.1 convert
    cases rest
    exact .combine goal read (placed serves before) (.float (.inl widens.1) op)
      (if_pos widens).symm typed store
  · rw [if_neg widens] at typed convert
    cases convert
    exact .combine goal read (placed serves before) .same (if_neg widens).symm typed store

theorem step_lowers {p : Nat} {target : Expr} {increment leading : Bool} :
    Lowers cx (.step p target increment leading) := by
  intro d d' ops t pool h
  rw [expr] at h
  simp only [bind_eq_ok, get_eq_ok, liftCause_eq_ok, check_eq_ok, pure_eq_ok] at h
  obtain ⟨_, _, ⟨rfl, rfl⟩, ⟨x, lanes⟩, _, ⟨goal, rfl⟩, counter, o, _, made, same, rfl⟩ := h
  rw [not_or, Decidable.not_not] at counter
  obtain ⟨whole, ordered⟩ := counter
  obtain rfl : lanes = none := by simpa using whole
  have one := Constant.one (decide (x.ty = .int))
  simp only [decide_eq_true_eq] at one
  obtain ⟨grows, i, rfl, held⟩ := constant_eq_ok pool one made
  cases same
  refine ⟨grows, fun serves at_ => .step goal ordered (constAt serves held) ?_⟩
  cases leading <;> exact at_

theorem call_lowers {p : Nat} {name : String} {es : List Expr}
    (args : ∀ {f : Fit} {d d' : Draft} {ops : List Op} {types : List Ty}, f.Sound → Pool d.consts →
      arguments cx f 0 es d = .ok ((ops, types), d') → ∃ found, ArgsOk cx d d' f 0 es found ops types) :
    Lowers cx (.call p name es) := by
  intro d d' ops t pool h
  rw [expr] at h
  simp only [bind_eq_ok, liftCause_eq_ok, pure_eq_ok] at h
  obtain ⟨c, _, ⟨meant, rfl⟩, ⟨code, types⟩, d₁, lowered, ⟨o, t⟩, _, ⟨finish, rfl⟩, same, rfl⟩ := h
  cases same
  obtain ⟨sound, callAt⟩ := callAt_of_callee meant
  obtain ⟨found, grows, fitted, count, placed⟩ := args sound pool lowered
  refine ⟨grows, fun serves at_ => ?_⟩
  obtain ⟨pc₁, before, last⟩ := Placed.append.1 at_
  obtain ⟨instr, rest⟩ := Placed.cons_iff.1 last
  cases rest
  exact .call (placed serves before) (callAt serves fitted count finish instr)

mutual

theorem expr_lowers (cx : Surroundings) (e : Expr) (floats : e.Floats Signless) : Lowers cx e :=
  match e, floats with
  | .lit .., floats => lit_lowers floats
  | .var .., _ => var_lowers
  | .unary _ _ e, floats => unary_lowers (expr_lowers cx e floats)
  | .binary _ (.logic _) a b, floats =>
    logic_lowers (expr_lowers cx a floats.1) (expr_lowers cx b floats.2)
  | .binary _ (.arith _) a b, floats =>
    binary_lowers (by simp) (expr_lowers cx a floats.1) (expr_lowers cx b floats.2)
  | .binary _ (.order _) a b, floats =>
    binary_lowers (by simp) (expr_lowers cx a floats.1) (expr_lowers cx b floats.2)
  | .ternary _ c a b, floats =>
    ternary_lowers (expr_lowers cx c floats.1) (expr_lowers cx a floats.2.1)
      (expr_lowers cx b floats.2.2)
  | .call _ _ es, floats => call_lowers fun sound => arguments_lower cx es floats sound 0
  | .select _ e _, floats => select_lowers (expr_lowers cx e floats)
  | .assign _ none _ e, floats => assign_lowers (expr_lowers cx e floats.2)
  | .assign _ (some _) _ e, floats => combine_lowers (expr_lowers cx e floats.2)
  | .step .., _ => step_lowers

theorem arguments_lower (cx : Surroundings) (es : List Expr)
    (floats : Expr.FloatsList Signless es) {f : Fit} (sound : f.Sound) (i : Nat) {d d' : Draft}
    {ops : List Op} {wanted : List Ty} (pool : Pool d.consts)
    (h : arguments cx f i es d = .ok ((ops, wanted), d')) :
    ∃ found, ArgsOk cx d d' f i es found ops wanted :=
  match es, floats with
  | [], _ => by
    rw [arguments] at h
    obtain ⟨same, rfl⟩ := pure_eq_ok.1 h
    cases same
    refine ⟨[], .refl pool, .nil, rfl, fun _ at_ => ?_⟩
    cases at_
    exact .nil
  | e :: rest, floats => by
    rw [arguments] at h
    simp only [bind_eq_ok, liftM_eq_ok, pure_eq_ok] at h
    obtain ⟨⟨code, t⟩, d₁, lowered, ⟨convert, w⟩, _, ⟨fitted, rfl⟩, ⟨more, types⟩, d₂, others, same,
      rfl⟩ := h
    cases same
    obtain ⟨grows, placed⟩ := expr_lowers cx e floats.1 pool lowered
    obtain ⟨found, grows', fitted', count, placed'⟩ :=
      arguments_lower cx rest floats.2 sound (i + 1) grows.pool others
    refine ⟨t :: found, grows.trans grows', .cons fitted fitted', by simp [count],
      fun serves at_ => ?_⟩
    obtain ⟨pc₂, first, behind⟩ := Placed.append.1 at_
    obtain ⟨pc₁, before, fit⟩ := Placed.append.1 first
    have tail := placed' serves behind
    rw [grows.scopes] at tail
    exact .cons (placed (serves.before grows') before) (sound.fitAt fitted fit) tail

end

end Lower
end PixelKernel.Language
