import PixelKernel.Proofs.Code.Functions
import PixelKernel.Proofs.Code.References

/-! # Operands of lowered code

Lowering emits one instruction for each reference of the tree, in the same order. Its operand is
the number that the tree gives, but for functions, whose numbers are cut to 16 bits.
-/

namespace PixelKernel.Language

/-- What code refers to. -/
def Op.references (ops : List Op) (consts : Array Value) : List Reference :=
  ops.filterMap (Op.reference? consts)

/-- What a chunk refers to; open jumps refer to nothing. -/
def Chunk.references (c : Chunk) (consts : Array Value) : List Reference :=
  c.filterMap fun
    | .op o => o.reference? consts
    | _ => none

section

variable {consts : Array Value} {ops more : List Op} {c c' : Chunk}

@[simp] theorem Op.references_nil : Op.references [] consts = [] := rfl

@[simp] theorem Op.references_cons {o : Op} :
    Op.references (o :: ops) consts = (o.reference? consts).toList ++ Op.references ops consts := by
  unfold Op.references
  rw [List.filterMap_cons]
  cases o.reference? consts <;> rfl

@[simp] theorem Op.references_append :
    Op.references (ops ++ more) consts = Op.references ops consts ++ Op.references more consts :=
  List.filterMap_append

namespace Chunk

@[simp] theorem references_nil : references [] consts = [] := rfl

@[simp] theorem references_op {o : Op} :
    references (.op o :: c) consts = (o.reference? consts).toList ++ references c consts := by
  unfold references
  rw [List.filterMap_cons]
  dsimp only
  cases o.reference? consts <;> rfl

@[simp] theorem references_breakOut :
    references (.breakOut :: c) consts = references c consts := rfl

@[simp] theorem references_continueOn :
    references (.continueOn :: c) consts = references c consts := rfl

@[simp] theorem references_append :
    references (c ++ c') consts = references c consts ++ references c' consts :=
  List.filterMap_append

@[simp] theorem references_ofOps : references (.ofOps ops) consts = Op.references ops consts := by
  unfold references ofOps Op.references
  rw [List.filterMap_map]
  rfl

@[simp] theorem references_closeFrom {site again stop : Nat} :
    references (c.closeFrom site again stop) consts = references c consts := by
  induction c generalizing site with
  | nil => rfl
  | cons s c ih => cases s <;> simp [closeFrom, ih, Op.reference?]

theorem references_ops : Op.references c.ops consts = references c consts := by
  unfold Op.references ops references
  rw [List.filterMap_filterMap]
  refine List.filterMap_congr fun s _ => ?_
  cases s <;> rfl

end Chunk

end

/-- The number of a variable. -/
def Local.numbered (x : Local) : Numbered := ⟨x.slot.toNat, x.ty, x.isConst⟩

namespace Lower

open Reference

variable {cx : Surroundings} {module : List FunctionDef} {d d' d₁ d₂ : Draft} {n n₁ n₂ : Naming}

/-! ## Drafts and names -/

/-- Functions that can be called are those of the module. -/
structure Knows (cx : Surroundings) (module : List FunctionDef) : Prop where
  functions : ∀ name i g, cx.library.find? name = some (i, g) → ∃ f,
    module.find? (·.name == name) = some f ∧ module.findIdx (·.name == name) = i ∧
      f.params.length = g.params.length
  /-- No function has the name of a builtin or a type. -/
  unnamed : ∀ name, Builtin.named name ≠ [] ∨ (Ty.ofName? name).isSome →
    module.find? (·.name == name) = none

/-- A draft and the names of what it has declared. -/
structure Ready (d : Draft) (n : Naming) : Prop where
  pool : Pool d.consts
  opened : d.scopes ≠ []
  sound : n.Sound
  scopes : List.Forall₂ (fun (scope : Scope) names =>
    ∀ name : String, names.lookup name = (scope[name]?).map Local.numbered) d.scopes n.scopes
  locals : d.locals.toList = n.declared.map (·.ty)

/-- What a walk has emitted when it gets from one draft to another. -/
structure Resolved (d d' : Draft) (emitted : Array Value → List Reference) (n : Naming)
    (r : List Reference × Naming) : Prop where
  ready : Ready d' r.2
  consts : d.consts.toList <+: d'.consts.toList
  respects : Respects n r
  same : ∀ {all : Array Value}, d'.consts.toList <+: all.toList → emitted all = r.1.map narrowed

namespace Ready

theorem find? (h : Ready d n) (name : String) :
    n.find? name = (Lower.find? d.scopes name).map Local.numbered := by
  unfold Naming.find? Lower.find?
  have scopes := h.scopes
  revert scopes
  generalize d.scopes = left
  generalize n.scopes = right
  intro scopes
  induction scopes with
  | nil => rfl
  | @cons scope names _ _ head _ ih =>
      rw [List.findSome?_cons, List.findSome?_cons, head name, ih]
      cases scope[name]? <;> rfl

/-- A function starts with no variables. -/
theorem start {consts : Array Value} (pool : Pool consts) :
    Ready ⟨consts, #[], [∅]⟩ ⟨[[]], []⟩ where
  pool := pool
  opened := List.cons_ne_nil _ _
  sound := ⟨nofun, fun scope mem b hb => by
    obtain rfl := List.mem_singleton.1 mem
    cases hb⟩
  scopes := .cons (fun name => by simp) .nil
  locals := rfl

theorem grows (h : Ready d n) (grown : Grows d d') : Ready d' n where
  pool := grown.pool
  opened := grown.scopes ▸ h.opened
  sound := h.sound
  scopes := grown.scopes ▸ h.scopes
  locals := grown.locals ▸ h.locals

theorem enter (h : Ready d n) : Ready { d with scopes := ∅ :: d.scopes } n.enter where
  pool := h.pool
  opened := List.cons_ne_nil _ _
  sound := h.sound.enter
  scopes := .cons (fun name => by simp) h.scopes
  locals := h.locals

theorem leave (h : Ready d n) {r : List Reference × Naming} (inner : Ready d₁ r.2)
    (grown : n.declared <+: r.2.declared) : Ready { d₁ with scopes := d.scopes } (n.leave r).2 where
  pool := inner.pool
  opened := h.opened
  sound := h.sound.leave inner.sound grown
  scopes := h.scopes
  locals := inner.locals

/-- A new variable has the next slot for its number. -/
theorem declare (h : Ready d n) {pos : Nat} {name : String} {ty : Ty} {isConst : Bool}
    {slot : UInt16}
    (ran : declare pos name ty isConst d = .ok (slot, d')) :
    slot.toNat = n.declared.length ∧ d'.consts = d.consts ∧
      Ready d' (n.declare name ty isConst) := by
  have count : d.locals.size = n.declared.length := by
    rw [← Array.length_toList, h.locals, List.length_map]
  obtain ⟨scope, outer, left⟩ := List.exists_cons_of_ne_nil h.opened
  have scopes := h.scopes
  rw [left] at scopes
  cases right : n.scopes with
  | nil => rw [right] at scopes; cases scopes
  | cons names rest =>
  rw [right] at scopes
  unfold Lower.declare at ran
  simp only [bind_eq_ok, get_eq_ok] at ran
  obtain ⟨_, _, ⟨rfl, rfl⟩, ran⟩ := ran
  rw [left] at ran
  simp only [check_eq_ok, bind_eq_ok, set_eq_ok, pure_eq_ok] at ran
  obtain ⟨-, room, _, _, rfl, rfl, rfl⟩ := ran
  have word : (UInt16.ofNat d.locals.size).toNat = n.declared.length := by
    rw [UInt16.toNat_ofNat_of_lt' (by change _ < 2 ^ 16; omega), count]
  refine ⟨word, rfl, h.pool, List.cons_ne_nil _ _, h.sound.declare name ty isConst, ?_, ?_⟩
  · unfold Naming.declare
    rw [right]
    cases scopes with
    | cons head tail =>
        refine .cons (fun y => ?_) tail
        rw [List.lookup_cons, Std.TreeMap.getElem?_insert]
        by_cases same : name = y
        · subst same
          simp [Local.numbered, word]
        · have apart : ¬ compare name y = .eq := fun eq => same (Std.LawfulEqCmp.eq_of_compare eq)
          rw [if_neg apart, ← head y]
          simp [beq_eq_false_iff_ne.2 (Ne.symm same)]
  · simp [Naming.declare, h.locals]

end Ready

namespace Resolved

variable {e e' : Array Value → List Reference} {r r' : List Reference × Naming}
  {rs rs' : List Reference}

theorem cast (h : Resolved d d' e n r) (emitted : ∀ all, e' all = e all) (refers : r' = r) :
    Resolved d d' e' n r' := by
  obtain rfl : e' = e := funext emitted
  exact refers ▸ h

theorem append (first : Resolved d d₁ e n (rs, n₁)) (second : Resolved d₁ d₂ e' n₁ (rs', n₂)) :
    Resolved d d₂ (fun all => e all ++ e' all) n (rs ++ rs', n₂) where
  ready := second.ready
  consts := first.consts.trans second.consts
  respects := first.respects.append second.respects
  same all := by rw [first.same (second.consts.trans all), second.same all, List.map_append]

/-- A reference that is not a write. -/
theorem one {ref : Reference} (ready : Ready d n) (quiet : ref.written? = none)
    (emitted : ∀ all : Array Value, d.consts.toList <+: all.toList → e all = [ref.narrowed]) :
    Resolved d d e n ([ref], n) where
  ready := ready
  consts := List.prefix_refl _
  respects := .quiet (List.forall_mem_singleton.2 quiet)
  same all := emitted _ all

theorem nil (ready : Ready d n) : Resolved d d (fun _ => []) n ([], n) where
  ready := ready
  consts := List.prefix_refl _
  respects := .quiet nofun
  same _ := rfl

theorem leave (ready : Ready d n) (h : Resolved { d with scopes := ∅ :: d.scopes } d₁ e n.enter r) :
    Resolved d { d₁ with scopes := d.scopes } e n (n.leave r) where
  ready := ready.leave h.ready h.respects.grown
  consts := h.consts
  respects := h.respects.leave
  same := h.same

theorem constant {v : Value} {o : Op} (ready : Ready d n) (hv : Constant v)
    (h : constant v d = .ok (o, d')) :
    Resolved d d' (Op.references [o]) n ([v.reference], n) := by
  obtain ⟨grows, i, rfl, held⟩ := constant_eq_ok ready.pool hv h
  have ready' := ready.grows grows
  refine ⟨ready', grows.consts, .quiet (List.forall_mem_singleton.2 (written?_value v)),
    fun {all} later => ?_⟩
  obtain ⟨more, eq⟩ := later
  rw [← Array.getElem?_toList] at held
  have there : all[i.toNat]? = some v := by
    rw [← Array.getElem?_toList, ← eq,
      List.getElem?_append_left (List.getElem?_eq_some_iff.1 held).1,
      held]
  simp [Op.reference?, there, narrowed_value]

theorem declare {pos : Nat} {name : String} {ty : Ty} {isConst : Bool} {slot : UInt16}
    (ready : Ready d n) (h : Lower.declare pos name ty isConst d = .ok (slot, d')) :
    Resolved d d' (Op.references [.store slot]) n
      ([.write n.declared.length none], n.declare name ty isConst) := by
  obtain ⟨place, consts, ready'⟩ := ready.declare h
  refine ⟨ready', by rw [consts], .declare name ty isConst, fun _ => ?_⟩
  rw [← place]
  rfl

end Resolved

/-! ## Instructions without references -/

section

variable {all : Array Value} {ops : List Op} {t w : Ty}

theorem references_fit {what : String} {pos : Nat} (h : fit what pos t w = .ok ops) :
    Op.references ops all = [] := by
  unfold fit at h
  split at h
  · cases h; rfl
  · split at h <;> cases h
    rfl

theorem Fit.Sound.references {f : Fit} (sound : f.Sound) {i pos : Nat}
    (h : f i pos t = .ok (ops, w)) : Op.references ops all = [] := by
  rcases sound i pos t ops w h with ⟨rfl, -⟩ | ⟨rfl, -⟩ <;> rfl

theorem references_promote (l r : Ty) : Op.references (promote l r).1 all = [] := by
  unfold promote
  split
  · rfl
  · split <;> rfl

theorem reference?_operator? {op : BinaryOp} {l r : Ty} {o : Op}
    (h : operator? op l r = some (o, t)) : o.reference? all = none := by
  unfold operator? at h
  cases op with
  | arith op =>
      obtain ⟨_, -, ⟨⟩⟩ := Option.map_eq_some_iff.1 h
      rfl
  | order op =>
      dsimp only at h
      split at h
      all_goals
        obtain ⟨-, ⟨⟩⟩ := Option.ite_none_right_eq_some.1 h
        rfl
  | logic op => cases h

theorem reference?_unaryResult {op : UnaryOp} {o : Op} (h : unaryResult op t = .ok o) :
    o.reference? all = none := by
  unfold unaryResult at h
  split at h
  all_goals
    split at h <;> cases h
    rfl

theorem reference?_conversion? {name : String} {o : Op} (h : conversion? name = some (o, t)) :
    o.reference? all = none := by
  unfold conversion? at h
  split at h <;> cases h <;> rfl

theorem reference_literal {l : Literal} {v : Value} (h : literal l = .ok v) :
    v.reference = l.reference := by
  unfold literal at h
  split at h
  next k =>
    split at h
    next small =>
      cases h
      exact congrArg Reference.int (Int32.toInt_ofNat_of_lt small)
    next => cases h
  next => cases h; rfl
  next => cases h; rfl

end

/-! ## Calls -/

theorem toNat_ofNat_of_few {argc : Nat} (few : ¬ argc > 255) : (UInt8.ofNat argc).toNat = argc :=
  UInt8.toNat_ofNat_of_lt' (by change argc < 2 ^ 8; omega)

theorem reference?_finishVector {name : String} {width : Nat} {types : List Ty} {o : Op} {t : Ty}
    {all : Array Value} (vector : vectorWidth? name = some width) (few : ¬ types.length > 255)
    (h : finishVector name width types = .ok (o, t)) :
    o.reference? all = some (.vector width types.length) := by
  have wide : (UInt8.ofNat width).toNat = width := by
    unfold vectorWidth? at vector
    split at vector <;> cases vector <;> rfl
  unfold finishVector at h
  dsimp only at h
  split at h
  · cases h
  · cases h
    rw [Op.reference?, wide, toNat_ofNat_of_few few]

theorem reference?_finishBuiltin {kernel : Option Target} {name : String} {types : List Ty} {o : Op}
    {t : Ty} {all : Array Value} (few : ¬ types.length > 255)
    (h : finishBuiltin kernel name types = .ok (o, t)) :
    o.reference? all = some (.builtin types.length) := by
  unfold finishBuiltin at h
  split at h
  · cases h
  · split at h
    · cases h
    · cases h
      rw [Op.reference?, toNat_ofNat_of_few few]

/-- What is called is what the name stands for, and the call takes as many arguments as it was
    given. -/
theorem references_callee (knows : Knows cx module) {pos argc : Nat} {name : String} {c : Callee}
    (h : callee cx pos name argc = .ok c) : c.fit.Sound ∧
      ∀ {types : List Ty} {o : Op} {t : Ty} {all : Array Value}, types.length = argc →
        c.finish types = .ok (o, t) →
        (o.reference? all).toList = (calleeReferences module name argc).map narrowed := by
  unfold callee at h
  split at h
  · cases h
  next few =>
  split at h
  next i g there =>
    obtain ⟨f, found, place, params⟩ := knows.functions name i g there
    rw [calleeReferences, found, place]
    split at h
    · cases h
    next count =>
      cases h
      refine ⟨sound_fitParams _, fun {types o t all} _ finish => ?_⟩
      cases finish
      have arguments : f.params.length = argc := by omega
      simp [Op.reference?, narrowed, toNat_ofNat_of_few few, arguments]
  next =>
  split at h
  next r conversion =>
    have unnamed := knows.unnamed name (.inr (ofName?_of_conversion? conversion))
    split at h
    · cases h
    next one =>
      cases h
      refine ⟨sound_fitConversion _ _, fun {types o t all} _ finish => ?_⟩
      cases finish
      rw [calleeReferences, unnamed, reference?_conversion? conversion]
      simp [conversion]
  next notConversion =>
  split at h
  next width vector =>
    have unnamed := knows.unnamed name (.inr (ofName?_of_vectorWidth? vector))
    cases h
    refine ⟨sound_fitParts _, fun {types o t all} count finish => ?_⟩
    rw [calleeReferences, unnamed, reference?_finishVector vector (by rwa [count]) finish, count]
    simp [notConversion, vector, narrowed]
  next notVector =>
    split at h
    · cases h
    next builtin =>
      have unnamed := knows.unnamed name (.inl (by simpa using builtin))
      cases h
      refine ⟨sound_fitBuiltin, fun {types o t all} count finish => ?_⟩
      rw [calleeReferences, unnamed, reference?_finishBuiltin (by rwa [count]) finish, count]
      simp [notConversion, notVector, narrowed]

/-! ## Places -/

theorem assignable_of_variablePlace {scopes : List Scope} {name : String} {x : Local}
    (h : variablePlace scopes name = .ok x) : x.numbered.Assignable := by
  unfold variablePlace at h
  split at h
  · cases h
  · split at h
    · cases h
    next mutable =>
      split at h
      · cases h
      next value =>
        cases h
        exact ⟨Bool.eq_false_iff.2 mutable, value⟩

/-- Constants and samplers are refused as goals of assignments. -/
theorem assignable_of_place {scopes : List Scope} {e : Expr} {p : Place}
    (h : place scopes e = .ok p) : p.var.numbered.Assignable := by
  rcases place_cases h with ⟨_, _, -, found, -⟩ | ⟨_, _, _, _, _, -, found, -⟩
  all_goals exact assignable_of_variablePlace found

section

variable {e : Expr} {p : Place} (ready : Ready d n) (h : place d.scopes e = .ok p)
include ready h

theorem target?_of_place : target? n.find? e = some (p.var.numbered, p.lanes) := by
  obtain ⟨name, found, means, -⟩ := place_eq_ok h
  unfold target?
  rw [means]
  change (n.find? name >>= fun x => some (x, p.lanes)) = _
  rw [ready.find?, found]
  rfl

theorem resolved_read : Resolved d d (Op.references p.read) n (readReferences n.find? e, n) := by
  refine ⟨ready, List.prefix_refl _, .quiet ?_, fun _ => ?_⟩
  · unfold readReferences
    rw [target?_of_place ready h]
    cases p.lanes <;> simp [written?]
  · unfold readReferences Place.read
    rw [target?_of_place ready h]
    cases p.lanes <;> rfl

/-- The place is written later on, when there are more constants. -/
theorem resolved_write (later : Ready d₁ n) :
    Resolved d₁ d₁ (Op.references [p.write]) n (writeReferences n.find? e, n) := by
  obtain ⟨name, found, -⟩ := place_eq_ok h
  refine ⟨later, List.prefix_refl _, .assigns fun r mem i writes => ?_, fun _ => ?_⟩
  · unfold writeReferences at mem
    rw [target?_of_place ready h] at mem
    obtain rfl := List.mem_singleton.1 mem
    cases writes
    have inScope : n.find? name = some p.var.numbered := by
      rw [ready.find?, found]
      rfl
    exact ⟨p.var.numbered, ready.sound.find? inScope, assignable_of_place h⟩
  · unfold writeReferences Place.write
    rw [target?_of_place ready h]
    cases p.lanes <;> rfl

end

/-! ## Expressions -/

/-- What the code of an expression refers to, whichever draft it is lowered in. -/
abbrev Resolves (cx : Surroundings) (module : List FunctionDef) (e : Expr) : Prop :=
  ∀ {d d' : Draft} {n : Naming} {ops : List Op} {t : Ty}, Ready d n →
    expr cx e d = .ok ((ops, t), d') →
    Resolved d d' (Op.references ops) n (e.references module n.find?, n)

theorem lit_resolves {p : Nat} {l : Literal} (floats : (Expr.lit p l).Floats Signless) :
    Resolves cx module (.lit p l) := by
  intro d d' n ops t ready h
  rw [expr] at h
  simp only [bind_eq_ok, liftCause_eq_ok, pure_eq_ok] at h
  obtain ⟨v, _, ⟨value, rfl⟩, o, _, made, same, rfl⟩ := h
  cases same
  have constant := Resolved.constant ready (constant_literal floats value) made
  exact constant.cast (fun _ => rfl) (by rw [Expr.references, reference_literal value])

theorem var_resolves {p : Nat} {name : String} : Resolves cx module (.var p name) := by
  intro d d' n ops t ready h
  rw [expr] at h
  simp only [bind_eq_ok, get_eq_ok] at h
  obtain ⟨_, _, ⟨rfl, rfl⟩, h⟩ := h
  cases found : find? d.scopes name with
  | none =>
      rw [found] at h
      exact absurd h complain_ne_ok
  | some x =>
      rw [found] at h
      obtain ⟨same, rfl⟩ := pure_eq_ok.1 h
      cases same
      have refers : (Expr.var p name).references module n.find? = [.read x.slot.toNat] := by
        rw [Expr.references, ready.find?, found]
        rfl
      rw [refers]
      exact .one ready rfl fun _ _ => rfl

theorem unary_resolves {p : Nat} {op : UnaryOp} {e : Expr} (operand : Resolves cx module e) :
    Resolves cx module (.unary p op e) := by
  intro d d' n ops t ready h
  rw [expr] at h
  simp only [bind_eq_ok, liftCause_eq_ok, pure_eq_ok] at h
  obtain ⟨⟨code, t⟩, d₁, lowered, o, _, ⟨typed, rfl⟩, same, rfl⟩ := h
  cases same
  refine (operand ready lowered).cast (fun all => ?_) (by rw [Expr.references])
  simp [reference?_unaryResult typed]

theorem logic_resolves {p : Nat} {op : LogicOp} {a b : Expr} (left : Resolves cx module a)
    (right : Resolves cx module b) : Resolves cx module (.binary p (.logic op) a b) := by
  intro d d' n ops t ready h
  rw [expr] at h
  simp only [bind_eq_ok, check_eq_ok, pure_eq_ok] at h
  obtain ⟨⟨codeA, l⟩, d₁, loweredA, -, ⟨codeB, r⟩, d₂, loweredB, -, same, rfl⟩ := h
  cases same
  have first := left ready loweredA
  have second := right first.ready loweredB
  refine (first.append second).cast (fun all => ?_) (by rw [Expr.references])
  cases op <;> simp [Op.shortCircuit, Op.reference?]

theorem binary_resolves {p : Nat} {op : BinaryOp} {a b : Expr} (plain : ∀ l, op ≠ .logic l)
    (left : Resolves cx module a) (right : Resolves cx module b) :
    Resolves cx module (.binary p op a b) := by
  intro d d' n ops t ready h
  obtain ⟨codeA, l, d₁, codeB, r, o, loweredA, loweredB, typed, rfl⟩ := binary_ran plain h
  have first := left ready loweredA
  have second := right first.ready loweredB
  refine (first.append second).cast (fun all => ?_) (by rw [Expr.references])
  simp [references_promote, reference?_operator? typed]

theorem ternary_resolves {p : Nat} {c a b : Expr} (cond : Resolves cx module c)
    (yes : Resolves cx module a) (no : Resolves cx module b) :
    Resolves cx module (.ternary p c a b) := by
  intro d d' n ops t ready h
  rw [expr] at h
  simp only [bind_eq_ok, check_eq_ok, liftCause_eq_ok, pure_eq_ok] at h
  obtain ⟨⟨codeC, tc⟩, d₁, loweredC, -, ⟨opsA, s⟩, d₂, loweredA, ⟨opsB, t⟩, d₃, loweredB,
    ⟨opsA', opsB', r⟩, _, ⟨joined, rfl⟩, same, rfl⟩ := h
  obtain ⟨-, fitA, fitB, rfl, rfl, fittedA, fittedB⟩ := joinBranches_eq_ok joined
  cases same
  have first := cond ready loweredC
  have second := yes first.ready loweredA
  have third := no second.ready loweredB
  refine ((first.append second).append third).cast (fun all => ?_) (by rw [Expr.references])
  simp [Op.choose, Op.reference?, references_fit fittedA, references_fit fittedB]

theorem select_resolves {p : Nat} {e : Expr} {fields : String} (base : Resolves cx module e) :
    Resolves cx module (.select p e fields) := by
  intro d d' n ops t ready h
  rw [expr] at h
  simp only [bind_eq_ok, check_eq_ok, liftCause_eq_ok, pure_eq_ok] at h
  obtain ⟨⟨code, t⟩, d₁, lowered, -, lanes, _, ⟨read, rfl⟩, same, rfl⟩ := h
  cases same
  have first := base ready lowered
  have last : Resolved d₁ d₁ (Op.references [.select lanes]) n ([.pick lanes], n) :=
    .one first.ready rfl fun _ _ => rfl
  refine (first.append last).cast (fun all => by simp) ?_
  rw [Expr.references, (selection_eq_ok read).1]
  rfl

theorem assign_resolves {p : Nat} {target e : Expr} (value : Resolves cx module e) :
    Resolves cx module (.assign p none target e) := by
  intro d d' n ops t ready h
  rw [expr] at h
  simp only [bind_eq_ok, get_eq_ok, liftCause_eq_ok, liftM_eq_ok, pure_eq_ok] at h
  obtain ⟨_, _, ⟨rfl, rfl⟩, place, _, ⟨goal, rfl⟩, ⟨code, t⟩, d₁, lowered, convert, _,
    ⟨fitted, rfl⟩, same, rfl⟩ := h
  cases same
  have first := value ready lowered
  refine (first.append (resolved_write ready goal first.ready)).cast (fun all => ?_)
    (by rw [Expr.references])
  simp [references_fit fitted, Op.reference?]

theorem combine_resolves {p : Nat} {op : ArithOp} {target e : Expr}
    (value : Resolves cx module e) : Resolves cx module (.assign p (some op) target e) := by
  intro d d' n ops t ready h
  rw [expr] at h
  simp only [bind_eq_ok, get_eq_ok, liftCause_eq_ok] at h
  obtain ⟨_, _, ⟨rfl, rfl⟩, place, _, ⟨goal, rfl⟩, ⟨code, t⟩, d₁, lowered, h⟩ := h
  simp only [check_eq_ok, pure_eq_ok] at h
  obtain ⟨-, same, rfl⟩ := h
  cases same
  have second := value ready lowered
  have read := resolved_read ready goal
  refine ((read.append second).append (resolved_write ready goal second.ready)).cast (fun all => ?_)
    (by rw [Expr.references])
  split <;> simp [Op.reference?]

theorem step_resolves {p : Nat} {target : Expr} {increment leading : Bool} :
    Resolves cx module (.step p target increment leading) := by
  intro d d' n ops t ready h
  rw [expr] at h
  simp only [bind_eq_ok, get_eq_ok, liftCause_eq_ok, check_eq_ok, pure_eq_ok] at h
  obtain ⟨_, _, ⟨rfl, rfl⟩, ⟨x, lanes⟩, _, ⟨goal, rfl⟩, counter, o, _, made, same, rfl⟩ := h
  rw [not_or, Decidable.not_not] at counter
  obtain rfl : lanes = none := by simpa using counter.1
  have one := Constant.one (decide (x.ty = .int))
  simp only [decide_eq_true_eq] at one
  have unit := Resolved.constant ready one made
  cases same
  have read := resolved_read ready goal
  refine ((read.append unit).append (resolved_write ready goal unit.ready)).cast (fun all => ?_) ?_
  · cases leading <;> cases increment <;> simp [Place.read, Place.write, Op.reference?]
  · have units : unitReferences n.find? target =
        [(if x.ty = .int then Value.int 1 else .float 1).reference] := by
      unfold unitReferences
      rw [target?_of_place ready goal]
      dsimp only [Local.numbered]
      split <;> rfl
    rw [Expr.references, units]

theorem call_resolves (knows : Knows cx module) {p : Nat} {name : String} {es : List Expr}
    (args : ∀ {f : Fit} {d d' : Draft} {n : Naming} {ops : List Op} {types : List Ty}, f.Sound →
      Ready d n → arguments cx f 0 es d = .ok ((ops, types), d') →
      Resolved d d' (Op.references ops) n (Expr.referencesAll module n.find? es, n) ∧
        types.length = es.length) : Resolves cx module (.call p name es) := by
  intro d d' n ops t ready h
  rw [expr] at h
  simp only [bind_eq_ok, liftCause_eq_ok, pure_eq_ok] at h
  obtain ⟨c, _, ⟨meant, rfl⟩, ⟨code, types⟩, d₁, lowered, ⟨o, t⟩, _, ⟨finish, rfl⟩, same, rfl⟩ := h
  cases same
  obtain ⟨sound, refers⟩ := references_callee knows meant
  obtain ⟨first, count⟩ := args sound ready lowered
  have last : Resolved d₁ d₁ (Op.references [o]) n (calleeReferences module name es.length, n) := by
    refine ⟨first.ready, List.prefix_refl _, .quiet ?_, fun {all} _ => ?_⟩
    · unfold calleeReferences
      split
      · exact List.forall_mem_singleton.2 rfl
      · split
        · exact List.forall_mem_nil _
        · split <;> exact List.forall_mem_singleton.2 rfl
    · have called : (o.reference? all).toList = _ := refers count finish
      rw [← called]
      simp
  exact (first.append last).cast (fun all => by simp) (by rw [Expr.references])

mutual

theorem expr_resolves (knows : Knows cx module) (e : Expr) (floats : e.Floats Signless) :
    Resolves cx module e :=
  match e, floats with
  | .lit .., floats => lit_resolves floats
  | .var .., _ => var_resolves
  | .unary _ _ e, floats => unary_resolves (expr_resolves knows e floats)
  | .binary _ (.logic _) a b, floats =>
    logic_resolves (expr_resolves knows a floats.1) (expr_resolves knows b floats.2)
  | .binary _ (.arith _) a b, floats =>
    binary_resolves (by simp) (expr_resolves knows a floats.1) (expr_resolves knows b floats.2)
  | .binary _ (.order _) a b, floats =>
    binary_resolves (by simp) (expr_resolves knows a floats.1) (expr_resolves knows b floats.2)
  | .ternary _ c a b, floats =>
    ternary_resolves (expr_resolves knows c floats.1) (expr_resolves knows a floats.2.1)
      (expr_resolves knows b floats.2.2)
  | .call _ _ es, floats =>
    call_resolves knows fun sound => arguments_resolve knows es floats sound 0
  | .select _ e _, floats => select_resolves (expr_resolves knows e floats)
  | .assign _ none _ e, floats => assign_resolves (expr_resolves knows e floats.2)
  | .assign _ (some _) _ e, floats => combine_resolves (expr_resolves knows e floats.2)
  | .step .., _ => step_resolves

theorem arguments_resolve (knows : Knows cx module) (es : List Expr)
    (floats : Expr.FloatsList Signless es) {f : Fit} (sound : f.Sound) (i : Nat) {d d' : Draft}
    {n : Naming} {ops : List Op} {types : List Ty} (ready : Ready d n)
    (h : arguments cx f i es d = .ok ((ops, types), d')) :
    Resolved d d' (Op.references ops) n (Expr.referencesAll module n.find? es, n) ∧
      types.length = es.length :=
  match es, floats with
  | [], _ => by
    rw [arguments] at h
    obtain ⟨same, rfl⟩ := pure_eq_ok.1 h
    cases same
    exact ⟨.nil ready, rfl⟩
  | e :: rest, floats => by
    rw [arguments] at h
    simp only [bind_eq_ok, liftM_eq_ok, pure_eq_ok] at h
    obtain ⟨⟨code, t⟩, d₁, lowered, ⟨convert, w⟩, _, ⟨fitted, rfl⟩, ⟨more, types⟩, d₂, others, same,
      rfl⟩ := h
    cases same
    have first := expr_resolves knows e floats.1 ready lowered
    obtain ⟨second, count⟩ := arguments_resolve knows rest floats.2 sound (i + 1) first.ready others
    refine ⟨(first.append second).cast (fun all => ?_) (by rw [Expr.referencesAll]),
      by simp [count]⟩
    simp [sound.references fitted]

end

/-! ## Statements -/

section

variable (knows : Knows cx module)
include knows

theorem condition_resolves {e : Expr} {ops : List Op} (floats : e.Floats Signless)
    (ready : Ready d n) (h : condition cx e d = .ok (ops, d')) :
    Resolved d d' (Op.references ops) n (e.references module n.find?, n) := by
  unfold condition at h
  simp only [bind_eq_ok, check_eq_ok, pure_eq_ok] at h
  obtain ⟨⟨code, t⟩, _, lowered, -, rfl, rfl⟩ := h
  exact expr_resolves knows e floats ready lowered

theorem effect_resolves {e : Expr} {ops : List Op} (floats : e.Floats Signless)
    (ready : Ready d n) (h : effect cx e d = .ok (ops, d')) :
    Resolved d d' (Op.references ops) n (e.references module n.find?, n) := by
  unfold effect at h
  simp only [bind_eq_ok, pure_eq_ok] at h
  obtain ⟨⟨code, t⟩, _, lowered, rfl, rfl⟩ := h
  refine (expr_resolves knows e floats ready lowered).cast (fun all => ?_) rfl
  split <;> simp [Op.reference?]

omit knows in
theorem clause_resolves {f : Expr → Lower (List Op)} {c : Option Expr} {r : Option (List Op)}
    (floats : Expr.FloatsOption Signless c) (ready : Ready d n) (h : clause f c d = .ok (r, d'))
    (resolves : ∀ {e ops}, e.Floats Signless → f e d = .ok (ops, d') →
      Resolved d d' (Op.references ops) n (e.references module n.find?, n)) :
    Resolved d d' (Op.references (r.getD [])) n (Expr.clauseReferences module n.find? c, n) := by
  rcases clause_eq_ok h with ⟨rfl, rfl, rfl⟩ | ⟨e, ops, rfl, rfl, lowered⟩
  · exact .nil ready
  · exact resolves floats lowered

theorem declarator_resolves {ty : Ty} {isConst : Bool} {v : Declarator} {ops : List Op}
    (value : ty ≠ .void) (storable : ty ≠ .sampler) (floats : Expr.FloatsOption Signless v.init)
    (ready : Ready d n) (h : declarator cx ty isConst v d = .ok (ops, d')) :
    Resolved d d' (Op.references ops) n
      (v.references module ty n ++ [.write n.declared.length none],
        n.declare v.name ty isConst) := by
  unfold declarator at h
  unfold Declarator.references
  cases given : v.init with
  | none =>
      rw [given] at h
      simp only [check_eq_ok, bind_eq_ok, pure_eq_ok] at h
      obtain ⟨-, o, d₁, made, _, _, ⟨rfl, rfl⟩, _, _, declared, rfl, rfl⟩ := h
      have first := Resolved.constant ready (.zero value storable) made
      exact (first.append (.declare first.ready declared)).cast (fun all => by simp) rfl
  | some e =>
      rw [given] at h floats
      simp only [bind_eq_ok, liftM_eq_ok, pure_eq_ok] at h
      obtain ⟨⟨code, t⟩, d₁, evaluated, convert, _, ⟨fitted, rfl⟩, _, _, ⟨rfl, rfl⟩, _, _, declared,
        rfl, rfl⟩ := h
      have first := expr_resolves knows e floats ready evaluated
      refine (first.append (.declare first.ready declared)).cast (fun all => ?_) rfl
      simp [references_fit fitted]

theorem declarators_resolve {ty : Ty} {isConst : Bool} {vars : List Declarator} {ops : List Op}
    (value : ty ≠ .void) (storable : ty ≠ .sampler)
    (floats : ∀ v ∈ vars, Expr.FloatsOption Signless v.init) (ready : Ready d n)
    (h : declarators cx ty isConst vars d = .ok (ops, d')) :
    Resolved d d' (Op.references ops) n (resolveDeclarators module ty isConst n vars) := by
  induction vars generalizing d n ops with
  | nil =>
      obtain ⟨rfl, rfl⟩ := pure_eq_ok.1 h
      exact .nil ready
  | cons v rest ih =>
      rw [List.forall_mem_cons] at floats
      unfold declarators at h
      simp only [bind_eq_ok, pure_eq_ok] at h
      obtain ⟨head, d₁, lowered, more, _, others, rfl, rfl⟩ := h
      have first := declarator_resolves knows value storable floats.1 ready lowered
      have second := ih floats.2 first.ready others
      exact (first.append second).cast (fun all => by simp) rfl

theorem returned_resolves {pos : Nat} {value : Option Expr} {ops : List Op}
    (floats : Expr.FloatsOption Signless value) (ready : Ready d n)
    (h : returned cx pos value d = .ok (ops, d')) :
    Resolved d d' (Op.references ops) n (Expr.clauseReferences module n.find? value, n) := by
  cases value with
  | none =>
      simp only [returned, check_eq_ok, pure_eq_ok] at h
      obtain ⟨-, rfl, rfl⟩ := h
      exact .nil ready
  | some e =>
      simp only [returned, bind_eq_ok, check_eq_ok, liftM_eq_ok, pure_eq_ok] at h
      obtain ⟨-, ⟨code, t⟩, _, lowered, convert, _, ⟨fitted, rfl⟩, rfl, rfl⟩ := h
      refine (expr_resolves knows e floats ready lowered).cast (fun all => ?_) rfl
      simp [references_fit fitted, Op.reference?]

end

/-- What the code of a statement refers to, and the names behind it. -/
abbrev StmtResolves (cx : Surroundings) (module : List FunctionDef) (s : Stmt) : Prop :=
  ∀ {inLoop : Bool} {d d' : Draft} {n : Naming} {chunk : Chunk}, Ready d n →
    stmt cx inLoop s d = .ok (chunk, d') → Resolved d d' chunk.references n (s.resolve module n)

abbrev StmtsResolve (cx : Surroundings) (module : List FunctionDef) (ss : List Stmt) : Prop :=
  ∀ {inLoop : Bool} {d d' : Draft} {n : Naming} {chunk : Chunk}, Ready d n →
    stmts cx inLoop ss d = .ok (chunk, d') →
    Resolved d d' chunk.references n (Stmt.resolveAll module n ss)

/-- A statement in a scope of its own. -/
theorem enclosed_resolves {s : Stmt} {inLoop : Bool} {chunk : Chunk}
    (body : StmtResolves cx module s) (ready : Ready d n)
    (h : enclosed (stmt cx inLoop s) d = .ok (chunk, d')) :
    Resolved d d' chunk.references n (n.leave (s.resolve module n.enter)) := by
  obtain ⟨d₁, lowered, rfl⟩ := enclosed_eq_ok h
  exact .leave ready (body ready.enter lowered)

section

variable (knows : Knows cx module)
include knows

theorem exprStmt_resolves {e : Expr} (floats : e.Floats Signless) :
    StmtResolves cx module (.expr e) := by
  intro inLoop d d' n chunk ready h
  rw [stmt] at h
  simp only [bind_eq_ok, pure_eq_ok] at h
  obtain ⟨ops, _, lowered, rfl, rfl⟩ := h
  exact (effect_resolves knows floats ready lowered).cast (fun all => by simp)
    (by rw [Stmt.resolve])

theorem decl_resolves {p : Nat} {ty : Ty} {isConst : Bool} {vars : List Declarator}
    (floats : ∀ v ∈ vars, Expr.FloatsOption Signless v.init) :
    StmtResolves cx module (.decl p ty isConst vars) := by
  intro inLoop d d' n chunk ready h
  rw [stmt] at h
  simp only [check_eq_ok, bind_eq_ok, pure_eq_ok] at h
  obtain ⟨value, storable, ops, _, lowered, rfl, rfl⟩ := h
  have vars := declarators_resolve knows value storable floats ready lowered
  exact vars.cast (fun all => by simp) (by rw [Stmt.resolve])

theorem ifThen_resolves {c : Expr} {a : Stmt} (floats : c.Floats Signless)
    (yes : StmtResolves cx module a) : StmtResolves cx module (.ifThen c a) := by
  intro inLoop d d' n chunk ready h
  rw [stmt] at h
  simp only [bind_eq_ok, pure_eq_ok] at h
  obtain ⟨ops, d₁, lowered, part, _, loweredA, rfl, rfl⟩ := h
  have first := condition_resolves knows floats ready lowered
  have second := enclosed_resolves yes first.ready loweredA
  refine (first.append second).cast (fun all => ?_) (by rw [Stmt.resolve]; rfl)
  simp [Chunk.ifThen, Op.reference?]

theorem ifElse_resolves {c : Expr} {a b : Stmt} (floats : c.Floats Signless)
    (yes : StmtResolves cx module a) (no : StmtResolves cx module b) :
    StmtResolves cx module (.ifElse c a b) := by
  intro inLoop d d' n chunk ready h
  rw [stmt] at h
  simp only [bind_eq_ok, pure_eq_ok] at h
  obtain ⟨ops, d₁, lowered, partA, d₂, loweredA, partB, _, loweredB, rfl, rfl⟩ := h
  have first := condition_resolves knows floats ready lowered
  have second := enclosed_resolves yes first.ready loweredA
  have third := enclosed_resolves no second.ready loweredB
  refine ((first.append second).append third).cast (fun all => ?_) (by rw [Stmt.resolve]; rfl)
  simp [Chunk.ifElse, Op.reference?]

theorem whileLoop_resolves {c : Expr} {s : Stmt} (floats : c.Floats Signless)
    (body : StmtResolves cx module s) : StmtResolves cx module (.whileLoop c s) := by
  intro inLoop d d' n chunk ready h
  rw [stmt] at h
  simp only [bind_eq_ok, pure_eq_ok] at h
  obtain ⟨ops, d₁, lowered, part, _, loweredS, rfl, rfl⟩ := h
  have first := condition_resolves knows floats ready lowered
  have second := enclosed_resolves body first.ready loweredS
  refine (first.append second).cast (fun all => ?_) (by rw [Stmt.resolve]; rfl)
  simp [Chunk.testFirst, Chunk.closeLoop, Op.reference?]

theorem doWhile_resolves {c : Expr} {s : Stmt} (floats : c.Floats Signless)
    (body : StmtResolves cx module s) : StmtResolves cx module (.doWhile s c) := by
  intro inLoop d d' n chunk ready h
  rw [stmt] at h
  simp only [bind_eq_ok, pure_eq_ok] at h
  obtain ⟨part, d₁, loweredS, ops, _, lowered, rfl, rfl⟩ := h
  have first := enclosed_resolves body ready loweredS
  have second := condition_resolves knows floats first.ready lowered
  refine (first.append second).cast (fun all => ?_) (by rw [Stmt.resolve]; rfl)
  simp [Chunk.testLast, Chunk.closeLoop, Op.reference?]

theorem forLoop_resolves {i s : Stmt} {c next : Option Expr} (init : StmtResolves cx module i)
    (floatsC : Expr.FloatsOption Signless c) (floatsN : Expr.FloatsOption Signless next)
    (body : StmtResolves cx module s) : StmtResolves cx module (.forLoop i c next s) := by
  intro inLoop d d' n chunk ready h
  rw [stmt] at h
  obtain ⟨d₄, ran, rfl⟩ := enclosed_eq_ok h
  simp only [bind_eq_ok, pure_eq_ok] at ran
  obtain ⟨start, d₁, loweredI, test, d₂, loweredC, part, d₃, loweredS, step, d₅, loweredN, rfl,
    rfl⟩ := ran
  have first := init ready.enter loweredI
  have second := clause_resolves floatsC first.ready loweredC fun floats lowered =>
    condition_resolves knows floats first.ready lowered
  have third := enclosed_resolves body second.ready loweredS
  have fourth := clause_resolves floatsN third.ready loweredN fun floats lowered =>
    effect_resolves knows floats third.ready lowered
  have loop := ((first.append second).append third).append fourth
  refine Resolved.cast (.leave ready loop) (fun all => ?_) (by rw [Stmt.resolve]; rfl)
  cases test <;> simp [Chunk.testFirst, Chunk.closeLoop, Op.reference?]

end

theorem block_resolves {ss : List Stmt} (body : StmtsResolve cx module ss) :
    StmtResolves cx module (.block ss) := by
  intro inLoop d d' n chunk ready h
  rw [stmt] at h
  obtain ⟨d₁, lowered, rfl⟩ := enclosed_eq_ok h
  rw [Stmt.resolve]
  exact .leave ready (body ready.enter lowered)

/-- Statements that jump or do nothing refer to nothing. -/
theorem quiet_resolves {s : Stmt}
    (quiet : s = .empty ∨ (∃ p, s = .breakLoop p) ∨ ∃ p, s = .continueLoop p) :
    StmtResolves cx module s := by
  intro inLoop d d' n chunk ready h
  rcases quiet with rfl | ⟨p, rfl⟩ | ⟨p, rfl⟩
  all_goals
    rw [stmt] at h
    simp only [check_eq_ok, pure_eq_ok] at h
    rw [Stmt.resolve]
  · obtain ⟨rfl, rfl⟩ := h
    exact .nil ready
  · obtain ⟨-, rfl, rfl⟩ := h
    exact .nil ready
  · obtain ⟨-, rfl, rfl⟩ := h
    exact .nil ready

theorem ret_resolves (knows : Knows cx module) {p : Nat} {value : Option Expr}
    (floats : Expr.FloatsOption Signless value) : StmtResolves cx module (.ret p value) := by
  intro inLoop d d' n chunk ready h
  rw [stmt] at h
  simp only [bind_eq_ok, pure_eq_ok] at h
  obtain ⟨ops, _, lowered, rfl, rfl⟩ := h
  have value := returned_resolves knows floats ready lowered
  exact value.cast (fun all => by simp) (by rw [Stmt.resolve])

theorem nil_resolve : StmtsResolve cx module [] := by
  intro inLoop d d' n chunk ready h
  rw [stmts] at h
  obtain ⟨rfl, rfl⟩ := pure_eq_ok.1 h
  exact .nil ready

theorem cons_resolve {s : Stmt} {rest : List Stmt} (head : StmtResolves cx module s)
    (tail : StmtsResolve cx module rest) : StmtsResolve cx module (s :: rest) := by
  intro inLoop d d' n chunk ready h
  rw [stmts] at h
  simp only [bind_eq_ok, pure_eq_ok] at h
  obtain ⟨start, d₁, lowered, more, _, others, rfl, rfl⟩ := h
  have first := head ready lowered
  exact (first.append (tail first.ready others)).cast (fun all => by simp)
    (by rw [Stmt.resolveAll])

mutual

theorem stmt_resolves (knows : Knows cx module) (s : Stmt) (floats : s.Floats Signless) :
    StmtResolves cx module s :=
  match s, floats with
  | .empty, _ => quiet_resolves (.inl rfl)
  | .expr _, floats => exprStmt_resolves knows floats
  | .block ss, floats => block_resolves (stmts_resolve knows ss floats)
  | .decl .., floats => decl_resolves knows floats
  | .ifThen _ a, floats => ifThen_resolves knows floats.1 (stmt_resolves knows a floats.2)
  | .ifElse _ a b, floats =>
    ifElse_resolves knows floats.1 (stmt_resolves knows a floats.2.1)
      (stmt_resolves knows b floats.2.2)
  | .forLoop i _ _ s, floats =>
    forLoop_resolves knows (stmt_resolves knows i floats.1) floats.2.1 floats.2.2.1
      (stmt_resolves knows s floats.2.2.2)
  | .whileLoop _ s, floats => whileLoop_resolves knows floats.1 (stmt_resolves knows s floats.2)
  | .doWhile s _, floats => doWhile_resolves knows floats.1 (stmt_resolves knows s floats.2)
  | .breakLoop p, _ => quiet_resolves (.inr (.inl ⟨p, rfl⟩))
  | .continueLoop p, _ => quiet_resolves (.inr (.inr ⟨p, rfl⟩))
  | .ret .., floats => ret_resolves knows floats

theorem stmts_resolve (knows : Knows cx module) (ss : List Stmt)
    (floats : Stmt.FloatsList Signless ss) : StmtsResolve cx module ss :=
  match ss, floats with
  | [], _ => nil_resolve
  | s :: rest, floats =>
    cons_resolve (stmt_resolves knows s floats.1) (stmts_resolve knows rest floats.2)

end

/-! ## Functions -/

theorem parameters_ready {isKernel : Bool} {params : List Param} (ready : Ready d n)
    (h : parameters isKernel params d = .ok ((), d')) : d'.consts = d.consts ∧
      Ready d' (params.foldl (fun n p => n.declare p.name p.ty false) n) := by
  induction params generalizing d n with
  | nil =>
      obtain ⟨-, rfl⟩ := pure_eq_ok.1 h
      exact ⟨rfl, ready⟩
  | cons p rest ih =>
      unfold parameters at h
      simp only [check_eq_ok, bind_eq_ok] at h
      obtain ⟨-, -, slot, d₁, declared, others⟩ := h
      obtain ⟨-, same, ready'⟩ := ready.declare declared
      obtain ⟨same', later⟩ := ih ready' others
      exact ⟨same'.trans same, later⟩

end Lower

/-- A function of code and what its tree says of its operands. -/
structure FunctionRefers (module : List FunctionDef) (consts : Array Value) (f : FunctionDef)
    (g : Function) : Prop where
  name : g.name = f.name
  params : g.params = f.params.map (·.ty)
  same : Op.references g.code.toList consts = (f.resolve module).1.map Reference.narrowed
  locals : g.locals.toList = (f.resolve module).2.declared.map (·.ty)
  respects : Respects f.naming (f.resolve module)
  numbered : (f.resolve module).2.Sound

namespace Lower

theorem function_refers {lib : Library} {consts consts' : Array Value} {f : FunctionDef}
    {g : Function} (knows : Knows ⟨lib, f.name, f.ret, f.kernel⟩ module) (pool : Pool consts)
    (floats : Stmt.FloatsList Signless f.body) (h : function lib consts f = .ok (g, consts')) :
    ∀ all : Array Value, consts'.toList <+: all.toList → FunctionRefers module all f g := by
  obtain ⟨-, d, chunk, d', taken, body, rfl, rfl⟩ := function_ran h
  obtain ⟨-, ready⟩ := parameters_ready (.start pool) taken
  have resolved : Resolved d d' chunk.references f.naming (f.resolve module) :=
    stmts_resolve knows f.body floats ready body
  refine fun all later =>
    ⟨rfl, rfl, ?_, resolved.ready.locals, resolved.respects, resolved.ready.sound⟩
  rw [← resolved.same later, ← Chunk.references_ops]
  -- The last instruction, which ends the function, refers to nothing.
  split <;> simp [Op.reference?]

/-! ## Modules -/

theorem knows_of_heads {done fs : List FunctionDef} {lib : Library} {name : String} {ret : Ty}
    {kernel : Option Target} (heads : List.Forall₂ HeadOf done lib.functions.toList)
    (own : ∀ f ∈ done ++ fs, OwnName f.name) : Knows ⟨lib, name, ret, kernel⟩ (done ++ fs) where
  functions name i g found := by
    obtain ⟨f, first, there, head⟩ := find?_eq_some heads found
    obtain ⟨i, place, found⟩ := Option.bind_eq_some_iff.1 found
    obtain ⟨g, -, ⟨⟩⟩ := Option.bind_eq_some_iff.1 found
    rw [places_eq_findIdx?, ← findIdx?_heads name heads] at place
    obtain ⟨inside, index⟩ := List.findIdx?_eq_some_iff_findIdx_eq.1 place
    refine ⟨f, by simp [first], ?_, by rw [head.params, List.length_map]⟩
    rw [List.findIdx_append, index, if_pos inside]
  unnamed _ := find?_eq_none own

theorem functionsFrom_refer (done : List FunctionDef) {fs : List FunctionDef} {lib lib' : Library}
    {consts consts' : Array Value} (pool : Pool consts)
    (floats : ∀ f ∈ fs, Stmt.FloatsList Signless f.body)
    (heads : List.Forall₂ HeadOf done lib.functions.toList)
    (own : ∀ f ∈ done ++ fs, OwnName f.name)
    (h : functionsFrom lib consts fs = .ok (lib', consts')) :
    consts.toList <+: consts'.toList ∧ ∃ gs, lib'.functions.toList = lib.functions.toList ++ gs ∧
      List.Forall₂ (FunctionRefers (done ++ fs) consts') fs gs := by
  induction fs generalizing lib consts done with
  | nil =>
      cases h
      exact ⟨List.prefix_refl _, [], (List.append_nil _).symm, .nil⟩
  | cons f rest ih =>
      rw [List.forall_mem_cons] at floats
      unfold functionsFrom at h
      cases lowered : function lib consts f with
      | error => rw [lowered] at h; cases h
      | ok r =>
          obtain ⟨g, consts₁⟩ := r
          rw [lowered] at h
          have ok := function_eq_ok pool floats.1 lowered
          have heads' : List.Forall₂ HeadOf (done ++ [f]) (lib.add g).functions.toList := by
            rw [Library.add, Array.toList_push]
            exact List.rel_append heads (.cons ⟨ok.name, ok.params, ok.ret⟩ .nil)
          have split_ : done ++ f :: rest = done ++ [f] ++ rest := by simp
          obtain ⟨grown, gs, functions, more⟩ :=
            ih (done ++ [f]) ok.pool floats.2 heads' (split_ ▸ own) h
          refine ⟨ok.consts.trans grown, g :: gs, by rw [functions]; simp [Library.add], ?_⟩
          rw [← split_] at more
          exact .cons
            (function_refers (knows_of_heads heads own) pool floats.1 lowered _ grown) more

end Lower

/-- The functions of a program refer to what those of the text refer to. -/
theorem refers_of_compile {source : String} {p : Program} (h : compile source = .ok p) :
    ∃ module, parseModule source = .ok module ∧ p.functions.size = module.length ∧
      ∀ (i : Nat) (f : FunctionDef) (g : Function), module[i]? = some f → p.functions[i]? = some g →
        FunctionRefers module p.consts f g := by
  obtain ⟨module, parsed, lowered⟩ := lowerModule_of_compile h
  obtain ⟨k, target, lib, consts, -, made, rfl⟩ := lowerModule_eq_ok lowered
  have floats := floats_parseModule parsed
  obtain ⟨_, -, ok⟩ := Lower.functionsFrom_eq_ok [] .empty floats .nil made
  obtain ⟨-, gs, functions, refers⟩ := Lower.functionsFrom_refer [] .empty floats .nil ok.own made
  obtain rfl : lib.functions.toList = gs := functions
  refine ⟨module, parsed, ?_, fun i f g hf hg => ?_⟩
  · rw [← Array.length_toList, refers.length_eq]
  · rw [← Array.getElem?_toList] at hg
    obtain ⟨inside, rfl⟩ := List.getElem?_eq_some_iff.1 hf
    obtain ⟨inside', rfl⟩ := List.getElem?_eq_some_iff.1 hg
    exact refers.get inside inside'

/-- Operands of a program denote what the trees say that it was compiled from. -/
structure Program.Denotes (p : Program) (module : List FunctionDef) : Prop where
  count : p.functions.size = module.length
  /-- Each function refers to what its tree refers to, but for function numbers beyond 16 bits. -/
  operands : ∀ (i : Nat) (f : FunctionDef) (g : Function), module[i]? = some f →
    p.functions[i]? = some g →
    Op.references g.code.toList p.consts = (f.resolve module).1.map Reference.narrowed
  /-- There are no such numbers in modules of at most 65536 functions. -/
  whole : module.length ≤ 2 ^ 16 → ∀ (i : Nat) (f : FunctionDef) (g : Function),
    module[i]? = some f →
    p.functions[i]? = some g → Op.references g.code.toList p.consts = (f.resolve module).1
  /-- The number in a call is that of a function with as many parameters. -/
  calls : ∀ f ∈ module, ∀ r ∈ (f.resolve module).1, r.Within module
  /-- Each variable has a slot of its own, and the slots are numbered like the variables. -/
  slots : ∀ (i : Nat) (f : FunctionDef) (g : Function), module[i]? = some f →
    p.functions[i]? = some g →
    g.locals.toList = (f.resolve module).2.declared.map (·.ty) ∧
      ∀ (k : Nat) (x : Numbered), (f.resolve module).2.declared[k]? = some x → x.number = k

/-- No operand but that of a call is ever cut short, whatever the size of the text. -/
theorem denotes_of_compile {source : String} {p : Program} (h : compile source = .ok p) :
    ∃ module, parseModule source = .ok module ∧ p.Denotes module := by
  obtain ⟨module, parsed, count, refers⟩ := refers_of_compile h
  have calls (f : FunctionDef) : ∀ r ∈ (f.resolve module).1, r.Within module :=
    Stmt.withinAll f.body f.naming
  refine ⟨module, parsed, count, fun i f g hf hg => (refers i f g hf hg).same,
    fun few i f g hf hg => ?_, fun f _ => calls f, fun i f g hf hg =>
    ⟨(refers i f g hf hg).locals, (refers i f g hf hg).numbered.numbered⟩⟩
  rw [(refers i f g hf hg).same]
  exact (List.map_congr_left fun r mem => (calls f r mem).narrowed few).trans (List.map_id _)

/-- A constant that a call gives, and a vector of which one lane is replaced. -/
def twiceSource : String :=
  "int twice(int x) \x7b return x + x; \x7d " ++
    "kernel vec4 k() \x7b const int n = twice(3); vec4 c = vec4(n); c.z = c.w; return c; \x7d"

def twiceProgram : Program where
  functions := #[
    ⟨"twice", [.int], .int, #[.int],
      #[.load 0, .load 0, .arith .add, .ret, .missingReturn]⟩,
    ⟨"k", [], .vec4, #[.int, .vec4],
      #[.const 0, .call 0 1, .store 0, .load 0, .toFloat 0, .construct 4 1, .store 1, .load 1,
        .select [.last 3], .dup, .storeLanes 1 [(Fin.last 2).castSucc], .pop, .load 1, .ret,
        .missingReturn]⟩]
  consts := #[.int 3]
  entry := 1
  target := .normal
  arguments := []

theorem compile_twiceSource : compile twiceSource = .ok twiceProgram := by
  have made : (compile twiceSource).toOption = some twiceProgram := by decide +kernel
  cases h : compile twiceSource with
  | error d => rw [h] at made; cases made
  | ok p => rw [h] at made; cases made; rfl

theorem twiceProgram_denotes : compile twiceSource = .ok twiceProgram ∧
    ∃ module, parseModule twiceSource = .ok module ∧ twiceProgram.Denotes module :=
  ⟨compile_twiceSource, denotes_of_compile compile_twiceSource⟩

end PixelKernel.Language
