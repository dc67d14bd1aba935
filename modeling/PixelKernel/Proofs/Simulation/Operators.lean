import PixelKernel.Proofs.Simulation.Setting

/-! # Runs of operators

Each instruction is executed in step with the part of the evaluation it belongs to. The types
that lowering worked with are the types of the values found.
-/

namespace PixelKernel.Language

open Meaning (Env Eval)

variable {σ : Type}

namespace Setting

variable {S : Setting σ} {scopes : List Scope} {pc pc' pc₁ : Nat} {x y z : Eval σ (Option Value)}
  {t : Ty}

/-- An instruction that replaces a value on top of the stack. -/
theorem Yields.apply {x : Eval σ Value} {f : Value → Except Trap Value} {t' : Ty}
    (h : S.Yields scopes pc x t pc₁)
    (op : ∀ v, v.ty = t → ∃ w, f v = .ok w ∧ w.ty = t' ∧ ∀ slots stack s,
      Machine.Does S.program S.cx.host ⟨⟨S.function, pc₁, slots, v :: stack⟩, S.callers⟩ s
        (.go ⟨⟨S.function, pc₁ + 1, slots, w :: stack⟩, S.callers⟩ s)) :
    S.Evaluates scopes pc (do
      let v ← x
      return some (← Meaning.ofExcept (f v))) t' (pc₁ + 1) := by
  intro stack env m s stands
  refine (h stands).bind fun v env' s' m' ⟨typed, stands'⟩ => ?_
  obtain ⟨slots, rfl, size, mirrors⟩ := stands'
  obtain ⟨w, made, typed', step⟩ := op v typed
  rw [made]
  exact .step (step ..) (.pure ⟨typed', slots, rfl, size, mirrors⟩)

theorem unary_follows {op : UnaryOp} {o : Op} (operand : S.Evaluates scopes pc x t pc₁)
    (typed : Lower.unaryResult op t = .ok o) (instr : S.site.code[pc₁]? = some o) :
    S.Evaluates scopes pc (do
      let v ← Meaning.operand x
      return some (← Meaning.ofExcept (Meaning.unary op v))) t (pc₁ + 1) := by
  unfold Lower.unaryResult at typed
  cases op with
  | neg =>
      dsimp only at typed
      split at typed
      next number =>
        cases typed
        have value : t ≠ .void := by
          rintro rfl
          rcases number with h | h <;> cases h
        refine (operand.operand value).apply fun v vt => ?_
        obtain ⟨w, made, wt⟩ := Value.neg_of_ty (vt ▸ number)
        exact ⟨w, made, wt.trans vt, fun _ _ _ =>
          Machine.step_onTop instr rfl (fun _ => rfl) made⟩
      next => cases typed
  | not =>
      dsimp only at typed
      split at typed
      next bool =>
        cases typed
        subst bool
        refine (operand.operand nofun).apply fun v vt => ?_
        obtain ⟨b, rfl⟩ := Value.bool_of_ty vt
        exact ⟨.bool !b, rfl, rfl, fun _ _ _ => Machine.step_onTop instr rfl (fun _ => rfl) rfl⟩
      next => cases typed

theorem logic_follows {op : LogicOp} {skip : Int32} (left : S.Evaluates scopes pc x .bool pc₁)
    (dup : S.site.code[pc₁]? = some .dup)
    (leave : S.site.code[pc₁ + 1]? = some (match op with
      | .and => .jumpIfFalse skip
      | .or => .jumpIfTrue skip))
    (pop : S.site.code[pc₁ + 2]? = some .pop) (right : S.Evaluates scopes (pc₁ + 3) y .bool pc')
    (lands : Leads S.site.code (pc₁ + 1) skip pc') :
    S.Evaluates scopes pc (do
      let left ← Meaning.bool x
      if left = (op == .and) then return some (.bool (← Meaning.bool y))
      else return some (.bool left)) .bool pc' := by
  intro stack env m s stands
  refine (left.bool stands).bind fun b env' s' m' stands' => ?_
  obtain ⟨slots, rfl, size, mirrors⟩ := stands'
  have step : ∀ s, Machine.Does S.program S.cx.host
      ⟨⟨S.function, pc₁ + 1, slots, .bool b :: .bool b :: stack⟩, S.callers⟩ s
        (.go ⟨⟨S.function, if b = (op == .and) then pc₁ + 2 else pc', slots, .bool b :: stack⟩,
          S.callers⟩ s) := by
    intro s
    cases op with
    | and => cases b <;> exact Machine.step_jumpIfFalse leave lands
    | or => cases b <;> exact Machine.step_jumpIfTrue leave lands
  refine .step (Machine.step_dup dup) (.step (step _) ?_)
  split
  next goesOn =>
    refine .step (Machine.step_pop pop) ?_
    refine (right.bool ⟨slots, rfl, size, mirrors⟩).bind fun c env'' s'' m'' stands'' => ?_
    exact .pure ⟨rfl, stands''⟩
  next => exact .pure ⟨rfl, slots, rfl, size, mirrors⟩

theorem promote_below {b : Value} (n : Int32) (h : b.ty.lanes?.isSome) :
    Meaning.promote (.int n) b = (.float n.toFloat32, b) := by
  unfold Meaning.promote
  rw [Value.isSome_lanes? b, if_pos h]
  rfl

theorem promote_above {a : Value} (n : Int32) (h : a.ty.lanes?.isSome) :
    Meaning.promote a (.int n) = (a, .float n.toFloat32) := by
  unfold Meaning.promote
  rw [Value.isSome_lanes? a, if_pos h]
  rfl

theorem widen_of_ne {v : Value} (h : v.ty ≠ .int) : Meaning.widen v = v := by
  cases v with
  | int n => exact absurd rfl h
  | _ => rfl

theorem promote_alike {a b : Value} (ha : ¬(a.ty = .int ∧ b.ty ≠ .int ∧ b.ty.lanes?.isSome))
    (hb : ¬(b.ty = .int ∧ a.ty ≠ .int ∧ a.ty.lanes?.isSome)) : Meaning.promote a b = (a, b) := by
  have vector {t : Ty} (lanes : t.lanes?.isSome) : t ≠ .int := by
    rintro rfl
    cases lanes
  unfold Meaning.promote
  rw [Value.isSome_lanes?, Value.isSome_lanes?]
  congr 1
  · split
    next lanes => exact widen_of_ne fun int => ha ⟨int, vector lanes, lanes⟩
    next => rfl
  · split
    next lanes => exact widen_of_ne fun int => hb ⟨int, vector lanes, lanes⟩
    next => rfl

/-- The int beside a float or a vector is converted where it lies. -/
theorem promote_follows {a b : Value} {stack : List Value} {env : Env} {m : Machine} {s : σ}
    (ops : OpsAt S.site.code pc (Lower.promote a.ty b.ty).1 pc')
    (stands : S.Stands scopes pc (b :: a :: stack) env m) :
    (Meaning.promote a b).1.ty = (Lower.promote a.ty b.ty).2.1 ∧
      (Meaning.promote a b).2.ty = (Lower.promote a.ty b.ty).2.2 ∧
      ∃ n m', Machine.Reaches S.program S.cx.host n m s m' s ∧ S.Stands scopes pc'
        ((Meaning.promote a b).2 :: (Meaning.promote a b).1 :: stack) env m' := by
  obtain ⟨slots, rfl, size, mirrors⟩ := stands
  unfold Lower.promote at ops ⊢
  split at ops
  next left =>
    obtain ⟨n, rfl⟩ := Value.int_of_ty left.1
    obtain ⟨op, rest⟩ := Placed.cons_iff.1 ops
    obtain rfl := Placed.nil_iff.1 rest
    rw [if_pos left, promote_below n left.2.2]
    exact ⟨rfl, rfl, 1, _, .one (Machine.step_toFloat_below op rfl), slots, rfl, size, mirrors⟩
  next notLeft =>
    rw [if_neg notLeft]
    split at ops
    next right =>
      obtain ⟨n, rfl⟩ := Value.int_of_ty right.1
      obtain ⟨op, rest⟩ := Placed.cons_iff.1 ops
      obtain rfl := Placed.nil_iff.1 rest
      rw [if_pos right, promote_above n right.2.2]
      exact ⟨rfl, rfl, 1, _, .one (Machine.step_toFloat op rfl), slots, rfl, size, mirrors⟩
    next notRight =>
      obtain rfl := Placed.nil_iff.1 ops
      rw [if_neg notRight, promote_alike notLeft notRight]
      exact ⟨rfl, rfl, 0, _, .refl, slots, rfl, size, mirrors⟩

/-- Operators are resolved for operands that have values. -/
theorem operands_of_operator? {op : BinaryOp} {l r t : Ty} {o : Op}
    (h : Lower.operator? op (Lower.promote l r).2.1 (Lower.promote l r).2.2 = some (o, t)) :
    l ≠ .void ∧ r ≠ .void := by
  constructor
  · rintro rfl
    rw [show Lower.promote .void r = ([], .void, r) by cases r <;> rfl] at h
    cases op with
    | arith op => cases r <;> cases h
    | order op => cases op <;> cases r <;> cases h
    | logic op => cases h
  · rintro rfl
    rw [show Lower.promote l .void = ([], l, .void) by cases l <;> rfl] at h
    cases op with
    | arith op => cases l <;> cases h
    | order op => cases op <;> cases l <;> cases h
    | logic op => cases h

theorem binary_of_ty {op : BinaryOp} {a b : Value} {o : Op} {t : Ty}
    (h : Lower.operator? op a.ty b.ty = some (o, t)) :
    ∃ w, Meaning.binary op a b = .ok w ∧ w.ty = t ∧ ∀ {pc : Nat} {slots stack s},
      S.site.code[pc]? = some o →
      Machine.Does S.program S.cx.host ⟨⟨S.function, pc, slots, b :: a :: stack⟩, S.callers⟩ s
        (.go ⟨⟨S.function, pc + 1, slots, w :: stack⟩, S.callers⟩ s) := by
  unfold Lower.operator? at h
  cases op with
  | arith op =>
      obtain ⟨r, typed, ⟨⟩⟩ := Option.map_eq_some_iff.1 h
      obtain ⟨w, made, wt⟩ := Value.arith_of_ty op typed
      exact ⟨w, made, wt, fun instr => Machine.step_onTwo instr rfl (fun _ => rfl) made⟩
  | order op =>
      have checked : a.ty = b.ty ∧ (op = .eq ∨ op = .ne ∨ a.ty.isOrdered) ∧ a.ty ≠ .sampler ∧
          o = .compare op ∧ t = .bool := by
        dsimp only at h
        split at h
        · obtain ⟨c, ⟨⟩⟩ := Option.ite_none_right_eq_some.1 h
          exact ⟨c.1, .inl rfl, c.2.1, rfl, rfl⟩
        · obtain ⟨c, ⟨⟩⟩ := Option.ite_none_right_eq_some.1 h
          exact ⟨c.1, .inr (.inl rfl), c.2.1, rfl, rfl⟩
        · obtain ⟨c, ⟨⟩⟩ := Option.ite_none_right_eq_some.1 h
          refine ⟨c.1, .inr (.inr c.2), ?_, rfl, rfl⟩
          intro sampler
          rw [sampler] at c
          cases c.2
      obtain ⟨same, ordered, value, rfl, rfl⟩ := checked
      obtain ⟨c, made⟩ := Value.compare_of_ty op same ordered
      exact ⟨.bool c, by rw [Meaning.binary, made]; rfl, rfl, fun instr =>
        Machine.step_compare instr value made⟩
  | logic op => cases h

theorem binary_follows {op : BinaryOp} {l r t : Ty} {pc₂ pc₃ : Nat} {o : Op}
    (left : S.Evaluates scopes pc x l pc₁) (right : S.Evaluates scopes pc₁ y r pc₂)
    (promoted : OpsAt S.site.code pc₂ (Lower.promote l r).1 pc₃)
    (typed : Lower.operator? op (Lower.promote l r).2.1 (Lower.promote l r).2.2 = some (o, t))
    (instr : S.site.code[pc₃]? = some o) :
    S.Evaluates scopes pc (do
      let left ← Meaning.operand x
      let right ← Meaning.operand y
      let (left, right) := Meaning.promote left right
      return some (← Meaning.ofExcept (Meaning.binary op left right))) t (pc₃ + 1) := by
  obtain ⟨lv, rv⟩ := operands_of_operator? typed
  intro stack env m s stands
  refine (left.operand lv stands).bind fun a env₁ s₁ m₁ ⟨at_, stands₁⟩ => ?_
  refine (right.operand rv stands₁).bind fun b env₂ s₂ m₂ ⟨bt, stands₂⟩ => ?_
  subst at_ bt
  obtain ⟨ta, tb, n, m₃, reaches, stands₃⟩ := promote_follows promoted stands₂
  obtain ⟨slots, rfl, size, mirrors⟩ := stands₃
  rw [← ta, ← tb] at typed
  obtain ⟨w, made, wt, step⟩ := binary_of_ty typed
  dsimp only
  rw [made]
  exact .steps reaches (.step (step instr) (.pure ⟨wt, slots, rfl, size, mirrors⟩))

theorem ternary_follows {c a b : Expr} {p : Nat} {s t r : Ty} {pc₂ pc₃ pc₄ pc₅ : Nat}
    {skip : Int32} (typed : Meaning.typeOf? S.cx.module (typesIn scopes) (.ternary p c a b) = some r)
    (cond : S.Evaluates scopes pc x .bool pc₁)
    (branch : S.site.code[pc₁]? = some (.jumpIfFalse skip))
    (yes : S.Evaluates scopes (pc₁ + 1) y s pc₂) (fitYes : FitAt S.site.code pc₂ s r pc₃)
    (past : JumpAt S.site.code pc₃ pc₅) (no : S.Evaluates scopes (pc₃ + 1) z t pc₄)
    (fitNo : FitAt S.site.code pc₄ t r pc₅) (lands : Leads S.site.code pc₁ skip (pc₃ + 1))
    (joined : Joins s t r) :
    S.Evaluates scopes pc (do
      let t ← Meaning.ofOption (Meaning.typeOf? S.cx.module (← get).ty? (.ternary p c a b))
      let c ← Meaning.bool x
      let v ← if c then Meaning.operand y else Meaning.operand z
      return some (Meaning.fit t v)) r pc₅ := by
  obtain ⟨fitsYes, fitsNo, -, value⟩ := joined
  intro stack env m st stands
  obtain ⟨slots, rfl, size, mirrors⟩ := stands
  have types : env.ty? = typesIn scopes := funext mirrors.ty?_eq
  refine .known rfl (.known (by rw [types, typed]; rfl) ?_)
  refine (cond.bool ⟨slots, rfl, size, mirrors⟩).bind fun c env₁ s₁ m₁ stands₁ => ?_
  obtain ⟨slots₁, rfl, size₁, mirrors₁⟩ := stands₁
  refine .step (Machine.step_jumpIfFalse branch lands) ?_
  cases c with
  | true =>
      refine (yes.operand (fits_ne_void fitsYes value) ⟨slots₁, rfl, size₁, mirrors₁⟩).bind
        fun v env₂ s₂ m₂ ⟨vt, stands₂⟩ => ?_
      obtain ⟨wt, n, m₃, reaches, slots₃, rfl, size₃, mirrors₃⟩ := fit_follows fitYes vt stands₂
      dsimp only
      rw [fit_eq_become (vt ▸ fitsYes)]
      exact .steps reaches (.step (Machine.step_jump past) (.pure ⟨wt, slots₃, rfl, size₃, mirrors₃⟩))
  | false =>
      refine (no.operand (fits_ne_void fitsNo value) ⟨slots₁, rfl, size₁, mirrors₁⟩).bind
        fun v env₂ s₂ m₂ ⟨vt, stands₂⟩ => ?_
      obtain ⟨wt, n, m₃, reaches, stands₃⟩ := fit_follows fitNo vt stands₂
      dsimp only
      rw [fit_eq_become (vt ▸ fitsNo)]
      exact .steps reaches (.pure ⟨wt, stands₃⟩)

end Setting

end PixelKernel.Language
