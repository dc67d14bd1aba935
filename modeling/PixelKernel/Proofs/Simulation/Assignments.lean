import PixelKernel.Proofs.Simulation.Operators

/-! # Runs of assignments -/

namespace PixelKernel.Language

open Meaning (Env Eval)

variable {σ : Type}

namespace Setting

variable {S : Setting σ} {scopes : List Scope} {pc pc' pc₁ pc₂ pc₃ : Nat} {place : Lower.Place}
  {target : Expr} {name : String} {stack : List Value} {env : Env} {m : Machine} {s : σ}
  {w : Value} {x : Eval σ (Option Value)} {t : Ty}

theorem fetch_eq {v : Meaning.Variable} (h : env.find? name = some v) (s : σ) :
    Meaning.fetch name env s = some (.ok (v, env), s) := by
  unfold Meaning.fetch
  rw [Simulates.bind_apply]
  change (Meaning.ofOption (env.find? name) : Eval σ _) env s = _
  rw [h]
  rfl

theorem var_follows {x : Local} (found : Lower.find? scopes name = some x)
    (op : S.site.code[pc]? = some (.load x.slot)) :
    S.Evaluates scopes pc (do return some (← Meaning.fetch name).value) x.ty.operand (pc + 1) := by
  intro stack env m s stands
  obtain ⟨slots, rfl, size, mirrors⟩ := stands
  obtain ⟨v, here, held⟩ := mirrors.find found
  refine .known (fetch_eq here s) (.step (Machine.step_load op held.slot) ?_)
  exact .pure ⟨held.typed, slots, rfl, size, mirrors⟩

/-- The variable or the lanes of a place are loaded. -/
theorem read_follows (goal : Lower.PlaceOf scopes target place name)
    (ops : OpsAt S.site.code pc place.read pc') :
    S.Yields scopes pc (Meaning.read name place.lanes) place.ty pc' := by
  intro stack env m s stands
  obtain ⟨x, lanes⟩ := place
  obtain ⟨found, -, -, inside⟩ := goal
  obtain ⟨slots, rfl, size, mirrors⟩ := stands
  obtain ⟨v, here, held⟩ := mirrors.find found
  obtain ⟨load, rest⟩ := Placed.cons_iff.1 ops
  refine .known (fetch_eq here s) (.step (Machine.step_load load held.slot) ?_)
  cases lanes with
  | none =>
      obtain rfl := Placed.nil_iff.1 rest
      exact .pure ⟨held.typed, slots, rfl, size, mirrors⟩
  | some lanes =>
      obtain ⟨op, rest⟩ := Placed.cons_iff.1 rest
      obtain rfl := Placed.nil_iff.1 rest
      obtain ⟨n, width, below, typed⟩ := inside lanes rfl
      obtain ⟨w, made, wt⟩ := Value.select_of_ty (held.typed ▸ width) below typed
      dsimp only
      rw [made]
      exact .step (Machine.step_onTop op rfl (fun _ => rfl) made)
        (.pure ⟨wt, slots, rfl, size, mirrors⟩)

/-- The value on top is written to a place. -/
theorem write_follows (goal : Lower.PlaceOf scopes target place name) (typed : w.ty = place.ty)
    (op : S.site.code[pc]? = some place.write)
    (stands : S.Stands scopes pc (w :: stack) env m) :
    Simulates S.program S.cx.host S.cx.fuel (Meaning.write name place.lanes w env s) m s
      fun (_, env) m => S.Stands scopes (pc + 1) stack env m := by
  obtain ⟨x, lanes⟩ := place
  obtain ⟨found, -, -, inside⟩ := goal
  obtain ⟨slots, rfl, size, mirrors⟩ := stands
  obtain ⟨v, here, held⟩ := mirrors.find found
  refine .known (fetch_eq here s) ?_
  cases lanes with
  | none =>
      refine .step (Machine.step_store op held.slot) (.pure ⟨_, rfl, ?_, mirrors.assign found typed⟩)
      rw [Array.set!_eq_setIfInBounds, Array.size_setIfInBounds, size]
  | some lanes =>
      obtain ⟨n, width, -, ofLanes⟩ := inside lanes rfl
      obtain ⟨new, made, nt⟩ := Value.replace_of_ty (v := v.value) lanes
        (by rw [held.typed, width]; rfl) (by rw [typed, Ty.lanes?_ofLanes? ofLanes]; rfl)
      dsimp only
      rw [made]
      refine .step (Machine.step_storeLanes op held.slot made)
        (.pure ⟨_, rfl, ?_, mirrors.assign found (nt.trans held.typed)⟩)
      rw [Array.set!_eq_setIfInBounds, Array.size_setIfInBounds, size]

/-- An assignment is an expression: what was written stays on top. -/
theorem assignment_follows (goal : Lower.PlaceOf scopes target place name)
    (typed : w.ty = place.ty) (ops : OpsAt S.site.code pc [.dup, place.write] pc')
    (stands : S.Stands scopes pc (w :: stack) env m) :
    Simulates S.program S.cx.host S.cx.fuel
      ((do Meaning.write name place.lanes w; return some w : Eval σ (Option Value)) env s) m s
      fun (r, env) m => HasTy r place.ty ∧ S.Stands scopes pc' (r.toList ++ stack) env m := by
  obtain ⟨dup, rest⟩ := Placed.cons_iff.1 ops
  obtain ⟨op, rest⟩ := Placed.cons_iff.1 rest
  obtain rfl := Placed.nil_iff.1 rest
  obtain ⟨slots, rfl, size, mirrors⟩ := stands
  refine .step (Machine.step_dup dup) ?_
  refine (write_follows goal typed op ⟨slots, rfl, size, mirrors⟩).bind fun _ env s m stands => ?_
  exact .pure ⟨typed, stands⟩

theorem placeTy_eq (place : Lower.Place) :
    Meaning.placeTy place.var.ty place.lanes = place.ty := by
  obtain ⟨x, lanes⟩ := place
  cases lanes <;> rfl

theorem Stands.mirrors (h : S.Stands scopes pc stack env m) : ∃ slots, Mirrors slots scopes env :=
  ⟨_, h.choose_spec.2.2⟩

/-- A variable in scope has a value. -/
theorem place_ne_void (goal : Lower.PlaceOf scopes target place name)
    (stands : S.Stands scopes pc stack env m) : place.ty ≠ .void := by
  obtain ⟨x, lanes⟩ := place
  obtain ⟨found, -, -, inside⟩ := goal
  cases lanes with
  | none =>
      obtain ⟨slots, mirrors⟩ := stands.mirrors
      obtain ⟨v, -, held⟩ := mirrors.find found
      change x.ty.operand ≠ .void
      exact held.typed ▸ v.value.ty_ne_void
  | some lanes =>
      obtain ⟨-, -, -, typed⟩ := inside lanes rfl
      intro void
      cases void ▸ Ty.lanes?_ofLanes? typed

theorem assign_follows (goal : Lower.PlaceOf scopes target place name)
    (value : S.Evaluates scopes pc x t pc₁) (fits : Fits t place.ty)
    (fit : FitAt S.site.code pc₁ t place.ty pc₂)
    (ops : OpsAt S.site.code pc₂ [.dup, place.write] pc') :
    S.Evaluates scopes pc (do
      let (name, lanes) ← Meaning.ofOption (Meaning.place? target)
      let v ← Meaning.operand x
      let v := Meaning.fit (Meaning.placeTy (← Meaning.fetch name).ty lanes) v
      Meaning.write name lanes v
      return some v) place.ty pc' := by
  intro stack env m s stands
  refine .known (by rw [goal.means]; rfl) ?_
  have nonvoid := fits_ne_void fits (place_ne_void goal stands)
  refine (value.operand nonvoid stands).bind fun v env₁ s₁ m₁ ⟨vt, stands₁⟩ => ?_
  obtain ⟨slots, mirrors⟩ := stands₁.mirrors
  obtain ⟨wt, n, m₂, reaches, stands₂⟩ := fit_follows fit vt stands₁
  obtain ⟨u, here, held⟩ := mirrors.find goal.found
  refine .steps reaches (.known (fetch_eq here s₁) ?_)
  dsimp only
  rw [held.ty, placeTy_eq, fit_eq_become (vt ▸ fits)]
  exact assignment_follows goal wt ops stands₂

theorem operands_of_arithResult? {l r t : Ty} (h : Lower.arithResult? l r = some t) :
    (l = .int ∧ r = .int) ∨ (l.lanes?.isSome ∧ r.lanes?.isSome) := by
  unfold Lower.arithResult? at h
  split at h
  next ints => exact .inl ints
  next =>
    split at h
    next lw rw left right => exact .inr ⟨by rw [left]; rfl, by rw [right]; rfl⟩
    next => cases h

/-- Of the operands of a compound assignment only the right one is converted. -/
theorem promote_eq_become {a b : Value} {w t : Ty}
    (promoted : w = if b.ty = .int ∧ a.ty ≠ .int then .float else b.ty)
    (typed : Lower.arithResult? a.ty w = some t) : Meaning.promote a b = (a, become w b) := by
  by_cases convert : b.ty = .int ∧ a.ty ≠ .int
  · obtain ⟨n, rfl⟩ := Value.int_of_ty convert.1
    have lanes := (operands_of_arithResult? typed).resolve_left fun ints => convert.2 ints.1
    rw [promoted, if_pos convert, promote_above n lanes.1]
    rfl
  · rw [if_neg convert] at promoted
    subst promoted
    rw [become, if_pos rfl]
    refine promote_alike (fun left => ?_) fun right => convert ⟨right.1, right.2.1⟩
    rcases operands_of_arithResult? typed with ints | lanes
    · exact left.2.1 ints.2
    · rw [left.1] at lanes
      cases lanes.1

theorem combine_follows {op : ArithOp} {w : Ty} (goal : Lower.PlaceOf scopes target place name)
    (read : OpsAt S.site.code pc place.read pc₁) (value : S.Evaluates scopes pc₁ x t pc₂)
    (fit : FitAt S.site.code pc₂ t w pc₃)
    (promoted : w = if t = .int ∧ place.ty ≠ .int then .float else t)
    (typed : Lower.arithResult? place.ty w = some place.ty)
    (ops : OpsAt S.site.code pc₃ [.arith op, .dup, place.write] pc') :
    S.Evaluates scopes pc (do
      let (name, lanes) ← Meaning.ofOption (Meaning.place? target)
      let old ← Meaning.read name lanes
      let v ← Meaning.operand x
      let (old, v) := Meaning.promote old v
      let new ← Meaning.ofExcept (Value.arith op old v)
      Meaning.write name lanes new
      return some new) place.ty pc' := by
  intro stack env m s stands
  refine .known (by rw [goal.means]; rfl) ?_
  refine (read_follows goal read stands).bind fun old env₁ s₁ m₁ ⟨ot, stands₁⟩ => ?_
  have nonvoid : t ≠ .void := by
    rintro rfl
    rw [promoted, if_neg (by simp)] at typed
    rcases operands_of_arithResult? typed with ⟨-, ⟨⟩⟩ | ⟨-, ⟨⟩⟩
  refine (value.operand nonvoid stands₁).bind fun v env₂ s₂ m₂ ⟨vt, stands₂⟩ => ?_
  obtain ⟨wt, n, m₃, reaches, stands₃⟩ := fit_follows fit vt stands₂
  have same : Meaning.promote old v = (old, become w v) :=
    promote_eq_become (by rw [ot, vt, promoted]) (by rw [ot, typed])
  rw [← ot, ← wt] at typed
  obtain ⟨new, made, nt⟩ := Value.arith_of_ty op typed
  obtain ⟨instr, rest⟩ := Placed.cons_iff.1 ops
  obtain ⟨slots, rfl, size, mirrors⟩ := stands₃
  dsimp only
  rw [same]
  refine .steps reaches (.known (by rw [made]; rfl) ?_)
  refine .step (Machine.step_onTwo instr rfl (fun _ => rfl) made) ?_
  exact assignment_follows goal (nt.trans ot) rest ⟨slots, rfl, size, mirrors⟩

theorem step_follows {v : Local} {increment leading : Bool} {i : UInt32}
    (goal : Lower.PlaceOf scopes target ⟨v, none⟩ name) (ordered : v.ty.isOrdered = true)
    (one : S.site.consts[i.toNat]? = some (if v.ty = .int then .int 1 else .float 1))
    (ops : OpsAt S.site.code pc (stepOps v.slot i (if increment then .add else .sub) leading) pc') :
    S.Evaluates scopes pc (do
      let (name, lanes) ← Meaning.ofOption (Meaning.place? target)
      let old ← Meaning.read name lanes
      let one := if old.ty = .int then Value.int 1 else .float 1
      let new ← Meaning.ofExcept (Value.arith (if increment then .add else .sub) old one)
      Meaning.write name lanes new
      return some (if leading then new else old)) v.ty pc' := by
  intro stack env m s stands
  refine .known (by rw [goal.means]; rfl) ?_
  have result (old : Value) (typed : old.ty = v.ty.operand) :
      S.site.consts[i.toNat]? = some (if old.ty = .int then .int 1 else .float 1) ∧
        ∃ new, Value.arith (if increment then .add else .sub) old
          (if old.ty = .int then .int 1 else .float 1) = .ok new ∧ new.ty = v.ty.operand := by
    rw [Ty.operand_of_isOrdered ordered] at typed ⊢
    rw [typed]
    refine ⟨one, Value.arith_of_ty _ ?_⟩
    rw [typed]
    cases h : v.ty with
    | int | float => rfl
    | _ => rw [h] at ordered; cases ordered
  unfold stepOps at ops
  cases leading with
  | true =>
      obtain ⟨load, ops⟩ := Placed.cons_iff.1 ops
      obtain ⟨const, ops⟩ := Placed.cons_iff.1 ops
      obtain ⟨arith, ops⟩ := Placed.cons_iff.1 ops
      refine (read_follows goal (.cons load .nil) stands).bind fun old env₁ s₁ m₁ ⟨ot, stands₁⟩ => ?_
      obtain ⟨slots, rfl, size, mirrors⟩ := stands₁
      obtain ⟨loaded, new, made, nt⟩ := result old ot
      refine .known (by rw [made]; rfl) (.step (Machine.step_const const loaded) ?_)
      refine .step (Machine.step_onTwo arith rfl (fun _ => rfl) made) ?_
      rw [← Ty.operand_of_isOrdered ordered]
      exact assignment_follows goal nt ops ⟨slots, rfl, size, mirrors⟩
  | false =>
      obtain ⟨load, ops⟩ := Placed.cons_iff.1 ops
      obtain ⟨dup, ops⟩ := Placed.cons_iff.1 ops
      obtain ⟨const, ops⟩ := Placed.cons_iff.1 ops
      obtain ⟨arith, ops⟩ := Placed.cons_iff.1 ops
      obtain ⟨store, ops⟩ := Placed.cons_iff.1 ops
      obtain rfl := Placed.nil_iff.1 ops
      refine (read_follows goal (.cons load .nil) stands).bind fun old env₁ s₁ m₁ ⟨ot, stands₁⟩ => ?_
      obtain ⟨slots, rfl, size, mirrors⟩ := stands₁
      obtain ⟨loaded, new, made, nt⟩ := result old ot
      refine .known (by rw [made]; rfl) (.step (Machine.step_dup dup) ?_)
      refine .step (Machine.step_const const loaded) ?_
      refine .step (Machine.step_onTwo arith rfl (fun _ => rfl) made) ?_
      refine (write_follows goal nt store ⟨slots, rfl, size, mirrors⟩).bind
        fun _ env₂ s₂ m₂ stands₂ => ?_
      exact .pure ⟨ot.trans (Ty.operand_of_isOrdered ordered), stands₂⟩

end Setting

end PixelKernel.Language
