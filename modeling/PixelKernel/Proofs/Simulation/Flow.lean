import PixelKernel.Proofs.Simulation.Expressions

/-! # Ends of statements

A statement's run arrives behind its code, at the place that a jump out of the loop leads to,
or at a return. Scopes that were opened on the way are closed again in the tree, while the
code has nothing to do for it.
-/

namespace PixelKernel.Language

open Meaning (Env Eval Flow)

variable {σ α : Type}

namespace Setting

variable {S : Setting σ} {loop : Option Loop} {scopes scopes' scopes₁ : List Scope}
  {pc pc' pc₁ : Nat}

/-- The next step leaves the function with its result. -/
def Returns (S : Setting σ) (v : Option Value) (m : Machine) : Prop :=
  HasTy v S.cx.ret.operand ∧
    ∀ s, Machine.Does S.program S.cx.host m s (Machine.leave S.callers v s)

/-- Where a run arrives. At a jump, the scopes that are still open are among `there`. -/
def Arrives (S : Setting σ) (loop : Option Loop) (there : List Scope → Prop) (pc' : Nat)
    (scopes' : List Scope) (stack : List Value) : Flow × Env → Machine → Prop
  | (.next, env), m => S.Stands scopes' pc' stack env m
  | (.breakOut, env), m =>
    ∃ l scopes, loop = some l ∧ there scopes ∧ S.Stands scopes l.stop stack env m
  | (.continueOn, env), m =>
    ∃ l scopes, loop = some l ∧ there scopes ∧ S.Stands scopes l.again stack env m
  | (.ret v, _), m => S.Returns v m

/-- The code from `pc` to `pc'` executes a statement. Behind it and at jumps, the outer scopes
    are those that it started with. -/
def Executes (S : Setting σ) (loop : Option Loop) (scopes : List Scope) (pc : Nat)
    (x : Eval σ Flow) (pc' : Nat) (scopes' : List Scope) : Prop :=
  S.Follows scopes pc x (S.Arrives loop (·.tail = scopes.tail) pc' scopes')

/-- The same where all scopes opened on the way were closed. -/
def Encloses (S : Setting σ) (loop : Option Loop) (scopes : List Scope) (pc : Nat)
    (x : Eval σ Flow) (pc' : Nat) : Prop :=
  S.Follows scopes pc x (S.Arrives loop (· = scopes) pc' scopes)

theorem Encloses.executes {x : Eval σ Flow} (h : S.Encloses loop scopes pc x pc') :
    S.Executes loop scopes pc x pc' scopes := by
  intro stack env m s stands
  refine (h stands).imp ?_
  rintro ⟨flow, env'⟩ m' arrives
  cases flow with
  | next => exact arrives
  | breakOut | continueOn =>
      obtain ⟨l, scopes₁, inside, rfl, stands'⟩ := arrives
      exact ⟨l, scopes₁, inside, rfl, stands'⟩
  | ret v => exact arrives

theorem Stands.close {stack : List Value} {env : Env} {m : Machine}
    (h : S.Stands scopes pc stack env m) : S.Stands scopes.tail pc stack env.tail m := by
  obtain ⟨slots, rfl, size, mirrors⟩ := h
  exact ⟨slots, rfl, size, mirrors.leave⟩

theorem Executes.enclosed {x : Eval σ Flow} (h : S.Executes loop (∅ :: scopes) pc x pc' scopes')
    (tail : scopes'.tail = scopes) : S.Encloses loop scopes pc (Meaning.enclosed x) pc' := by
  intro stack env m s stands
  obtain ⟨slots, rfl, size, mirrors⟩ := stands
  have opened : (modify fun scopes => [] :: scopes : Eval σ Unit) env s =
      some (.ok ((), [] :: env), s) := rfl
  refine .known opened ?_
  refine (h ⟨slots, rfl, size, mirrors.enter⟩).bind fun flow env₁ s₁ m₁ arrives => ?_
  have closed : (modify List.tail : Eval σ Unit) env₁ s₁ = some (.ok ((), env₁.tail), s₁) := rfl
  refine .known closed (.pure ?_)
  cases flow with
  | next => exact tail ▸ Stands.close arrives
  | breakOut | continueOn =>
      obtain ⟨l, scopes₁, inside, outer, stands'⟩ := arrives
      rw [List.tail_cons] at outer
      exact ⟨l, scopes, inside, rfl, outer ▸ stands'.close⟩
  | ret v => exact arrives

/-! ## Effects and conditions -/

theorem effect_follows {e : Expr} (h : EffectAt S.site scopes pc e pc') :
    S.Follows scopes pc (Meaning.effect S.cx (some e)) fun stack (_, env) m =>
      S.Stands scopes pc' stack env m := by
  obtain ⟨t, pc₁, at_, dropped⟩ := h
  intro stack env m s stands
  change Simulates _ _ _ ((Meaning.expr S.cx e >>= fun _ => Pure.pure ()) env s) _ _ _
  refine (at_.evaluates stands).bind fun r env₁ s₁ m₁ ⟨typed, stands₁⟩ => ?_
  rcases dropped with ⟨rfl, rfl⟩ | ⟨value, pop, rfl⟩
  · cases r with
    | none => exact .pure stands₁
    | some v => exact absurd typed v.ty_ne_void
  · cases r with
    | none => exact absurd typed value
    | some v =>
        obtain ⟨slots, rfl, size, mirrors⟩ := stands₁
        exact .step (Machine.step_pop pop) (.pure ⟨slots, rfl, size, mirrors⟩)

theorem test_follows {e : Expr} {stop : Nat} (h : TestAt S.site scopes pc e stop pc') :
    S.Follows scopes pc (Meaning.bool (Meaning.expr S.cx e)) fun stack (b, env) m =>
      S.Stands scopes (if b then pc' else stop) stack env m := by
  obtain ⟨pc₁, skip, at_, branch, lands, rfl⟩ := h
  intro stack env m s stands
  refine (at_.evaluates.bool stands).finish fun (b, env₁) s₁ m₁ stands₁ => ?_
  obtain ⟨slots, rfl, size, mirrors⟩ := stands₁
  refine ⟨1, _, .one (Machine.step_jumpIfFalse branch lands), slots, ?_, size, mirrors⟩
  cases b <;> rfl

/-! ## Declarations -/

theorem declare_follows {name : String} {x : Local} {w : Value} {stack : List Value} {env : Env}
    {m : Machine} {s : σ} (declared : Declared S.site.slots scopes name x scopes')
    (typed : w.ty = x.ty.operand) (store : S.site.code[pc]? = some (.store x.slot))
    (stands : S.Stands scopes pc (w :: stack) env m) :
    ∃ m', Machine.Does S.program S.cx.host m s (.go m' s) ∧
      S.Stands scopes' (pc + 1) stack (env.declare name ⟨x.ty, w⟩) m' := by
  obtain ⟨slots, rfl, size, mirrors⟩ := stands
  have room : x.slot.toNat < slots.size := size ▸ declared.room
  refine ⟨_, Machine.step_store store (Array.getElem?_eq_getElem room), _, rfl, ?_,
    mirrors.declare size declared typed⟩
  rw [Array.set!_eq_setIfInBounds, Array.size_setIfInBounds, size]

/-- A value that was made to fit a variable or a result. -/
theorem fitted_follows {x : Eval σ (Option Value)} {t ty : Ty}
    (value : S.Evaluates scopes pc x t pc₁) (nonvoid : ty ≠ .void) (fits : Fits t ty.operand)
    (fit : FitAt S.site.code pc₁ t ty.operand pc') :
    S.Yields scopes pc (Meaning.fit ty <$> Meaning.operand x) ty.operand pc' := by
  intro stack env m s stands
  change Simulates _ _ _ ((Meaning.operand x >>= fun v => Pure.pure (Meaning.fit ty v)) env s) _ _ _
  have found := fits_ne_void fits (mt Ty.operand_eq_void.1 nonvoid)
  refine (value.operand found stands).bind fun v env₁ s₁ m₁ ⟨vt, stands₁⟩ => ?_
  obtain ⟨wt, n, m₂, reaches, stands₂⟩ := fit_follows fit vt stands₁
  rw [← fit_operand, fit_eq_become (vt ▸ fits)]
  exact .steps reaches (.pure ⟨wt, stands₂⟩)

theorem decls_follow {ty : Ty} {vars : List Declarator} (value : ty ≠ .void)
    (h : DeclsAt S.site ty scopes pc vars pc' scopes') :
    S.Follows scopes pc (Meaning.declarators S.cx ty vars) fun stack (_, env) m =>
      S.Stands scopes' pc' stack env m := by
  induction h with
  | nil => exact fun _ _ _ _ stands => .pure stands
  | @init _ _ v _ e t x _ _ _ _ _ given at_ fits fit declared typed store _ ih =>
      subst typed
      intro stack env m s stands
      rw [Meaning.declarators, given]
      refine (fitted_follows at_.evaluates value fits fit stands).bind
        fun w env₁ s₁ m₁ ⟨wt, stands₁⟩ => ?_
      obtain ⟨m₂, step, stands₂⟩ := declare_follows declared wt store stands₁
      exact .known rfl (.step step (ih stands₂))
  | @zero _ _ v _ x _ _ _ left const declared typed store _ ih =>
      subst typed
      intro stack env m s stands
      obtain ⟨i, op, loaded⟩ := const
      obtain ⟨slots, rfl, size, mirrors⟩ := stands
      obtain ⟨m', store, stands'⟩ := declare_follows declared (Value.zero_ty value) store
        ⟨slots, rfl, size, mirrors⟩
      rw [Meaning.declarators, left]
      refine .known rfl (.known rfl (.step (Machine.step_const op loaded) (.step store ?_)))
      exact ih stands'

theorem tail_of_declared {n : Nat} {name : String} {x : Local}
    (h : Declared n scopes name x scopes') : scopes'.tail = scopes.tail := by
  obtain ⟨scope, outer, rfl, rfl, -⟩ := h.inner
  rfl

theorem tail_of_decls {ty : Ty} {vars : List Declarator}
    (h : DeclsAt S.site ty scopes pc vars pc' scopes') : scopes'.tail = scopes.tail := by
  induction h with
  | nil => rfl
  | init _ _ _ _ declared _ _ _ ih => exact ih.trans (tail_of_declared declared)
  | zero _ _ declared _ _ _ ih => exact ih.trans (tail_of_declared declared)

/-- Statements declare variables in the innermost scope only. -/
theorem tail_of_stmt {stmt : Stmt} (h : StmtAt S.site loop scopes pc stmt pc' scopes') :
    scopes'.tail = scopes.tail := by
  cases h with
  | decl _ vars => exact tail_of_decls vars
  | _ => rfl

end Setting

end PixelKernel.Language
