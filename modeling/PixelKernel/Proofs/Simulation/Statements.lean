import PixelKernel.Proofs.Simulation.Loops

/-! # Runs of statements -/

namespace PixelKernel.Language

open Meaning (Env Eval Flow)

variable {σ : Type} {S : Setting σ}

namespace Setting

variable {loop : Option Loop} {scopes scopes' : List Scope} {pc pc' : Nat}

/-- Nothing jumps out of a loop but its end and returns. -/
theorem arrives_of_loop {there : List Scope → Prop} {stack : List Value} {flow : Flow}
    {env : Env} {m : Machine} (there' : List Scope → Prop)
    (h : S.Arrives none there pc' scopes' stack (flow, env) m) :
    S.Arrives loop there' pc' scopes' stack (flow, env) m := by
  cases flow with
  | next => exact h
  | breakOut | continueOn =>
      obtain ⟨_, _, ⟨⟩, -⟩ := h
  | ret v => exact h

theorem Encloses.jump {x : Eval σ Flow} {target : Nat} (h : S.Encloses loop scopes pc x pc')
    (past : JumpAt S.site.code pc' target) : S.Encloses loop scopes pc x target := by
  intro stack env m s stands
  refine (h stands).finish fun (flow, env₁) s₁ m₁ arrives => ?_
  cases flow with
  | next =>
      obtain ⟨slots, rfl, size, mirrors⟩ := arrives
      exact ⟨1, _, .one (Machine.step_jump past), slots, rfl, size, mirrors⟩
  | breakOut | continueOn | ret => exact ⟨0, m₁, .refl, arrives⟩

theorem Turns.encloses {start stop : Nat} {pass : Eval σ (Option Flow)}
    (turns : S.Turns scopes start stop pass) :
    S.Encloses loop scopes start (Meaning.loop pass S.cx.fuel) stop :=
  fun _ _ _ _ stands =>
    (loop_follows turns (Nat.le_refl _) stands).imp fun _ _ => arrives_of_loop _

/-- The variables of a loop's first clause live as long as the loop. -/
theorem for_encloses {x : Eval σ Flow} {pass : Eval σ (Option Flow)} {scope : Scope} {stop : Nat}
    (init : S.Executes loop (∅ :: scopes) pc x pc' (scope :: scopes))
    (turns : S.Turns (scope :: scopes) pc' stop pass) :
    S.Encloses loop scopes pc (Meaning.enclosed do
      match ← x with
      | .next => Meaning.loop pass S.cx.fuel
      | flow => return flow) stop := by
  refine Executes.enclosed ?_ (show (scope :: scopes).tail = scopes from rfl)
  intro stack env m s stands
  refine (init stands).bind fun flow env₁ s₁ m₁ arrives => ?_
  cases flow with
  | next => exact turns.encloses.executes arrives
  | breakOut | continueOn | ret => exact .pure arrives

theorem break_executes {l : Loop} {p : Nat} (jump : JumpAt S.site.code pc l.stop) :
    S.Executes (some l) scopes pc (Meaning.stmt S.cx (.breakLoop p)) pc' scopes' := by
  intro stack env m s stands
  obtain ⟨slots, rfl, size, mirrors⟩ := stands
  exact .step (Machine.step_jump jump) (.pure ⟨l, scopes, rfl, rfl, slots, rfl, size, mirrors⟩)

theorem continue_executes {l : Loop} {p : Nat} (jump : JumpAt S.site.code pc l.again) :
    S.Executes (some l) scopes pc (Meaning.stmt S.cx (.continueLoop p)) pc' scopes' := by
  intro stack env m s stands
  obtain ⟨slots, rfl, size, mirrors⟩ := stands
  exact .step (Machine.step_jump jump) (.pure ⟨l, scopes, rfl, rfl, slots, rfl, size, mirrors⟩)

theorem retVoid_executes {p : Nat} (void : S.site.ret = .void)
    (instr : S.site.code[pc]? = some .retVoid) :
    S.Executes loop scopes pc (Meaning.stmt S.cx (.ret p none)) pc' scopes' := by
  intro stack env m s stands
  obtain ⟨slots, rfl, -⟩ := stands
  exact .pure ⟨Ty.operand_eq_void.2 void, fun _ => Machine.step_retVoid instr⟩

theorem ret_executes {p : Nat} {e : Expr} {t : Ty} {pc₁ pc₂ : Nat}
    (value : ExprAt S.site scopes pc e t pc₁) (nonvoid : S.site.ret ≠ .void)
    (fits : Fits t S.site.ret.operand) (fit : FitAt S.site.code pc₁ t S.site.ret.operand pc₂)
    (instr : S.site.code[pc₂]? = some .ret) :
    S.Executes loop scopes pc (Meaning.stmt S.cx (.ret p (some e))) pc' scopes' := by
  intro stack env m s stands
  have found := fits_ne_void fits (mt Ty.operand_eq_void.1 nonvoid)
  refine (value.evaluates.operand found stands).bind fun v env₁ s₁ m₁ ⟨vt, stands₁⟩ => ?_
  obtain ⟨wt, n, m₂, reaches, slots, rfl, -⟩ := fit_follows fit vt stands₁
  rw [← fit_eq_become (vt ▸ fits), fit_operand] at reaches wt
  exact .steps reaches (.pure ⟨wt, fun _ => Machine.step_ret instr⟩)

end Setting

open Setting

mutual

/-- A run of a statement's code does what its execution does. -/
theorem StmtAt.executes {loop : Option Loop} {scopes scopes' : List Scope} {pc pc' : Nat}
    {stmt : Stmt} (h : StmtAt S.site loop scopes pc stmt pc' scopes') :
    S.Executes loop scopes pc (Meaning.stmt S.cx stmt) pc' scopes' := by
  cases h with
  | empty => exact fun _ _ _ _ stands => .pure stands
  | expr effect =>
      exact fun _ _ _ _ stands => (effect_follows effect stands).bind fun _ _ _ _ stands => .pure stands
  | block body => exact (body.executes.enclosed rfl).executes
  | decl value vars =>
      exact fun _ _ _ _ stands => (decls_follow value vars stands).bind fun _ _ _ _ stands =>
        .pure stands
  | ifThen test yes =>
      have taken := (yes.executes.enclosed rfl).executes
      intro stack env m s stands
      refine (test_follows test stands).bind fun c env₁ s₁ m₁ stands₁ => ?_
      cases c with
      | false => exact .pure stands₁
      | true => exact taken stands₁
  | ifElse test yes past no =>
      have taken := ((yes.executes.enclosed rfl).jump past).executes
      have passed := (no.executes.enclosed rfl).executes
      intro stack env m s stands
      refine (test_follows test stands).bind fun c env₁ s₁ m₁ stands₁ => ?_
      cases c with
      | false => exact passed stands₁
      | true => exact taken stands₁
  | forLoop init test body step back =>
      have turns := for_turns test (body.executes.enclosed rfl) step back
      exact (for_encloses init.executes turns).executes
  | whileLoop test body back =>
      have turns := while_turns test (body.executes.enclosed rfl) back
      exact turns.encloses.executes
  | doWhile body cond branch lands =>
      have turns := doWhile_turns (body.executes.enclosed rfl) cond branch lands
      exact turns.encloses.executes
  | breakLoop jump => exact break_executes jump
  | continueLoop jump => exact continue_executes jump
  | retVoid void instr => exact retVoid_executes void instr
  | ret value nonvoid fits fit instr => exact ret_executes value nonvoid fits fit instr

theorem StmtsAt.executes {loop : Option Loop} {scopes scopes' : List Scope} {pc pc' : Nat}
    {stmts : List Stmt} (h : StmtsAt S.site loop scopes pc stmts pc' scopes') :
    S.Executes loop scopes pc (Meaning.stmts S.cx stmts) pc' scopes' := by
  cases h with
  | nil => exact fun _ _ _ _ stands => .pure stands
  | cons head tail =>
      have rest := tail.executes
      rw [Executes, tail_of_stmt head] at rest
      intro stack env m s stands
      refine (head.executes stands).bind fun flow env₁ s₁ m₁ arrives => ?_
      cases flow with
      | next => exact rest arrives
      | breakOut | continueOn | ret => exact .pure arrives

end

end PixelKernel.Language
