import PixelKernel.Proofs.Simulation.Assignments
import PixelKernel.Proofs.Simulation.Calls

/-! # Runs of expressions -/

namespace PixelKernel.Language

variable {σ : Type} {S : Setting σ} {scopes : List Scope}

open Setting

theorem lit_follows {pc p : Nat} {l : Literal} {v : Value} (value : Lower.literal l = .ok v)
    (const : ConstAt S.site pc v) :
    S.Evaluates scopes pc (Meaning.expr S.cx (.lit p l)) v.ty (pc + 1) := by
  obtain ⟨i, op, loaded⟩ := const
  intro stack env m s stands
  obtain ⟨slots, rfl, size, mirrors⟩ := stands
  rw [Meaning.expr, (Lower.literal_eq_ok value).1]
  exact .step (Machine.step_const op loaded) (.pure ⟨rfl, slots, rfl, size, mirrors⟩)

theorem select_follows {pc pc₁ p : Nat} {e : Expr} {fields : String} {t t' : Ty}
    {lanes : Selection} (base : S.Evaluates scopes pc (Meaning.expr S.cx e) t pc₁)
    (vector : t.isVector = true) (read : Lower.selection fields (t.lanes?.getD 4) = .ok lanes)
    (typed : Ty.ofLanes? lanes.length = some t')
    (instr : S.site.code[pc₁]? = some (.select lanes)) :
    S.Evaluates scopes pc (Meaning.expr S.cx (.select p e fields)) t' (pc₁ + 1) := by
  have nonvoid : t ≠ .void := by
    rintro rfl
    cases vector
  obtain ⟨named, below, -⟩ := Lower.selection_eq_ok read
  intro stack env m s stands
  rw [Meaning.expr]
  refine (base.operand nonvoid stands).bind fun v env₁ s₁ m₁ ⟨vt, stands₁⟩ => ?_
  obtain ⟨slots, rfl, size, mirrors⟩ := stands₁
  have width := Lower.lanes?_of_isVector vector
  rw [← vt] at width
  obtain ⟨w, made, wt⟩ := Value.select_of_ty width (vt ▸ below) typed
  refine .known (by rw [named]; rfl) (.known (by rw [made]; rfl) ?_)
  exact .step (Machine.step_onTop instr rfl (fun _ => rfl) made)
    (.pure ⟨wt, slots, rfl, size, mirrors⟩)

mutual

/-- A run of an expression's code leaves what its evaluation gives. -/
theorem ExprAt.evaluates {pc pc' : Nat} {e : Expr} {t : Ty}
    (h : ExprAt S.site scopes pc e t pc') :
    S.Evaluates scopes pc (Meaning.expr S.cx e) t pc' := by
  have typed := h.typeOf?_eq
  cases h with
  | lit value const => exact lit_follows value const
  | var found op => exact var_follows found op
  | unary operand typed instr => exact unary_follows operand.evaluates typed instr
  | logic left dup leave pop right lands =>
      exact logic_follows left.evaluates dup leave pop right.evaluates lands
  | @binary _ _ op _ _ _ _ _ _ _ _ _ left right promoted typed instr =>
      cases op with
      | arith op => exact binary_follows left.evaluates right.evaluates promoted typed instr
      | order op => exact binary_follows left.evaluates right.evaluates promoted typed instr
      | logic op => cases typed
  | ternary cond branch yes fitYes past no fitNo lands joined =>
      exact ternary_follows typed cond.evaluates branch yes.evaluates fitYes past no.evaluates
        fitNo lands joined
  | call args call => exact call_follows (args.passes (values_of_callAt call)) call
  | select base vector read typed instr =>
      exact select_follows base.evaluates vector read typed instr
  | assign goal value fits fit ops =>
      obtain ⟨name, place⟩ := Lower.place_eq_ok goal
      exact assign_follows place value.evaluates fits fit ops
  | combine goal read value fit promoted result ops =>
      obtain ⟨name, place⟩ := Lower.place_eq_ok goal
      exact combine_follows place read value.evaluates fit promoted result ops
  | step goal ordered one ops =>
      obtain ⟨name, place⟩ := Lower.place_eq_ok goal
      exact step_follows place ordered one ops

theorem ArgsAt.passes {pc pc' : Nat} {es : List Expr} {found wanted : List Ty}
    (h : ArgsAt S.site scopes pc es found wanted pc') (values : .void ∉ found) :
    S.Passes scopes pc (Meaning.exprs S.cx es) found wanted pc' := by
  cases h with
  | nil => exact .nil
  | cons head fit tail =>
      rw [List.mem_cons, not_or] at values
      exact .cons (Ne.symm values.1) head.evaluates fit (tail.passes values.2)

end

end PixelKernel.Language
