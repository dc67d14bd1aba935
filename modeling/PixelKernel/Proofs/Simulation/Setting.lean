import PixelKernel.Proofs.Simulation.Basic
import PixelKernel.Proofs.Code.Types

/-! # The body of a function while it runs

What a run of a body has in common with an evaluation of it: where the machine stands, which
variables are in which slots, and what the functions called do.
-/

namespace PixelKernel.Language

open Meaning (Env Eval Context)

variable {σ α : Type}

/-- A function's body while it is executed. Parameters of the functions it calls are values,
    and a call instruction does what calling the function means. -/
structure Setting (σ : Type) where
  program : Program
  cx : Context σ
  function : Function
  callers : List Frame
  params : ∀ f ∈ cx.module, ∀ p ∈ f.params, p.ty ≠ .void
  calls : ∀ {i : Nat} {f : FunctionDef} {args : List Value} {pc : Nat} {slots : Array Value}
    {stack : List Value} {s : σ}, cx.module[i]? = some f → i < 65536 → f.params.length < 256 →
    args.map Value.ty = f.params.map (·.ty.operand) →
    function.code[pc]? = some (.call (.ofNat i) (.ofNat f.params.length)) →
    Simulates program cx.host cx.fuel (cx.call f args s)
      ⟨⟨function, pc, slots, args.reverse ++ stack⟩, callers⟩ s fun r m =>
        HasTy r f.ret.operand ∧ m = ⟨⟨function, pc + 1, slots, r.toList ++ stack⟩, callers⟩

namespace Setting

variable (S : Setting σ)

def site : Site where
  module := S.cx.module
  consts := S.program.consts
  code := S.function.code
  slots := S.function.locals.size
  ret := S.cx.ret

/-- The machine is in the body at `pc`, with the variables in scope in their slots. -/
def Stands (scopes : List Scope) (pc : Nat) (stack : List Value) (env : Env) (m : Machine) :
    Prop :=
  ∃ slots, m = ⟨⟨S.function, pc, slots, stack⟩, S.callers⟩ ∧ slots.size = S.site.slots ∧
    Mirrors slots scopes env

/-- From a given place the run does what the evaluation does. -/
def Follows (scopes : List Scope) (pc : Nat) (x : Eval σ α)
    (Q : List Value → α × Env → Machine → Prop) : Prop :=
  ∀ ⦃stack : List Value⦄ ⦃env : Env⦄ ⦃m : Machine⦄ ⦃s : σ⦄, S.Stands scopes pc stack env m →
    Simulates S.program S.cx.host S.cx.fuel (x env s) m s (Q stack)

/-- The code from `pc` to `pc'` leaves the result of an evaluation on the stack. -/
def Evaluates (scopes : List Scope) (pc : Nat) (x : Eval σ (Option Value)) (t : Ty) (pc' : Nat) :
    Prop :=
  S.Follows scopes pc x fun stack (r, env) m =>
    HasTy r t ∧ S.Stands scopes pc' (r.toList ++ stack) env m

/-- The same where there must be a value. -/
def Yields (scopes : List Scope) (pc : Nat) (x : Eval σ Value) (t : Ty) (pc' : Nat) : Prop :=
  S.Follows scopes pc x fun stack (v, env) m =>
    v.ty = t ∧ S.Stands scopes pc' (v :: stack) env m

variable {S} {scopes : List Scope} {pc pc' pc₁ : Nat} {x y z : Eval σ (Option Value)} {t : Ty}

theorem Evaluates.operand (h : S.Evaluates scopes pc x t pc') (value : t ≠ .void) :
    S.Yields scopes pc (Meaning.operand x) t pc' := by
  intro stack env m s stands
  refine (h stands).bind fun r env' s' m' ⟨typed, stands'⟩ => ?_
  cases r with
  | none => exact absurd typed value
  | some v => exact .pure ⟨typed, stands'⟩

theorem Evaluates.bool (h : S.Evaluates scopes pc x .bool pc') :
    S.Follows scopes pc (Meaning.bool x) fun stack (b, env) m =>
      S.Stands scopes pc' (.bool b :: stack) env m := by
  intro stack env m s stands
  refine (h.operand nofun stands).bind fun v env' s' m' ⟨typed, stands'⟩ => ?_
  obtain ⟨b, rfl⟩ := Value.bool_of_ty typed
  exact .pure stands'

/-! ## Conversions -/

/-- A value as one of the given type; numbers become floats. -/
def become (w : Ty) (v : Value) : Value := if v.ty = w then v else Meaning.part v

theorem fit_operand (t : Ty) (v : Value) : Meaning.fit t.operand v = Meaning.fit t v := by
  cases t <;> rfl

theorem fit_eq_become {v : Value} {w : Ty} (h : Fits v.ty w) : Meaning.fit w v = become w v := by
  unfold Meaning.fit become
  rcases h with same | ⟨int, rfl⟩
  · rw [if_pos same]
    split
    next float =>
      obtain ⟨x, rfl⟩ := Value.float_of_ty (same.trans float)
      rfl
    next => rfl
  · obtain ⟨n, rfl⟩ := Value.int_of_ty int
    rfl

theorem fits_ne_void {found wanted : Ty} (h : Fits found wanted) (value : wanted ≠ .void) :
    found ≠ .void := by
  rintro rfl
  rcases h with rfl | ⟨⟨⟩, -⟩
  exact value rfl

theorem fit_follows {stack : List Value} {env : Env} {m : Machine} {s : σ} {v : Value} {w : Ty}
    (h : FitAt S.site.code pc t w pc') (typed : v.ty = t)
    (stands : S.Stands scopes pc (v :: stack) env m) : (become w v).ty = w ∧
      ∃ n m', Machine.Reaches S.program S.cx.host n m s m' s ∧
        S.Stands scopes pc' (become w v :: stack) env m' := by
  cases h with
  | same =>
      rw [become, if_pos typed]
      exact ⟨typed, 0, m, .refl, stands⟩
  | float number op =>
      obtain ⟨slots, rfl, size, mirrors⟩ := stands
      have number : v.ty = .int ∨ v.ty = .float ∨ v.ty = .bool := by
        rw [typed]
        exact number.elim .inl fun b => .inr (.inr b)
      obtain ⟨x, hx⟩ := Value.toFloat_of_ty number
      have made : become .float v = .float x := by
        unfold become Meaning.part
        rw [hx]
        split
        next float =>
          obtain ⟨y, rfl⟩ := Value.float_of_ty float
          cases hx
          rfl
        next => rfl
      rw [made]
      exact ⟨rfl, 1, _, .one (Machine.step_toFloat op hx), slots, rfl, size, mirrors⟩

end Setting

end PixelKernel.Language
