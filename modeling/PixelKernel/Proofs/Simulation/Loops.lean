import PixelKernel.Proofs.Simulation.Flow

/-! # Runs of loops

A loop's run is cut into passes through its body. A pass after which the loop goes on takes a
step, so a loop that uses up its fuel runs for at least as many steps.
-/

namespace PixelKernel.Language

open Meaning (Env Eval Flow)

variable {σ : Type}

namespace Setting

variable {S : Setting σ} {scopes : List Scope} {pc pc' : Nat}

/-- One pass through a loop that starts at `start` and that is left to `stop`. -/
def Turns (S : Setting σ) (scopes : List Scope) (start stop : Nat)
    (pass : Eval σ (Option Flow)) : Prop :=
  ∀ ⦃stack : List Value⦄ ⦃env : Env⦄ ⦃m : Machine⦄ ⦃s : σ⦄, S.Stands scopes start stack env m →
    Advances S.program S.cx.host S.cx.fuel (·.1.isSome) (pass env s) m s fun (flow, env) m =>
      match flow with
      | some flow => S.Arrives none (· = scopes) stop scopes stack (flow, env) m
      | none => S.Stands scopes start stack env m

/-- Each pass after which the loop goes on uses up a step where the evaluation uses up fuel. -/
theorem loop_follows {start stop : Nat} {pass : Eval σ (Option Flow)} {n : Nat}
    (turns : S.Turns scopes start stop pass) (enough : n ≤ S.cx.fuel) {stack : List Value}
    {env : Env} {m : Machine} {s : σ} (stands : S.Stands scopes start stack env m) :
    Simulates S.program S.cx.host n (Meaning.loop pass n env s) m s
      (S.Arrives none (· = scopes) stop scopes stack) := by
  induction n generalizing env m s with
  | zero => exact ⟨0, m, s, Nat.le_refl 0, .refl⟩
  | succ n ih =>
      have turn := turns stands (s := s)
      rw [Meaning.loop, Simulates.bind_apply]
      match h : pass env s with
      | none => rw [h] at turn; exact Simulates.less turn enough
      | some (.error e, s') => rw [h] at turn; exact Simulates.less turn enough
      | some (.ok (some flow, env'), s') =>
          rw [h] at turn
          obtain ⟨k, m', -, reaches, arrives⟩ := turn
          exact .steps reaches (.pure arrives)
      | some (.ok (none, env'), s') =>
          rw [h] at turn
          obtain ⟨k, m', may, reaches, stands'⟩ := turn
          have moved : k ≠ 0 := fun still => nomatch may still
          exact ((ih (by omega) stands').after reaches).less (by omega)

/-- The end of a loop's body, seen from the loop. -/
theorem leaves_of_arrives {l : Loop} {stack : List Value} {flow : Flow} {env : Env} {m : Machine}
    (h : S.Arrives (some l) (· = scopes) pc' scopes stack (flow, env) m) :
    match flow.leaves? with
    | some flow => S.Arrives none (· = scopes) l.stop scopes stack (flow, env) m
    | none => S.Stands scopes pc' stack env m ∨ S.Stands scopes l.again stack env m := by
  cases flow with
  | next => exact .inl h
  | breakOut =>
      obtain ⟨_, _, ⟨⟩, rfl, stands⟩ := h
      exact stands
  | continueOn =>
      obtain ⟨_, _, ⟨⟩, rfl, stands⟩ := h
      exact .inr stands
  | ret v => exact h

theorem while_turns {c : Expr} {x : Eval σ Flow} {start stop : Nat}
    (test : TestAt S.site scopes start c stop pc)
    (body : S.Encloses (some ⟨stop, start⟩) scopes pc x pc')
    (back : JumpAt S.site.code pc' start) :
    S.Turns scopes start stop (Meaning.passFirst S.cx (some c) x none) := by
  obtain ⟨pc₁, skip, cond, branch, lands, rfl⟩ := test
  intro stack env m s stands
  refine .bind (cond.evaluates.bool stands) fun c env₁ s₁ m₁ stands₁ => ?_
  obtain ⟨slots, rfl, size, mirrors⟩ := stands₁
  refine .step (Machine.step_jumpIfFalse branch lands) ?_
  cases c with
  | false => exact .pure ⟨slots, rfl, size, mirrors⟩
  | true =>
      refine (body ⟨slots, rfl, size, mirrors⟩).bind fun flow env₂ s₂ m₂ arrives => ?_
      have leaves := leaves_of_arrives arrives
      generalize flow.leaves? = left at leaves ⊢
      cases left with
      | some flow => exact .pure leaves
      | none =>
          rcases leaves with ⟨slots₂, rfl, size₂, mirrors₂⟩ | stands₂
          · exact .step (Machine.step_jump back) (.pure ⟨slots₂, rfl, size₂, mirrors₂⟩)
          · exact .pure stands₂

theorem clause_follows {test : Option Expr} {stop : Nat}
    (h : ClauseAt (fun i e j => TestAt S.site scopes i e stop j) pc test pc') :
    S.Follows scopes pc (Meaning.test S.cx test) fun stack (b, env) m =>
      S.Stands scopes (if b then pc' else stop) stack env m := by
  cases test with
  | none => exact fun _ _ _ _ stands => .pure ((show pc' = pc from h) ▸ stands)
  | some e => exact test_follows h

theorem for_turns {test step : Option Expr} {x : Eval σ Flow} {start stop again : Nat}
    (tested : ClauseAt (fun i e j => TestAt S.site scopes i e stop j) start test pc)
    (body : S.Encloses (some ⟨stop, again⟩) scopes pc x again)
    (stepped : ClauseAt (EffectAt S.site scopes) again step pc')
    (back : JumpAt S.site.code pc' start) :
    S.Turns scopes start stop (Meaning.passFirst S.cx test x step) := by
  intro stack env m s stands
  refine .bind (clause_follows tested stands) fun c env₁ s₁ m₁ stands₁ => ?_
  cases c with
  | false => exact .pure rfl stands₁
  | true =>
      refine .bind (body stands₁) fun flow env₂ s₂ m₂ arrives => ?_
      have leaves := leaves_of_arrives arrives
      generalize flow.leaves? = left at leaves ⊢
      cases left with
      | some flow => exact .pure rfl leaves
      | none =>
          have stepEffect : S.Follows scopes again (Meaning.effect S.cx step) fun stack r m =>
              S.Stands scopes pc' stack r.2 m := by
            cases step with
            | none => exact fun _ _ _ _ stands => .pure ((show pc' = again from stepped) ▸ stands)
            | some e => exact effect_follows stepped
          refine .bind (stepEffect (leaves.elim id id)) fun _ env₃ s₃ m₃ stands₃ => ?_
          obtain ⟨slots, rfl, size, mirrors⟩ := stands₃
          exact .step (Machine.step_jump back) (.pure ⟨slots, rfl, size, mirrors⟩)

theorem doWhile_turns {c : Expr} {x : Eval σ Flow} {start again : Nat} {skip : Int32}
    (body : S.Encloses (some ⟨pc + 1, again⟩) scopes start x again)
    (cond : ExprAt S.site scopes again c .bool pc)
    (branch : S.site.code[pc]? = some (.jumpIfTrue skip)) (lands : Leads S.site.code pc skip start) :
    S.Turns scopes start (pc + 1) (Meaning.passLast S.cx x c) := by
  intro stack env m s stands
  refine .bind (body stands) fun flow env₁ s₁ m₁ arrives => ?_
  have leaves := leaves_of_arrives arrives
  generalize flow.leaves? = left at leaves ⊢
  cases left with
  | some flow => exact .pure rfl leaves
  | none =>
      refine .bind (cond.evaluates.bool (leaves.elim id id)) fun c env₂ s₂ m₂ stands₂ => ?_
      obtain ⟨slots, rfl, size, mirrors⟩ := stands₂
      refine .step (Machine.step_jumpIfTrue branch lands) ?_
      cases c with
      | false => exact .pure ⟨slots, rfl, size, mirrors⟩
      | true => exact .pure ⟨slots, rfl, size, mirrors⟩

end Setting

end PixelKernel.Language
