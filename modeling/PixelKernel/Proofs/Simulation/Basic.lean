import PixelKernel.Proofs.Machine.Runs
import PixelKernel.Proofs.Machine.Steps
import PixelKernel.Proofs.Machine.Builtins
import PixelKernel.Proofs.Simulation.Scopes

/-! # Runs that do what evaluations do

An evaluation of a tree and a run of its code ask the host for the same things in the same
order, since the host's state passes through both. An evaluation that ends has a run that
reaches a machine with the same value, or stops for the same reason; one that uses up its fuel
has a run of at least as many steps.
-/

namespace PixelKernel.Language

open Meaning (Env Eval Stop Context)

variable {σ α β : Type}

/-- The fault in which a run ends when an evaluation stops, with the host left in state `s`. -/
inductive Ends (host : Host σ) (s : σ) : Stop → Trap → Prop where
  | missingReturn {f} : Ends host s (.missingReturn f) (.missingReturn f)
  | callDepth : Ends host s .callDepth .callDepth
  | host {t} (refused : host.Refuses t s) : Ends host s (.host t) t

/-- What a run from `m` does when an evaluation gives `o`. -/
def Simulates (p : Program) (host : Host σ) (fuel : Nat) (o : Option (Except Stop α × σ))
    (m : Machine) (s : σ) (Q : α → Machine → Prop) : Prop :=
  match o with
  | none => Machine.Outlasts p host fuel m s
  | some (.error e, s') => ∃ n t, Ends host s' e t ∧ Machine.Halts p host n m s (.error t) s'
  | some (.ok a, s') => ∃ n m', Machine.Reaches p host n m s m' s' ∧ Q a m'

namespace Simulates

variable {p : Program} {host : Host σ} {fuel : Nat} {m m₁ : Machine} {s s₁ : σ}
  {o : Option (Except Stop α × σ)} {Q R : α → Machine → Prop}

theorem less {k : Nat} (h : Simulates p host fuel o m s Q) (le : k ≤ fuel) :
    Simulates p host k o m s Q := by
  match o with
  | none => exact h.mono le
  | some (.error e, s') => exact h
  | some (.ok a, s') => exact h

/-- Steps that come first count towards the fuel. -/
theorem after {n : Nat} (first : Machine.Reaches p host n m s m₁ s₁)
    (rest : Simulates p host fuel o m₁ s₁ Q) : Simulates p host (n + fuel) o m s Q := by
  match o with
  | none => exact first.outlasts rest
  | some (.error e, s') =>
      obtain ⟨k, t, ends, halts⟩ := rest
      exact ⟨n + k, t, ends, first.halts halts⟩
  | some (.ok a, s') =>
      obtain ⟨k, m', reaches, post⟩ := rest
      exact ⟨n + k, m', first.trans reaches, post⟩

theorem steps {n : Nat} (first : Machine.Reaches p host n m s m₁ s₁)
    (rest : Simulates p host fuel o m₁ s₁ Q) : Simulates p host fuel o m s Q :=
  (rest.after first).less (Nat.le_add_left ..)

theorem step (first : Machine.Does p host m s (.go m₁ s₁))
    (rest : Simulates p host fuel o m₁ s₁ Q) : Simulates p host fuel o m s Q :=
  rest.steps (.one first)

theorem imp (h : Simulates p host fuel o m s Q) (imp : ∀ a m', Q a m' → R a m') :
    Simulates p host fuel o m s R := by
  match o with
  | none => exact h
  | some (.error e, s') => exact h
  | some (.ok a, s') =>
      obtain ⟨n, m', reaches, post⟩ := h
      exact ⟨n, m', reaches, imp a m' post⟩

/-- The run may go on when the evaluation has ended. -/
theorem finish (h : Simulates p host fuel o m s Q)
    (rest : ∀ a s' m', Q a m' → ∃ k m'', Machine.Reaches p host k m' s' m'' s' ∧ R a m'') :
    Simulates p host fuel o m s R := by
  match o with
  | none => exact h
  | some (.error e, s') => exact h
  | some (.ok a, s') =>
      obtain ⟨n, m', reaches, post⟩ := h
      obtain ⟨k, m'', more, post'⟩ := rest a s' m' post
      exact ⟨n + k, m'', reaches.trans more, post'⟩

/-! ## Evaluations one after the other -/

variable {env : Env}

theorem pure {a : α} {Q : α × Env → Machine → Prop} (h : Q (a, env) m) :
    Simulates p host fuel ((Pure.pure a : Eval σ α) env s) m s Q :=
  ⟨0, m, .refl, h⟩

theorem bind_apply (x : Eval σ α) (k : α → Eval σ β) (env : Env) (s : σ) :
    (x >>= k) env s = match x env s with
      | none => none
      | some (.error e, s') => some (.error e, s')
      | some (.ok (a, env'), s') => k a env' s' := by
  change (StateT.bind x k env : ExceptT Stop (StateT σ Option) (β × Env)) s = _
  unfold StateT.bind
  change Option.bind (x env s) _ = _
  match x env s with
  | none => rfl
  | some (.error e, s') => rfl
  | some (.ok (a, env'), s') => rfl

/-- What comes behind an evaluation starts where its run arrives. -/
theorem bind {x : Eval σ α} {k : α → Eval σ β} {Q : α × Env → Machine → Prop}
    {R : β × Env → Machine → Prop} (first : Simulates p host fuel (x env s) m s Q)
    (rest : ∀ a env' s' m', Q (a, env') m' → Simulates p host fuel (k a env' s') m' s' R) :
    Simulates p host fuel ((x >>= k) env s) m s R := by
  rw [bind_apply]
  match h : x env s with
  | none => rw [h] at first; exact first
  | some (.error e, s') => rw [h] at first; exact first
  | some (.ok (a, env'), s') =>
      rw [h] at first
      obtain ⟨n, m', reaches, post⟩ := first
      exact (rest a env' s' m' post).steps reaches

/-- What only concerns the tree takes no steps. -/
theorem known {x : Eval σ α} {k : α → Eval σ β} {a : α} {env' : Env}
    {R : β × Env → Machine → Prop} (h : x env s = some (.ok (a, env'), s))
    (rest : Simulates p host fuel (k a env' s) m s R) :
    Simulates p host fuel ((x >>= k) env s) m s R := by
  rw [bind_apply, h]
  exact rest

end Simulates

/-! ## Progress -/

/-- A run that does what an evaluation does, and takes at least one step unless the result says
    that it may have taken none. -/
def Advances (p : Program) (host : Host σ) (fuel : Nat) (still : α → Prop)
    (o : Option (Except Stop α × σ)) (m : Machine) (s : σ) (Q : α → Machine → Prop) : Prop :=
  match o with
  | some (.ok a, s') => ∃ n m', (n = 0 → still a) ∧ Machine.Reaches p host n m s m' s' ∧ Q a m'
  | o => Simulates p host fuel o m s Q

namespace Advances

variable {p : Program} {host : Host σ} {fuel : Nat} {m m₁ : Machine} {s s₁ : σ} {env : Env}
  {still : α → Prop} {o : Option (Except Stop α × σ)} {Q : α → Machine → Prop}

theorem step (first : Machine.Does p host m s (.go m₁ s₁))
    (rest : Simulates p host fuel o m₁ s₁ Q) : Advances p host fuel still o m s Q := by
  match o with
  | none => exact rest.step first
  | some (.error e, s') => exact rest.step first
  | some (.ok a, s') =>
      obtain ⟨n, m', reaches, post⟩ := rest
      exact ⟨n + 1, m', nofun, .next first reaches, post⟩

theorem steps {n : Nat} (first : Machine.Reaches p host n m s m₁ s₁)
    (rest : Advances p host fuel still o m₁ s₁ Q) : Advances p host fuel still o m s Q := by
  match o with
  | none => exact (first.outlasts rest).mono (Nat.le_add_left ..)
  | some (.error e, s') =>
      obtain ⟨k, t, ends, halts⟩ := rest
      exact ⟨n + k, t, ends, first.halts halts⟩
  | some (.ok a, s') =>
      obtain ⟨k, m', may, reaches, post⟩ := rest
      exact ⟨n + k, m', fun none_ => may (by omega), first.trans reaches, post⟩

theorem pure {a : α} {still : α × Env → Prop} {Q : α × Env → Machine → Prop}
    (may : still (a, env)) (h : Q (a, env) m) :
    Advances p host fuel still ((Pure.pure a : Eval σ α) env s) m s Q :=
  ⟨0, m, fun _ => may, .refl, h⟩

theorem bind {x : Eval σ α} {k : α → Eval σ β} {still : β × Env → Prop}
    {Q : α × Env → Machine → Prop} {R : β × Env → Machine → Prop}
    (first : Simulates p host fuel (x env s) m s Q)
    (rest : ∀ a env' s' m', Q (a, env') m' → Advances p host fuel still (k a env' s') m' s' R) :
    Advances p host fuel still ((x >>= k) env s) m s R := by
  rw [Simulates.bind_apply]
  match h : x env s with
  | none => rw [h] at first; exact first
  | some (.error e, s') => rw [h] at first; exact first
  | some (.ok (a, env'), s') =>
      rw [h] at first
      obtain ⟨n, m', reaches, post⟩ := first
      exact (rest a env' s' m' post).steps reaches

end Advances

end PixelKernel.Language
