import PixelKernel.Language.Machine

/-! # Runs of the machine, step by step

A run with a budget is cut into the steps it takes. A machine that takes `n` steps and then
stops gives its result for every budget beyond `n` and runs out of every smaller one.
-/

namespace PixelKernel.Language.Machine

variable {σ : Type} (p : Program) (host : Host σ)

/-- The next instruction asks whether two samplers are the same. All else that a machine does is
    independent of how samplers are numbered. -/
def ComparesSamplers (m : Machine) : Prop :=
  ∃ op a b stack, m.frame.function.code[m.frame.pc]? = some (.compare op) ∧
    m.frame.stack = .sampler b :: .sampler a :: stack

/-- What the next step comes to; it compares no samplers. -/
structure Does (m : Machine) (s : σ) (next : Next σ) : Prop where
  eq : step p host m s = next
  blind : ¬ m.ComparesSamplers

/-- `n` steps lead from one machine to another. -/
inductive Reaches : Nat → Machine → σ → Machine → σ → Prop where
  | refl {m s} : Reaches 0 m s m s
  | next {n m s m₁ s₁ m₂ s₂} (first : Does p host m s (.go m₁ s₁))
      (rest : Reaches n m₁ s₁ m₂ s₂) : Reaches (n + 1) m s m₂ s₂

/-- The machine takes `n` steps and stops with the next one. -/
def Halts (n : Nat) (m : Machine) (s : σ) (r : Except Trap (Option Value)) (s' : σ) : Prop :=
  ∃ m₁ s₁, Reaches p host n m s m₁ s₁ ∧ Does p host m₁ s₁ (.stop r s')

/-- The machine takes at least `n` steps. -/
def Outlasts (n : Nat) (m : Machine) (s : σ) : Prop :=
  ∃ k m₁ s₁, n ≤ k ∧ Reaches p host k m s m₁ s₁

variable {p host} {n k : Nat} {m m₁ m₂ : Machine} {s s₁ s₂ : σ} {r : Except Trap (Option Value)}

namespace Reaches

theorem one (h : Does p host m s (.go m₁ s₁)) : Reaches p host 1 m s m₁ s₁ :=
  .next h .refl

theorem trans (first : Reaches p host n m s m₁ s₁) (rest : Reaches p host k m₁ s₁ m₂ s₂) :
    Reaches p host (n + k) m s m₂ s₂ := by
  induction first with
  | refl => simpa using rest
  | next h _ ih =>
    rw [Nat.add_right_comm]
    exact .next h (ih rest)

theorem run_eq (h : Reaches p host n m s m₁ s₁) (b : Nat) :
    run p host (b + n) m s = run p host b m₁ s₁ := by
  induction h with
  | refl => rfl
  | next first _ ih => rw [← ih, ← Nat.add_assoc, run, first.eq]

/-- A budget of no more than the steps taken is used up. -/
theorem run_le (h : Reaches p host n m s m₁ s₁) {b : Nat} (hb : b ≤ n) :
    ∃ s', run p host b m s = ⟨.error .budget, 0, s'⟩ := by
  induction h generalizing b with
  | refl =>
    obtain rfl : b = 0 := by omega
    exact ⟨_, rfl⟩
  | next first _ ih =>
    cases b with
    | zero => exact ⟨_, rfl⟩
    | succ b =>
      rw [run, first.eq]
      exact ih (by omega)

theorem halts (first : Reaches p host n m s m₁ s₁) (h : Halts p host k m₁ s₁ r s₂) :
    Halts p host (n + k) m s r s₂ := by
  obtain ⟨m₃, s₃, rest, stop⟩ := h
  exact ⟨m₃, s₃, first.trans rest, stop⟩

theorem outlasts (first : Reaches p host n m s m₁ s₁) (h : Outlasts p host k m₁ s₁) :
    Outlasts p host (n + k) m s := by
  obtain ⟨j, m₃, s₃, hj, rest⟩ := h
  exact ⟨n + j, m₃, s₃, by omega, first.trans rest⟩

end Reaches

theorem Outlasts.mono (h : Outlasts p host n m s) (hk : k ≤ n) : Outlasts p host k m s := by
  obtain ⟨j, m₁, s₁, hj, steps⟩ := h
  exact ⟨j, m₁, s₁, by omega, steps⟩

theorem Outlasts.run_le (h : Outlasts p host n m s) {b : Nat} (hb : b ≤ n) :
    ∃ s', run p host b m s = ⟨.error .budget, 0, s'⟩ := by
  obtain ⟨j, m₁, s₁, hj, steps⟩ := h
  exact steps.run_le (by omega)

theorem Halts.run_eq (h : Halts p host n m s r s₂) (b : Nat) :
    run p host (b + (n + 1)) m s = ⟨r, b, s₂⟩ := by
  obtain ⟨m₁, s₁, steps, stop⟩ := h
  rw [Nat.add_comm n, ← Nat.add_assoc, steps.run_eq, run, stop.eq]

theorem Halts.run_le (h : Halts p host n m s r s₂) {b : Nat} (hb : b ≤ n) :
    ∃ s', run p host b m s = ⟨.error .budget, 0, s'⟩ := by
  obtain ⟨m₁, s₁, steps, stop⟩ := h
  exact steps.run_le hb

end PixelKernel.Language.Machine
