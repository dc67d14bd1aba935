import PixelKernel.Proofs.Compilation
import PixelKernel.Proofs.Machine.Renaming

/-! # Compiled programs do not compare samplers

The language has no comparison of samplers, so code that is run as its trees are evaluated
never comes to one, and no constant is a sampler.
-/

namespace PixelKernel.Language

variable {module : List FunctionDef} {p : Program} {args : List Value} {source : String}

theorem Constant.plain {v : Value} (h : Constant v) : v.Plain := by
  cases h <;> exact nofun

theorem plain_of_compile (accepted : compile source = .ok p) : ∀ v ∈ p.consts, v.Plain := by
  obtain ⟨module, parsed, lowered⟩ := lowerModule_of_compile accepted
  obtain ⟨k, target, lib, consts, -, functions, rfl⟩ := lowerModule_eq_ok lowered
  obtain ⟨gs, -, ok⟩ :=
    Lower.functionsFrom_eq_ok [] .empty (floats_parseModule parsed) .nil functions
  exact fun v there => (ok.pool.constant v there).plain

/-- However long the program runs, each step is one of an evaluation. -/
theorem Compiled.blind {σ : Type} (compiled : Compiled module p)
    (typed : args.map Value.ty = p.arguments.map (·.ty.operand)) (host : Host σ) :
    p.Blind args host := by
  intro m entered b s
  obtain ⟨m', entered', simulates⟩ := kernel_simulates compiled typed host b
  rw [entered] at entered'
  cases entered'
  have simulates := simulates s
  match h : Meaning.kernel module host b args s with
  | none =>
      rw [h] at simulates
      exact .of_outlasts simulates
  | some (.ok v, s') =>
      rw [h] at simulates
      obtain ⟨n, m₁, reaches, -, stop⟩ := simulates
      exact .of_halts ⟨m₁, s', reaches, stop s'⟩
  | some (.error e, s') =>
      rw [h] at simulates
      obtain ⟨n, t, -, halts⟩ := simulates
      exact .of_halts halts

/-- Every function and every instruction of the program can be told by its number, none of which
    is cut short in the code. -/
structure Program.Addressable (p : Program) : Prop where
  few : p.functions.size ≤ 65536
  short : ∀ f ∈ p.functions, f.code.size < 2 ^ 31

theorem blind_of_compile {σ : Type} (accepted : compile source = .ok p)
    (addressable : p.Addressable) (typed : args.map Value.ty = p.arguments.map (·.ty.operand))
    (host : Host σ) : p.Blind args host := by
  obtain ⟨module, -, compiled⟩ := compiled_of_compile accepted addressable.few addressable.short
  exact compiled.blind typed host

end PixelKernel.Language
