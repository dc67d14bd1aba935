import PixelKernel.Proofs.Code.Emission
import PixelKernel.Proofs.Simulation.Functions

/-! # Compiled programs mean what their texts say

A text that compiles is run as its trees are evaluated: with the same result or the same
failure, and with the same requests to the host in the same order. No run fails for a reason
of the machine's own.
-/

namespace PixelKernel.Language

open Meaning (Stop)

/-- The fault that an evaluation stops with; one that makes no sense has none. -/
def Meaning.Stop.trap? : Stop → Option Trap
  | .missingReturn f => some (.missingReturn f)
  | .callDepth => some .callDepth
  | .host t => some t
  | .stuck => none

/-- A run ends as an evaluation does. -/
def Agrees (o : Except Stop (Option Value)) (r : Except Trap (Option Value)) : Prop :=
  match o with
  | .ok v => r = .ok v
  | .error e => ∃ t, e.trap? = some t ∧ r = .error t

variable {σ : Type} {module : List FunctionDef} {p : Program} {args : List Value}
  {host : Host σ} {s s' : σ}

theorem Ends.trap? {e : Stop} {t : Trap} (h : Ends host s e t) : e.trap? = some t := by
  cases h <;> rfl

/-- A result that the program's kernel may return. -/
def Program.Returns (p : Program) (v : Option Value) : Prop :=
  match p.target with
  | .normal => ∃ x y z w, v = some (.vec4 x y z w)
  | .reduce => v = none

theorem returns_of_declares {k : FunctionDef} {v : Option Value}
    (declares : Target.Declares (some p.target) k.ret) (typed : HasTy v k.ret.operand) :
    p.Returns v := by
  unfold Program.Returns
  cases target : p.target with
  | normal =>
      rw [target] at declares
      rw [show k.ret.operand = .vec4 from declares] at typed
      cases v with
      | none => cases typed
      | some v =>
          obtain ⟨x, y, z, w, rfl⟩ := Value.vec4_of_ty typed
          exact ⟨x, y, z, w, rfl⟩
  | reduce =>
      rw [target] at declares
      rw [show k.ret = .void from declares] at typed
      cases v with
      | none => rfl
      | some v => exact absurd typed v.ty_ne_void

/-- The machine that starts a program's kernel does what the evaluation of the kernel does. -/
theorem kernel_simulates (compiled : Compiled module p)
    (typed : args.map Value.ty = p.arguments.map (·.ty.operand)) (host : Host σ) (fuel : Nat) :
    ∃ m, Machine.enter p p.entry args [] = .ok m ∧ ∀ s,
      Simulates p host fuel (Meaning.kernel module host fuel args s) m s fun v m =>
        p.Returns v ∧ ∀ s, Machine.Does p host m s (.stop (.ok v) s) := by
  obtain ⟨k, found, there, tag, arguments⟩ := compiled.kernel
  rw [arguments, List.map_map] at typed
  obtain ⟨g, at_, function⟩ := FunctionAt.of_compiled compiled there
  have entered := enter_eq at_ function (length_of_typed typed) []
  rw [if_neg (by decide)] at entered
  refine ⟨_, entered, fun s => ?_⟩
  have depth : ([] : List Frame).length + Machine.maxCalls = Machine.maxCalls := Nat.zero_add _
  rcases (function_calls compiled there typed depth :
      Calls p host fuel (Meaning.function module host fuel _ k) p.entry k.ret.operand args [] s) with
    ⟨refused, -⟩ | ⟨m, entered', simulates⟩
  · rw [refused] at entered
    cases entered
  · rw [entered] at entered'
    cases entered'
    unfold Meaning.kernel
    rw [found]
    exact simulates.imp fun v m ⟨returned, leaves⟩ =>
      ⟨returns_of_declares (tag ▸ function.kernel) returned, leaves⟩

/-- A run stops with its `n`-th step; smaller budgets are used up before. -/
structure Program.Stops (p : Program) (args : List Value) (host : Host σ) (s : σ) (n : Nat)
    (r : Except Trap (Option Value)) (s' : σ) : Prop where
  run_eq : ∀ b, p.run args host (b + n) s = ⟨r, b, s'⟩
  run_lt : ∀ b < n, ∃ s₁, p.run args host b s = ⟨.error .budget, 0, s₁⟩

theorem stops_of_halts {m : Machine} {n : Nat} {r : Except Trap (Option Value)}
    (entered : Machine.enter p p.entry args [] = .ok m) (h : Machine.Halts p host n m s r s') :
    p.Stops args host s (n + 1) r s' where
  run_eq b := by rw [Program.run, entered]; exact h.run_eq b
  run_lt b hb := by rw [Program.run, entered]; exact h.run_le (Nat.le_of_lt_succ hb)

/-- A run with the number of steps at which it stops, or at which it has not yet stopped. -/
theorem run_of_kernel (compiled : Compiled module p)
    (typed : args.map Value.ty = p.arguments.map (·.ty.operand)) (host : Host σ) (fuel : Nat)
    (s : σ) :
    match Meaning.kernel module host fuel args s with
    | none => ∀ b ≤ fuel, ∃ s', p.run args host b s = ⟨.error .budget, 0, s'⟩
    | some (.ok v, s') => p.Returns v ∧ ∃ n, p.Stops args host s n (.ok v) s'
    | some (.error e, s') => ∃ t, Ends host s' e t ∧ ∃ n, p.Stops args host s n (.error t) s' := by
  obtain ⟨m, entered, simulates⟩ := kernel_simulates compiled typed host fuel
  have simulates := simulates s
  match h : Meaning.kernel module host fuel args s with
  | none =>
      rw [h] at simulates
      intro b hb
      rw [Program.run, entered]
      exact Machine.Outlasts.run_le simulates hb
  | some (.ok v, s') =>
      rw [h] at simulates
      obtain ⟨n, m', reaches, returns, stop⟩ := simulates
      exact ⟨returns, n + 1, stops_of_halts entered ⟨m', s', reaches, stop s'⟩⟩
  | some (.error e, s') =>
      rw [h] at simulates
      obtain ⟨n, t, ends, halts⟩ := simulates
      exact ⟨t, ends, n + 1, stops_of_halts entered halts⟩

theorem Program.Stops.unique {n n' : Nat} {r r' : Except Trap (Option Value)} {s₁ s₂ : σ}
    (h : p.Stops args host s n r s₁) (h' : p.Stops args host s n' r' s₂) : r = r' ∧ s₁ = s₂ := by
  have same := (h.run_eq n').symm.trans (Nat.add_comm n' n ▸ h'.run_eq n)
  cases same
  exact ⟨rfl, rfl⟩

/-- Runs of the program do what evaluations of the kernel do. -/
structure Program.Implements (p : Program) (module : List FunctionDef) : Prop where
  /-- A run stops exactly if the evaluation ends, with the same outcome and host. -/
  outcome : ∀ {σ : Type} {args : List Value}, args.map Value.ty = p.arguments.map (·.ty.operand) →
    ∀ (host : Host σ) s r s',
      (∃ fuel o, Meaning.kernel module host fuel args s = some (o, s') ∧ Agrees o r) ↔
        ∃ n, p.Stops args host s n r s'
  /-- With the same requests in the same order. -/
  requests : ∀ {σ : Type} {args : List Value}, args.map Value.ty = p.arguments.map (·.ty.operand) →
    ∀ (host : Host σ) s r s' requests,
      (∃ fuel o, Meaning.kernel module host.recorded fuel args (s, []) = some (o, s', requests) ∧
        Agrees o r) ↔ ∃ n, p.Stops args host.recorded (s, []) n r (s', requests)
  /-- The record is one of the run that is recorded. -/
  recorded : ∀ {σ : Type} (args : List Value) (host : Host σ) b s,
    p.run args host b s = (p.run args host.recorded b (s, [])).map Prod.fst
  /-- The trees make sense. -/
  sense : ∀ {σ : Type} {args : List Value}, args.map Value.ty = p.arguments.map (·.ty.operand) →
    ∀ (host : Host σ) fuel s s', Meaning.kernel module host fuel args s ≠ some (.error .stuck, s')

theorem outcome_of_compiled (compiled : Compiled module p)
    (typed : args.map Value.ty = p.arguments.map (·.ty.operand)) (host : Host σ)
    (s s' : σ) (r : Except Trap (Option Value)) :
    (∃ fuel o, Meaning.kernel module host fuel args s = some (o, s') ∧ Agrees o r) ↔
      ∃ n, p.Stops args host s n r s' := by
  constructor
  · rintro ⟨fuel, o, ends, agrees⟩
    have run := run_of_kernel compiled typed host fuel s
    rw [ends] at run
    cases o with
    | ok v => exact agrees ▸ run.2
    | error e =>
        obtain ⟨t, named, rfl⟩ := agrees
        obtain ⟨t', end_, stops⟩ := run
        rw [end_.trap?] at named
        cases named
        exact stops
  · rintro ⟨n, stops⟩
    -- the run is shorter than this fuel, so the evaluation cannot use it up
    have run := run_of_kernel compiled typed host (n + 1) s
    match h : Meaning.kernel module host (n + 1) args s with
    | none =>
        rw [h] at run
        obtain ⟨s₁, used⟩ := run (n + 1) (Nat.le_refl _)
        rw [Nat.add_comm, stops.run_eq] at used
        cases used
    | some (.ok v, s₁) =>
        rw [h] at run
        obtain ⟨-, n', stops'⟩ := run
        obtain ⟨rfl, rfl⟩ := stops.unique stops'
        exact ⟨n + 1, .ok v, h, rfl⟩
    | some (.error e, s₁) =>
        rw [h] at run
        obtain ⟨t, end_, n', stops'⟩ := run
        obtain ⟨rfl, rfl⟩ := stops.unique stops'
        exact ⟨n + 1, .error e, h, t, end_.trap?, rfl⟩

/-- A text that compiles means what its program does, on all arguments and for all hosts. -/
theorem implements_of_compile {source : String} (accepted : compile source = .ok p)
    (few : p.functions.size ≤ 65536) (short : ∀ f ∈ p.functions, f.code.size < 2 ^ 31) :
    ∃ module, parseModule source = .ok module ∧ p.Implements module := by
  obtain ⟨module, parsed, compiled⟩ := compiled_of_compile accepted few short
  refine ⟨module, parsed, ?_, ?_, ?_, ?_⟩
  · exact fun typed host s r s' => outcome_of_compiled compiled typed host s s' r
  · exact fun typed host s r s' requests =>
      outcome_of_compiled compiled typed host.recorded (s, []) (s', requests) r
  · exact fun args host b s => Program.run_alike host.alike_recorded (.inr trivial) args b (s, [])
  · intro σ args typed host fuel s s' stuck
    have run := run_of_kernel compiled typed host fuel s
    rw [stuck] at run
    obtain ⟨t, ends, -⟩ := run
    cases ends

/-- A kernel that copies its image. -/
def copySource : String := "kernel vec4 copy(sampler s) \x7b return sample(s, destCoord()); \x7d"

def copyProgram : Program where
  functions := #[⟨"copy", [.sampler], .vec4, #[.sampler],
    #[.load 0, .builtin .destCoord 0, .builtin .sample 2, .ret, .missingReturn]⟩]
  consts := #[]
  entry := 0
  target := .normal
  arguments := [⟨"s", .sampler, false⟩]

theorem compile_copySource : compile copySource = .ok copyProgram := by
  have made : (compile copySource).toOption = some copyProgram := by decide +kernel
  cases h : compile copySource with
  | error d => rw [h] at made; cases made
  | ok p => rw [h] at made; cases made; rfl

theorem copyProgram_implements : compile copySource = .ok copyProgram ∧
    copyProgram.functions.size ≤ 65536 ∧ (∀ f ∈ copyProgram.functions, f.code.size < 2 ^ 31) ∧
    ∃ module, parseModule copySource = .ok module ∧ copyProgram.Implements module :=
  ⟨compile_copySource, by decide, by decide,
    implements_of_compile compile_copySource (by decide) (by decide)⟩

/-- Ways in which a run may end. -/
structure Program.Sound (p : Program) : Prop where
  /-- There is a result of the kernel's type or a failure that the language knows. -/
  outcome : ∀ {σ : Type} {args : List Value}, args.map Value.ty = p.arguments.map (·.ty.operand) →
    ∀ (host : Host σ) b s,
      match (p.run args host b s).result with
      | .ok v => p.Returns v
      | .error t => t = .budget ∨ (∃ f, t = .missingReturn f) ∨ t = .callDepth ∨
        host.Refuses t (p.run args host b s).state
  /-- What becomes of emitted colours makes no difference to a normal kernel. -/
  silent : p.target = .normal → ∀ {σ : Type} (args : List Value) (host : Host σ) emit b s,
    p.run args { host with emit } b s = p.run args host b s

/-- No run of a compiled program fails for a reason of the machine's own. -/
theorem sound_of_compile {source : String} (accepted : compile source = .ok p)
    (few : p.functions.size ≤ 65536) (short : ∀ f ∈ p.functions, f.code.size < 2 ^ 31) :
    p.Sound := by
  obtain ⟨module, -, compiled⟩ := compiled_of_compile accepted few short
  refine ⟨?_, ?_⟩
  · intro σ args typed host b s
    have stopped {n r s'} (stops : p.Stops args host s n r s') :
        (∃ s₁, p.run args host b s = ⟨.error .budget, 0, s₁⟩) ∨
          p.run args host b s = ⟨r, b - n, s'⟩ := by
      by_cases early : b < n
      · exact .inl (stops.run_lt b early)
      · have run := stops.run_eq (b - n)
        rw [Nat.sub_add_cancel (by omega)] at run
        exact .inr run
    have run := run_of_kernel compiled typed host b s
    match h : Meaning.kernel module host b args s with
    | none =>
        rw [h] at run
        obtain ⟨s₁, used⟩ := run b (Nat.le_refl b)
        rw [used]
        exact .inl rfl
    | some (.ok v, s') =>
        rw [h] at run
        obtain ⟨returns, n, stops⟩ := run
        rcases stopped stops with ⟨s₁, used⟩ | ran
        · rw [used]
          exact .inl rfl
        · rw [ran]
          exact returns
    | some (.error e, s') =>
        rw [h] at run
        obtain ⟨t, ends, n, stops⟩ := run
        rcases stopped stops with ⟨s₁, used⟩ | ran
        · rw [used]
          exact .inl rfl
        · rw [ran]
          cases ends with
          | missingReturn => exact .inr (.inl ⟨_, rfl⟩)
          | callDepth => exact .inr (.inr (.inl rfl))
          | host refused => exact .inr (.inr (.inr refused))
  · intro normal σ args host emit b s
    have silent := silent_of_compile accepted normal
    exact (Program.run_alike (host.alike_of_emit emit) (.inl silent) args b s).symm

theorem copyProgram_sound : compile copySource = .ok copyProgram ∧
    copyProgram.functions.size ≤ 65536 ∧ (∀ f ∈ copyProgram.functions, f.code.size < 2 ^ 31) ∧
    copyProgram.Sound :=
  ⟨compile_copySource, by decide, by decide,
    sound_of_compile compile_copySource (by decide) (by decide)⟩

end PixelKernel.Language
