import PixelKernel.Proofs.Simulation.Statements
import PixelKernel.Proofs.Code.Functions

/-! # Runs of functions

A call enters the callee with its arguments in the first slots, and its return goes on behind
the call. As many calls may be in progress in the tree as frames may wait in the machine.
-/

namespace PixelKernel.Language

open Meaning (Env Eval Flow)

variable {σ : Type} {module : List FunctionDef} {p : Program} {host : Host σ} {fuel : Nat}

/-! ## Parameters -/

theorem set!_eq_self {slots : Array Value} {i : Nat} {v : Value} (h : slots[i]? = some v) :
    slots.set! i v = slots := by
  obtain ⟨inside, rfl⟩ := Array.getElem?_eq_some_iff.1 h
  rw [Array.set!_eq_setIfInBounds, Array.setIfInBounds, dif_pos inside, Array.set_getElem_self]

theorem mirrors_params {slots : Array Value} {scopes scopes' : List Scope} {k n : Nat}
    {params : List Param} {args : List Value} {env : Env} (size : slots.size = n)
    (h : ParamsAt n scopes k params scopes') (mirrors : Mirrors slots scopes env)
    (typed : args.map Value.ty = params.map (·.ty.operand))
    (held : ∀ i v, args[i]? = some v → slots[k + i]? = some v) :
    Mirrors slots scopes'
      ((params.zip args).foldl (fun env (p, v) => env.declare p.name ⟨p.ty, v⟩) env) := by
  induction h generalizing args env with
  | nil => exact mirrors
  | @cons _ k p rest x _ _ value declared xt slot _ ih =>
      cases args with
      | nil => cases typed
      | cons v args =>
          obtain ⟨vt, typeds⟩ := List.cons.inj typed
          have here := held 0 v rfl
          rw [Nat.add_zero, ← slot] at here
          have first := mirrors.declare size declared (w := v) (by rw [vt, xt])
          rw [set!_eq_self here, xt] at first
          refine ih first typeds fun i u hu => ?_
          rw [Nat.add_assoc, Nat.add_comm 1]
          exact held (i + 1) u hu

theorem params_le {scopes scopes' : List Scope} {k n : Nat} {params : List Param}
    (h : ParamsAt n scopes k params scopes') (start : k ≤ n) : k + params.length ≤ n := by
  induction h with
  | nil => exact start
  | cons value declared _ slot _ ih =>
      have := declared.room
      rw [List.length_cons]
      have := ih (by omega)
      omega

theorem values_of_params {scopes scopes' : List Scope} {k n : Nat} {params : List Param}
    (h : ParamsAt n scopes k params scopes') : ∀ p ∈ params, p.ty ≠ .void := by
  induction h with
  | nil => exact nofun
  | cons value _ _ _ _ ih => exact List.forall_mem_cons.2 ⟨value, ih⟩

/-! ## Calls -/

theorem FunctionAt.of_compiled (compiled : Compiled module p) {i : Nat} {f : FunctionDef}
    (at_ : module[i]? = some f) :
    ∃ g, p.functions[i]? = some g ∧ FunctionAt module p.consts f g := by
  obtain ⟨same, each⟩ := List.forall₂_iff_get.1 compiled.functions
  obtain ⟨inside, rfl⟩ := List.getElem?_eq_some_iff.1 at_
  have there : i < p.functions.size := by
    rw [← Array.length_toList, ← same]
    exact inside
  exact ⟨p.functions[i], Array.getElem?_eq_getElem there, each i inside there⟩

theorem FunctionAt.params_values {f : FunctionDef} {g : Function} {consts : Array Value}
    (h : FunctionAt module consts f g) : ∀ q ∈ f.params, q.ty ≠ .void := by
  obtain ⟨_, _, _, params, -⟩ := h.body
  exact values_of_params params

/-- Slots of a function that was entered: its arguments, then zeros. -/
def entrySlots (g : Function) (args : List Value) : Array Value :=
  (args ++ (g.locals.toList.drop args.length).map Value.zero).toArray

theorem enter_eq {i : Nat} {f : FunctionDef} {g : Function} {args : List Value}
    (there : p.functions[i]? = some g) (function : FunctionAt module p.consts f g)
    (count : args.length = f.params.length) (callers : List Frame) :
    Machine.enter p i args callers =
      if callers.length ≥ Machine.maxCalls then .error .callDepth
      else .ok ⟨⟨g, 0, entrySlots g args, []⟩, callers⟩ := by
  unfold Machine.enter
  rw [there]
  dsimp only
  rw [if_neg (by rw [function.params, List.length_map, count]; exact not_not_intro rfl)]
  rfl

/-- What calling a function does, as the machine that is entered sees it. -/
def Calls (p : Program) (host : Host σ) (fuel : Nat) (call : List Value → σ →
    Option (Except Meaning.Stop (Option Value) × σ)) (i : Nat) (t : Ty) (args : List Value)
    (callers : List Frame) (s : σ) : Prop :=
  (Machine.enter p i args callers = .error .callDepth ∧
      call args s = some (.error .callDepth, s)) ∨
    ∃ m, Machine.enter p i args callers = .ok m ∧
      Simulates p host fuel (call args s) m s fun r m =>
        HasTy r t ∧ ∀ s, Machine.Does p host m s (Machine.leave callers r s)

theorem call_simulates {call : List Value → σ → Option (Except Meaning.Stop (Option Value) × σ)}
    {g : Function} {i pc : Nat} {t : Ty} {args stack : List Value} {callers : List Frame}
    {slots : Array Value} {s : σ} (index : i < 65536) (count : args.length < 256)
    (op : g.code[pc]? = some (.call (.ofNat i) (.ofNat args.length)))
    (h : Calls p host fuel call i t args (⟨g, pc + 1, slots, stack⟩ :: callers) s) :
    Simulates p host fuel (call args s) ⟨⟨g, pc, slots, args.reverse ++ stack⟩, callers⟩ s
      fun r m => HasTy r t ∧ m = ⟨⟨g, pc + 1, slots, r.toList ++ stack⟩, callers⟩ := by
  have argc : (UInt8.ofNat args.length).toNat = args.length := UInt8.toNat_ofNat_of_lt' count
  have callee : (UInt16.ofNat i).toNat = i := UInt16.toNat_ofNat_of_lt' index
  rcases h with ⟨refused, stops⟩ | ⟨m, entered, simulates⟩
  · rw [stops]
    refine ⟨0, .callDepth, .callDepth, _, _, .refl, Machine.step_call_error op argc ?_⟩
    rw [callee, refused]
  · refine .step (Machine.step_call op argc (callee.symm ▸ entered)) (simulates.finish ?_)
    rintro r s' m' ⟨typed, leaves⟩
    exact ⟨1, _, .one (leaves s'), typed, rfl⟩

theorem length_of_typed {f : FunctionDef} {args : List Value}
    (typed : args.map Value.ty = f.params.map (·.ty.operand)) : args.length = f.params.length := by
  simpa using congrArg List.length typed

/-- The machine that was entered has each parameter in its slot. -/
theorem entered_mirrors {f : FunctionDef} {g : Function} {args : List Value}
    {scopes : List Scope}
    (params : ParamsAt g.locals.size [∅] 0 f.params scopes)
    (typed : args.map Value.ty = f.params.map (·.ty.operand)) :
    (entrySlots g args).size = g.locals.size ∧
      Mirrors (entrySlots g args) scopes (Meaning.parameters f.params args) := by
  have few := params_le params (Nat.zero_le _)
  rw [Nat.zero_add, ← length_of_typed typed] at few
  have size : (entrySlots g args).size = g.locals.size := by
    unfold entrySlots
    rw [List.size_toArray, List.length_append, List.length_map, List.length_drop,
      g.locals.length_toList, Nat.add_sub_cancel' few]
  have empty : Mirrors (entrySlots g args) [∅] [[]] := Mirrors.enter ⟨.nil, trivial⟩
  refine ⟨size, mirrors_params size params empty typed fun i v hv => ?_⟩
  rw [Nat.zero_add, entrySlots, List.getElem?_toArray,
    List.getElem?_append_left (List.getElem?_eq_some_iff.1 hv).1, hv]

/-- A function's body and what stands behind it. -/
theorem body_simulates {S : Setting σ} {f : FunctionDef} {args : List Value} {s : σ}
    (function : FunctionAt S.cx.module S.program.consts f S.function) (ret : S.cx.ret = f.ret)
    (typed : args.map Value.ty = f.params.map (·.ty.operand)) :
    Simulates S.program S.cx.host S.cx.fuel
      (match Meaning.stmts S.cx f.body (Meaning.parameters f.params args) s with
        | none => none
        | some (.error e, s) => some (.error e, s)
        | some (.ok (flow, _), s) => some (Meaning.result f flow, s))
      ⟨⟨S.function, 0, entrySlots S.function args, []⟩, S.callers⟩ s fun r m =>
        HasTy r f.ret.operand ∧
          ∀ s, Machine.Does S.program S.cx.host m s (Machine.leave S.callers r s) := by
  obtain ⟨scopes, pc, scopes', params, body, last⟩ := function.body
  rw [← ret] at body
  obtain ⟨size, mirrors⟩ := entered_mirrors params typed
  have stands : S.Stands scopes 0 [] (Meaning.parameters f.params args)
      ⟨⟨S.function, 0, entrySlots S.function args, []⟩, S.callers⟩ := ⟨_, rfl, size, mirrors⟩
  have runs := StmtsAt.executes body stands (s := s)
  match h : Meaning.stmts S.cx f.body (Meaning.parameters f.params args) s with
  | none => rw [h] at runs; exact runs
  | some (.error e, s') => rw [h] at runs; exact runs
  | some (.ok (flow, env), s') =>
      rw [h] at runs
      obtain ⟨n, m, reaches, arrives⟩ := runs
      cases flow with
      | ret v => exact ⟨n, m, reaches, ret ▸ arrives.1, arrives.2⟩
      | breakOut | continueOn =>
          obtain ⟨_, _, ⟨⟩, -⟩ := arrives
      | next =>
          obtain ⟨slots, rfl, -⟩ := arrives
          dsimp only [Meaning.result]
          by_cases void : f.ret = .void
          · rw [if_pos void] at last ⊢
            exact ⟨n, _, reaches, Ty.operand_eq_void.2 void, fun _ => Machine.step_retVoid last⟩
          · rw [if_neg void] at last ⊢
            refine ⟨n, _, .missingReturn, _, _, reaches, ?_⟩
            rw [← function.name]
            exact Machine.step_missingReturn last

theorem function_calls (compiled : Compiled module p) {room i : Nat} {f : FunctionDef}
    {args : List Value} {callers : List Frame} {s : σ} (at_ : module[i]? = some f)
    (typed : args.map Value.ty = f.params.map (·.ty.operand))
    (depth : callers.length + room = Machine.maxCalls) :
    Calls p host fuel (Meaning.function module host fuel room f) i f.ret.operand args callers s := by
  induction room generalizing i f args callers s with
  | zero =>
      obtain ⟨g, there, function⟩ := FunctionAt.of_compiled compiled at_
      refine .inl ⟨?_, rfl⟩
      rw [enter_eq there function (length_of_typed typed), if_pos (by omega)]
  | succ room ih =>
      obtain ⟨g, there, function⟩ := FunctionAt.of_compiled compiled at_
      let S : Setting σ :=
        { program := p
          cx := ⟨module, host, fuel, f.ret, Meaning.function module host fuel room⟩
          function := g
          callers
          params := fun f' mem => by
            obtain ⟨i', at'⟩ := List.mem_iff_getElem?.1 mem
            obtain ⟨g', -, function'⟩ := FunctionAt.of_compiled compiled at'
            exact function'.params_values
          calls := fun {i' f' args' pc slots stack s'} at' index count typed' op => by
            have len := length_of_typed typed'
            rw [← len] at count op
            refine call_simulates index count op (ih at' typed' ?_)
            rw [List.length_cons]
            omega }
      refine .inr ⟨⟨⟨g, 0, entrySlots g args, []⟩, callers⟩, ?_, ?_⟩
      · rw [enter_eq there function (length_of_typed typed), if_neg (by omega)]
      · exact body_simulates (S := S) function rfl typed

end PixelKernel.Language
