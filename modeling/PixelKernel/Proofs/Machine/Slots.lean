import PixelKernel.Proofs.Code.Resolution
import PixelKernel.Proofs.Machine.Budget

/-! # Slots of calls in progress

An instruction changes no slot but the one that it stores into, and that of the running call. So a
constant keeps its first value, and a sampler that was passed stays the same, for there is no
other instruction that stores into their slots.
-/

namespace PixelKernel.Language

/-- The slot that an instruction stores into. -/
def Op.stores? : Op → Option Nat
  | .store slot | .storeLanes slot _ => some slot.toNat
  | _ => none

/-- What an instruction may do to the call that executes it. -/
structure Frame.Becomes (f : Frame) (o : Op) (f' : Frame) : Prop where
  function : f'.function = f.function
  slots : ∀ i, o.stores? ≠ some i → f'.slots[i]? = f.slots[i]?

namespace Machine

variable {σ : Type} {p : Program} {host : Host σ} {m m₁ m₂ : Machine} {s s₁ s₂ : σ}
  {f f' : Frame} {o : Op} {k : Nat}

/-! ## Single instructions -/

/-- Instructions that do not store leave the slots alone. -/
theorem becomes_of_same (function : f'.function = f.function) (slots : f'.slots = f.slots) :
    f.Becomes o f' :=
  ⟨function, fun i _ => by rw [slots]⟩

theorem becomes_onTop {g : Value → Except Trap Value} (h : onTop f g = .ok f') :
    f.Becomes o f' := by
  unfold onTop at h
  split at h
  · cases h
  next v stack _ =>
    cases w : g v with
    | error => rw [w] at h; cases h
    | ok => rw [w] at h; cases h; exact becomes_of_same rfl rfl

theorem becomes_onTwo {g : Value → Value → Except Trap Value} (h : onTwo f g = .ok f') :
    f.Becomes o f' := by
  unfold onTwo at h
  split at h
  next b a stack _ =>
    cases w : g a b with
    | error => rw [w] at h; cases h
    | ok => rw [w] at h; cases h; exact becomes_of_same rfl rfl
  · cases h

theorem becomes_branch {site : Nat} {offset : Int32} {take : Bool}
    (h : branch f site offset take = .ok f') : f.Becomes o f' := by
  unfold branch at h
  split at h
  next b stack _ =>
    split at h
    · cases lands : jumpTarget site offset f.function.code.size with
      | error => rw [lands] at h; cases h
      | ok => rw [lands] at h; cases h; exact becomes_of_same rfl rfl
    · cases h; exact becomes_of_same rfl rfl
  · cases h
  · cases h

/-- A store takes its value off the stack. -/
theorem store_ran {slot : Nat} {g : Value → Value → Except Trap Value}
    (h : store f slot g = .ok f') : ∃ v stack old w, f.stack = v :: stack ∧
      f.slots[slot]? = some old ∧ g old v = .ok w ∧
      f' = { f with slots := f.slots.set! slot w, stack } := by
  unfold store at h
  split at h
  · cases h
  next v stack top =>
    split at h
    · cases h
    next old there =>
      cases w : g old v with
      | error => rw [w] at h; cases h
      | ok => rw [w] at h; cases h; exact ⟨v, stack, old, _, top, there, w, rfl⟩

theorem becomes_store {slot : Nat} {g : Value → Value → Except Trap Value}
    (stores : o.stores? = some slot) (h : store f slot g = .ok f') : f.Becomes o f' := by
  obtain ⟨v, stack, old, w, -, -, -, rfl⟩ := store_ran h
  refine ⟨rfl, fun i other => ?_⟩
  have apart : slot ≠ i := fun same => other (same ▸ stores)
  simp [Array.set!_eq_setIfInBounds, Array.getElem?_setIfInBounds_ne apart]

theorem becomes_local {site : Nat} (h : local? p site f o = .ok f') : f.Becomes o f' := by
  cases o with
  | store slot => exact becomes_store rfl h
  | storeLanes slot lanes => exact becomes_store rfl h
  | select | neg | not | toInt | toBool => exact becomes_onTop h
  | arith | compare => exact becomes_onTwo h
  | jumpIfFalse | jumpIfTrue => exact becomes_branch h
  | builtin | call | ret | retVoid | missingReturn => cases h; exact becomes_of_same rfl rfl
  | const i =>
      rw [local?] at h
      split at h <;> cases h
      exact becomes_of_same rfl rfl
  | load slot =>
      rw [local?] at h
      split at h <;> cases h
      exact becomes_of_same rfl rfl
  | dup =>
      rw [local?] at h
      split at h <;> cases h
      exact becomes_of_same rfl rfl
  | pop =>
      rw [local?] at h
      split at h <;> cases h
      exact becomes_of_same rfl rfl
  | toFloat depth =>
      rw [local?] at h
      split at h
      · cases h
      next v _ =>
        cases w : v.toFloat with
        | error => rw [w] at h; cases h
        | ok => rw [w] at h; cases h; exact becomes_of_same rfl rfl
  | construct width argc =>
      rw [local?] at h
      split at h
      · cases h
      next parts stack _ =>
        cases w : Value.construct width.toNat parts with
        | error => rw [w] at h; cases h
        | ok => rw [w] at h; cases h; exact becomes_of_same rfl rfl
  | jump offset =>
      rw [local?] at h
      cases lands : jumpTarget site offset f.function.code.size with
      | error => rw [lands] at h; cases h
      | ok => rw [lands] at h; cases h; exact becomes_of_same rfl rfl

theorem callers_of_enter {index : Nat} {args : List Value} {callers : List Frame}
    (h : enter p index args callers = .ok m) : ∃ f, m = ⟨f, callers⟩ := by
  unfold enter at h
  split at h
  · cases h
  · split at h
    · cases h
    · split at h <;> cases h
      exact ⟨_, rfl⟩

/-- What a step can do: go on in the running call, enter another one, or go back to the call that
    waits for the running one. -/
theorem step_ran (goes : step p host m s = .go m₁ s₁) : ∃ o, m.next? = some o ∧
    ((∃ f, m₁ = ⟨f, m.callers⟩ ∧ m.frame.Becomes o f) ∨
      (∃ f entered, m₁ = ⟨entered, f :: m.callers⟩ ∧ m.frame.Becomes o f) ∨
      ∃ f callers, m.callers = f :: callers ∧ ∃ stack, m₁ = ⟨{ f with stack }, callers⟩) := by
  have left {r : Option Value} (h : leave m.callers r s = .go m₁ s₁) :
      ∃ f callers, m.callers = f :: callers ∧ ∃ stack, m₁ = ⟨{ f with stack }, callers⟩ := by
    unfold leave at h
    split at h
    · cases h
    next f callers waiting => cases h; exact ⟨f, callers, waiting, _, rfl⟩
  unfold step at goes
  unfold next?
  dsimp only at goes
  split at goes
  · cases goes
  next o fetched =>
  refine ⟨o, fetched, ?_⟩
  cases o with
  | builtin b argc =>
      dsimp only at goes
      split at goes
      · cases goes
      · split at goes <;> cases goes
        exact .inl ⟨_, rfl, becomes_of_same rfl rfl⟩
  | call index argc =>
      dsimp only at goes
      split at goes
      · cases goes
      · split at goes
        next entered =>
          cases goes
          obtain ⟨g, rfl⟩ := callers_of_enter entered
          exact .inr (.inl ⟨_, g, rfl, becomes_of_same rfl rfl⟩)
        next => cases goes
  | ret =>
      dsimp only at goes
      split at goes
      · cases goes
      · exact .inr (.inr (left goes))
  | retVoid => exact .inr (.inr (left goes))
  | missingReturn => cases goes
  | _ =>
      dsimp only at goes
      split at goes
      next f ran =>
        cases goes
        have becomes := becomes_local ran
        exact .inl ⟨f, rfl, becomes.function, becomes.slots⟩
      next => cases goes

/-! ## Calls in progress -/

/-- The calls in progress, the outermost first. -/
def calls (m : Machine) : List Frame := m.callers.reverse ++ [m.frame]

theorem calls_running (m : Machine) : m.calls[m.callers.length]? = some m.frame := by
  rw [calls, List.getElem?_append_right (by simp)]
  simp

theorem calls_waiting {callers : List Frame} (waits : k < callers.length) :
    (⟨f, callers⟩ : Machine).calls[k]? = callers.reverse[k]? := by
  rw [calls, List.getElem?_append_left (by simpa using waits)]

theorem le_of_calls (there : m.calls[k]? = some f) : k ≤ m.callers.length := by
  have inside := (List.getElem?_eq_some_iff.1 there).1
  rw [calls, List.length_append, List.length_reverse, List.length_singleton] at inside
  omega

/-- What an instruction does to the running frame it does to no other call. -/
theorem calls_of_becomes {callers : List Frame} {frame : Frame} (becomes : frame.Becomes o f')
    (there : (⟨frame, callers⟩ : Machine).calls[k]? = some f) :
    ∃ f₁, (⟨f', callers⟩ : Machine).calls[k]? = some f₁ ∧ f₁.function = f.function ∧
      ∀ i, (k = callers.length → o.stores? ≠ some i) → f₁.slots[i]? = f.slots[i]? := by
  obtain waits | rfl := Nat.lt_or_eq_of_le (le_of_calls there)
  · rw [calls_waiting waits] at there
    exact ⟨f, by rw [calls_waiting waits, there], rfl, fun _ _ => rfl⟩
  · cases (calls_running _).symm.trans there
    exact ⟨f', calls_running ⟨f', callers⟩, becomes.function, fun i other =>
      becomes.slots i (other rfl)⟩

theorem calls_waiting_of_le {callers : List Frame} {frame : Frame} (le : k ≤ callers.length) :
    (⟨frame, f :: callers⟩ : Machine).calls[k]? = (⟨f, callers⟩ : Machine).calls[k]? :=
  (calls_waiting (Nat.lt_succ_of_le le)).trans (by simp [calls])

/-- A step leaves all calls in progress as they are, but for the running one. -/
theorem calls_of_step (goes : step p host m s = .go m₁ s₁) (there : m.calls[k]? = some f)
    (lasts : k ≤ m₁.callers.length) : ∃ f₁, m₁.calls[k]? = some f₁ ∧ f₁.function = f.function ∧
      ∀ i, (k = m.callers.length → ∀ o, m.next? = some o → o.stores? ≠ some i) →
        f₁.slots[i]? = f.slots[i]? := by
  obtain ⟨frame, callers⟩ := m
  obtain ⟨o, fetched, same | entered | left⟩ := step_ran goes
  · obtain ⟨f', rfl, becomes⟩ := same
    obtain ⟨f₁, there₁, function, slots⟩ := calls_of_becomes becomes there
    exact ⟨f₁, there₁, function, fun i other => slots i fun running => other running o fetched⟩
  · obtain ⟨f', new, rfl, becomes⟩ := entered
    rw [calls_waiting_of_le (le_of_calls there)]
    obtain ⟨f₁, there₁, function, slots⟩ := calls_of_becomes becomes there
    exact ⟨f₁, there₁, function, fun i other => slots i fun running => other running o fetched⟩
  · obtain ⟨g, rest, rfl, stack, rfl⟩ := left
    rw [calls_waiting_of_le lasts] at there
    -- the caller that goes on gets the result as if from an instruction that stores nothing
    obtain ⟨f₁, there₁, function, slots⟩ :=
      calls_of_becomes (becomes_of_same rfl rfl : g.Becomes .pop { g with stack }) there
    exact ⟨f₁, there₁, function, fun i _ => slots i fun _ => nofun⟩

/-- Steps while call number `k` lasts and executes no instruction at the sites to avoid. -/
inductive During (p : Program) (host : Host σ) (k : Nat) (avoided : Nat → Prop) :
    Machine → σ → Machine → σ → Prop where
  | refl {m : Machine} {s : σ} : During p host k avoided m s m s
  | next {m m₁ m₂ : Machine} {s s₁ s₂ : σ} (avoids : k = m.callers.length → ¬ avoided m.frame.pc)
      (goes : step p host m s = .go m₁ s₁) (lasts : k ≤ m₁.callers.length)
      (rest : During p host k avoided m₁ s₁ m₂ s₂) : During p host k avoided m s m₂ s₂

/-- A slot into which only instructions at these sites store is not changed. -/
theorem During.slot_eq {avoided : Nat → Prop} {i : Nat} (during : During p host k avoided m s m₂ s₂)
    (there : m.calls[k]? = some f) (sites : ∀ site o, f.function.code[site]? = some o →
      o.stores? = some i → avoided site) :
    ∃ f₂, m₂.calls[k]? = some f₂ ∧ f₂.function = f.function ∧ f₂.slots[i]? = f.slots[i]? := by
  induction during generalizing f with
  | refl => exact ⟨f, there, rfl, rfl⟩
  | @next m m₁ m₂ s s₁ s₂ avoids goes lasts rest ih =>
      obtain ⟨f₁, there₁, function, slots⟩ := calls_of_step goes there lasts
      obtain ⟨f₂, there₂, function₂, slot⟩ := ih there₁ (function ▸ sites)
      refine ⟨f₂, there₂, function₂.trans function,
        slot.trans (slots i fun running o fetched => ?_)⟩
      -- The running call is this one, so the instruction is one of its function.
      subst running
      cases (calls_running _).symm.trans there
      exact fun stores => avoids rfl (sites _ o fetched stores)

end Machine

/-! ## Instructions that store -/

theorem written?_reference? (consts : Array Value) (o : Op) :
    (o.reference? consts).bind Reference.written? = o.stores? := by
  cases o with
  | const i =>
      cases there : consts[i.toNat]? with
      | none => simp [Op.reference?, Op.stores?, there]
      | some v => simp [Op.reference?, Op.stores?, there, Reference.written?_value]
  | _ => rfl

theorem exists_of_filterMap_eq_singleton {α β : Type} {g : α → Option β} {xs : List α} {b : β}
    (h : xs.filterMap g = [b]) : ∃ i a, xs[i]? = some a ∧ g a = some b ∧
      ∀ (j : Nat) c, xs[j]? = some c → (g c).isSome → j = i := by
  induction xs with
  | nil => cases h
  | cons x xs ih =>
      rw [List.filterMap_cons] at h
      cases first : g x with
      | some b' =>
          rw [first] at h
          obtain ⟨rfl, none_⟩ := List.cons.inj h
          refine ⟨0, x, rfl, first, fun j c there some_ => ?_⟩
          cases j with
          | zero => rfl
          | succ j =>
              have := List.filterMap_eq_nil_iff.1 none_ c (List.mem_of_getElem? there)
              rw [this] at some_
              cases some_
      | none =>
          rw [first] at h
          obtain ⟨i, a, there, holds, unique⟩ := ih h
          refine ⟨i + 1, a, there, holds, fun j c there some_ => ?_⟩
          cases j with
          | zero =>
              cases there
              rw [first] at some_
              cases some_
          | succ j => rw [unique j c there some_]

theorem declared_of_params (ps : List Param) (n : Naming) :
    (ps.foldl (fun n p => n.declare p.name p.ty false) n).declared =
      n.declared ++ (ps.zipIdx n.declared.length).map fun (p, i) => ⟨i, p.ty, false⟩ := by
  induction ps generalizing n with
  | nil => simp
  | cons p rest ih =>
      rw [List.foldl_cons, ih]
      simp [Naming.declare]

/-- Parameters are the first variables, and none of them is a constant. -/
theorem FunctionDef.getElem?_naming (f : FunctionDef) (i : Nat) :
    f.naming.declared[i]? = (f.params[i]?).map fun q => ⟨i, q.ty, false⟩ := by
  unfold naming
  rw [declared_of_params]
  simp only [List.length_nil, List.nil_append, List.getElem?_map, List.getElem?_zipIdx,
    Option.map_map, Nat.zero_add]
  rfl

section

variable {module : List FunctionDef} {consts : Array Value} {f : FunctionDef} {g : Function}

theorem FunctionRefers.writes (h : FunctionRefers module consts f g) (i : Nat) :
    g.code.toList.filterMap (fun o => (o.reference? consts).filter (·.written? == some i)) =
      (Reference.writes i (f.resolve module).1).map Reference.narrowed := by
  have same := congrArg (Reference.writes i) h.same
  unfold Op.references Reference.writes at same
  rw [List.filter_filterMap] at same
  rw [same, List.filter_map, Reference.writes]
  congr 2
  funext r
  cases r <;> rfl

theorem isSome_of_stores {o : Op} {i : Nat} (stores : o.stores? = some i) :
    ((o.reference? consts).filter (·.written? == some i)).isSome := by
  rw [← written?_reference? consts] at stores
  obtain ⟨r, refers, writes⟩ := Option.bind_eq_some_iff.1 stores
  rw [refers]
  simp [Option.filter, writes]

/-- No instruction stores into the slot of a parameter that cannot be assigned to. -/
theorem FunctionRefers.untouched (h : FunctionRefers module consts f g) {i : Nat} {x : Numbered}
    (parameter : f.naming.declared[i]? = some x) (fixed : ¬ x.Assignable) {site : Nat} {o : Op}
    (there : g.code[site]? = some o) : o.stores? ≠ some i := by
  intro stores
  have once := h.respects.once i x (Naming.getElem?_of_prefix h.respects.grown parameter) fixed
  have writes := h.writes i
  rw [once, if_pos (List.getElem?_eq_some_iff.1 parameter).1] at writes
  have none_ := List.filterMap_eq_nil_iff.1 writes o
    (List.mem_of_getElem? ((Array.getElem?_toList ..).trans there))
  have some_ : ((o.reference? consts).filter (·.written? == some i)).isSome :=
    isSome_of_stores stores
  rw [none_] at some_
  cases some_

/-- One instruction stores into the slot of a variable that cannot be assigned to. -/
theorem FunctionRefers.initialised (h : FunctionRefers module consts f g) {i : Nat} {x : Numbered}
    (there : (f.resolve module).2.declared[i]? = some x) (fixed : ¬ x.Assignable)
    (local_ : f.params.length ≤ i) : ∃ site slot, g.code[site]? = some (.store slot) ∧
      slot.toNat = i ∧
      ∀ (site' : Nat) o, g.code[site']? = some o → o.stores? = some i → site' = site := by
  have outside : ¬ i < f.naming.declared.length := fun inside => by
    have parameter := f.getElem?_naming i
    rw [List.getElem?_eq_getElem inside, List.getElem?_eq_none local_] at parameter
    cases parameter
  have writes := h.writes i
  rw [h.respects.once i x there fixed, if_neg outside] at writes
  obtain ⟨site, o, fetched, holds, unique⟩ := exists_of_filterMap_eq_singleton writes
  rw [Array.getElem?_toList] at fetched
  obtain ⟨r, refers, filtered⟩ : ∃ r, o.reference? consts = some r ∧ r = .write i none := by
    cases refers : o.reference? consts with
    | none => rw [refers] at holds; cases holds
    | some r =>
        rw [refers, Option.filter_some] at holds
        split at holds <;> cases holds
        exact ⟨_, rfl, rfl⟩
  subst filtered
  have stores : o.stores? = some i := by
    rw [← written?_reference? consts, refers]
    rfl
  cases o with
  | store slot =>
      refine ⟨site, slot, fetched, Option.some.inj stores, fun site' o there stores => ?_⟩
      exact unique site' o ((Array.getElem?_toList ..).trans there) (isSome_of_stores stores)
  | storeLanes slot lanes => cases refers
  | _ => cases stores

end

/-! ## Constants and samplers -/

/-- What no run of a program changes. -/
structure Program.Preserves (p : Program) (module : List FunctionDef) : Prop where
  /-- A variable that is declared as a constant has one instruction that gives it its value. From
      then on it has this value as long as the call lasts, or until the call comes to the
      declaration again. -/
  constants : ∀ (i : Nat) (f : FunctionDef) (g : Function), module[i]? = some f →
    p.functions[i]? = some g → ∀ (k : Nat) (x : Numbered),
    (f.resolve module).2.declared[k]? = some x → x.isConst = true →
    ∃ site slot, g.code[site]? = some (.store slot) ∧ slot.toNat = k ∧
      ∀ {σ : Type} (host : Host σ) (m m₁ m₂ : Machine) (s s₁ s₂ : σ) v stack,
        m.frame.function = g → m.frame.pc = site → m.frame.stack = v :: stack →
        Machine.step p host m s = .go m₁ s₁ →
        Machine.During p host m.callers.length (· = site) m₁ s₁ m₂ s₂ →
        ∃ f₂, m₂.calls[m.callers.length]? = some f₂ ∧ f₂.slots[k]? = some v
  /-- A sampler that is passed to a function stays what was passed as long as the call lasts. -/
  samplers : ∀ (i : Nat) (f : FunctionDef) (g : Function), module[i]? = some f →
    p.functions[i]? = some g → ∀ (k : Nat) (q : Param), f.params[k]? = some q → q.ty = .sampler →
    ∀ {σ : Type} (host : Host σ) (args : List Value) callers (m m₂ : Machine) (s s₂ : σ),
      Machine.enter p i args callers = .ok m →
      Machine.During p host callers.length (fun _ => False) m s m₂ s₂ →
      ∃ v f₂, args[k]? = some v ∧ m₂.calls[callers.length]? = some f₂ ∧ f₂.slots[k]? = some v

section

variable {module : List FunctionDef} {p : Program} {f : FunctionDef} {g : Function}
  {σ : Type} {host : Host σ} {m m₁ m₂ : Machine} {s s₁ s₂ : σ}

/-- What a variable that cannot be assigned to gets from the instruction that stores it, it
    keeps. -/
theorem Machine.During.stored_eq {site : Nat} {slot : UInt16} {v : Value} {stack : List Value}
    (fetched : g.code[site]? = some (.store slot))
    (unique : ∀ (site' : Nat) o, g.code[site']? = some o → o.stores? = some slot.toNat →
      site' = site)
    (runs : m.frame.function = g) (here : m.frame.pc = site) (top : m.frame.stack = v :: stack)
    (goes : Machine.step p host m s = .go m₁ s₁)
    (during : Machine.During p host m.callers.length (· = site) m₁ s₁ m₂ s₂) :
    ∃ f₂, m₂.calls[m.callers.length]? = some f₂ ∧ f₂.slots[slot.toNat]? = some v := by
  obtain ⟨⟨g, site, slots, stack'⟩, callers⟩ := m
  obtain rfl : g = _ := runs
  obtain rfl : site = _ := here
  obtain rfl : stack' = _ := top
  unfold Machine.step at goes
  simp only [fetched] at goes
  split at goes
  next f₁ ran =>
    cases goes
    rw [Machine.local?] at ran
    obtain ⟨_, _, old, _, ⟨⟩, there, ⟨⟩, rfl⟩ := Machine.store_ran ran
    have stored : (slots.set! slot.toNat v)[slot.toNat]? = some v := by
      have inside := (Array.getElem?_eq_some_iff.1 there).1
      simp [Array.set!_eq_setIfInBounds, Array.getElem?_setIfInBounds_self_of_lt inside]
    obtain ⟨f₂, there₂, -, slot₂⟩ := during.slot_eq (Machine.calls_running _) unique
    exact ⟨f₂, there₂, slot₂.trans stored⟩
  next => cases goes

/-- The arguments of a call are in its first slots. -/
theorem getElem?_of_enter {i : Nat} {args : List Value} {callers : List Frame}
    (entered : Machine.enter p i args callers = .ok m) : ∃ f, m = ⟨f, callers⟩ ∧
      p.functions[i]? = some f.function ∧ args.length = f.function.params.length ∧
      ∀ k < args.length, f.slots[k]? = args[k]? := by
  unfold Machine.enter at entered
  split at entered
  · cases entered
  next g found =>
    split at entered
    · cases entered
    next count =>
      split at entered <;> cases entered
      refine ⟨_, rfl, found, Decidable.not_not.1 count, fun k below => ?_⟩
      simp [List.getElem?_append_left below]

end

/-- Constants and samplers keep their values, whatever the names, scopes and loops around them. -/
theorem preserves_of_compile {source : String} {p : Program} (h : compile source = .ok p) :
    ∃ module, parseModule source = .ok module ∧ p.Preserves module := by
  obtain ⟨module, parsed, -, refers⟩ := refers_of_compile h
  refine ⟨module, parsed, ?_, ?_⟩
  · intro i f g hf hg k x there const
    have fixed : ¬ x.Assignable := fun free => by rw [free.1] at const; cases const
    have local_ : f.params.length ≤ k := by
      by_contra parameter
      have first := f.getElem?_naming k
      rw [List.getElem?_eq_getElem (Nat.not_le.1 parameter)] at first
      cases there.symm.trans (Naming.getElem?_of_prefix (refers i f g hf hg).respects.grown first)
      cases const
    obtain ⟨site, slot, fetched, rfl, unique⟩ := (refers i f g hf hg).initialised there fixed local_
    exact ⟨site, slot, fetched, rfl, fun host m m₁ m₂ s s₁ s₂ v stack runs here top goes during =>
      during.stored_eq fetched unique runs here top goes⟩
  · intro i f g hf hg k q there sampler σ host args callers m m₂ s s₂ entered during
    obtain ⟨frame, rfl, found, count, slots⟩ := getElem?_of_enter entered
    cases hg.symm.trans found
    have refers := refers i f frame.function hf hg
    have inside := (List.getElem?_eq_some_iff.1 there).1
    rw [refers.params, List.length_map] at count
    have parameter : f.naming.declared[k]? = some ⟨k, q.ty, false⟩ := by
      rw [f.getElem?_naming, there]
      rfl
    obtain ⟨f₂, there₂, -, slot⟩ := during.slot_eq (Machine.calls_running _) fun site o fetched =>
      refers.untouched parameter (fun free => free.2 sampler) fetched
    rw [slots k (by omega), List.getElem?_eq_getElem (by omega)] at slot
    exact ⟨_, f₂, List.getElem?_eq_getElem (by omega), there₂, slot⟩

theorem twiceProgram_preserves : compile twiceSource = .ok twiceProgram ∧
    ∃ module, parseModule twiceSource = .ok module ∧ twiceProgram.Preserves module :=
  ⟨compile_twiceSource, preserves_of_compile compile_twiceSource⟩

end PixelKernel.Language
