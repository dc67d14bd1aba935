import PixelKernel.Proofs.Machine.Hosts

/-! # What a run asks

A step asks its host for one thing at most, and what it asks for is up to the machine. So hosts that
give the same answers to what one of them is asked in a run see the same run, whatever else they
would have answered.
-/

namespace PixelKernel.Language

variable {σ : Type}

/-- The hosts give the same answer to a request, whatever their state. -/
def Host.Agrees (host host' : Host σ) : Request → Prop
  | .sample k p => host.sample k p = host'.sample k p
  | .transform k p => host.transform k p = host'.transform k p
  | .extent k => host.extent k = host'.extent k
  | .emit c => host.emit c = host'.emit c

/-- What a builtin asks of its host, given where the kernel runs and the arguments. -/
def Builtin.asks (destination : Pair) : Builtin → List Value → List Request
  | .samplerCoord, [.sampler k] => [.transform k destination]
  | .samplerTransform, [.sampler k, .vec2 x y] => [.transform k (x, y)]
  | .samplerOrigin, [.sampler k] | .samplerSize, [.sampler k] | .samplerExtent, [.sampler k] =>
    [.extent k]
  | .sample, [.sampler k, .vec2 x y] => [.sample k (x, y)]
  | .emit, [v] => (v.colour?.map Request.emit).toList
  | _, _ => []

namespace Machine

variable {host host' : Host σ} {p : Program}

/-- What the next step asks of the host. -/
def asks (destination : Pair) (m : Machine) : List Request :=
  match m.frame.function.code[m.frame.pc]? with
  | some (.builtin b argc) =>
    match takeArgs argc.toNat m.frame.stack with
    | some (args, _) => b.asks destination args
    | none => []
  | _ => []

/-! ## One step -/

theorem callBuiltin_recorded (host : Host σ) (b : Builtin) (args : List Value) (s : σ)
    (l : List Request) : callBuiltin host.recorded b args (s, l) =
      Prod.map id (·, l ++ b.asks host.destination args) (callBuiltin host b args s) := by
  unfold callBuiltin
  split
  · simp [Builtin.asks, Host.recorded]
  · next v => cases v <;> simp [Builtin.asks, Host.recorded, Value.sampler?]
  · next v p =>
    cases v <;> cases p <;> simp [Builtin.asks, Host.recorded, Value.sampler?, Value.point?]
  · next v => cases v <;> simp [Builtin.asks, Host.recorded, Value.sampler?]
  · next v => cases v <;> simp [Builtin.asks, Host.recorded, Value.sampler?]
  · next v => cases v <;> simp [Builtin.asks, Host.recorded, Value.sampler?]
  · next v p =>
    cases v <;> cases p <;> try simp [Builtin.asks, Value.sampler?, Value.point?]
    next k x y =>
      rcases answer : host.sample k (x, y) s with ⟨_ | _, s'⟩ <;> simp [Host.recorded, answer]
  · next v =>
    cases colour : v.colour? with
    | none => simp [Builtin.asks, colour]
    | some c =>
      rcases answer : host.emit c s with ⟨_ | _, s'⟩ <;>
        simp [Builtin.asks, Host.recorded, colour, answer]
  · have nothing : b.asks host.destination args = [] := by
      unfold Builtin.asks
      split <;> simp_all
    rw [nothing, List.append_nil]
    cases b.evaluate? args <;> rfl

theorem callBuiltin_congr (same : host'.destination = host.destination) {b : Builtin}
    {args : List Value} (agree : ∀ r ∈ b.asks host.destination args, host.Agrees host' r) (s : σ) :
    callBuiltin host b args s = callBuiltin host' b args s := by
  unfold callBuiltin
  split
  · rw [same]
  · next v => cases v <;> simp_all [Builtin.asks, Value.sampler?, Host.Agrees]
  · next v p =>
    cases v <;> cases p <;> simp_all [Builtin.asks, Value.sampler?, Value.point?, Host.Agrees]
  · next v => cases v <;> simp_all [Builtin.asks, Value.sampler?, Host.Agrees]
  · next v => cases v <;> simp_all [Builtin.asks, Value.sampler?, Host.Agrees]
  · next v => cases v <;> simp_all [Builtin.asks, Value.sampler?, Host.Agrees]
  · next v p =>
    cases v <;> cases p <;> simp_all [Builtin.asks, Value.sampler?, Value.point?, Host.Agrees]
  · next v => cases colour : v.colour? <;> simp_all [Builtin.asks, Host.Agrees]
  · rfl

/-- The next step of a host that keeps a record. -/
theorem step_recorded (host : Host σ) (m : Machine) (s : σ) (l : List Request) :
    step p host.recorded m (s, l) = (step p host m s).map (·, l ++ m.asks host.destination) := by
  unfold step asks
  dsimp only
  cases found : m.frame.function.code[m.frame.pc]? with
  | none => simp [Next.map]
  | some op =>
      cases op with
      | builtin b argc =>
          dsimp only
          cases takeArgs argc.toNat m.frame.stack with
          | none => simp [Next.map]
          | some taken =>
              dsimp only
              rw [callBuiltin_recorded]
              rcases callBuiltin host b taken.1 s with ⟨_ | _, _⟩ <;> rfl
      | call i argc =>
          simp only [List.append_nil]
          cases takeArgs argc.toNat m.frame.stack with
          | none => rfl
          | some taken =>
              dsimp only
              cases enter p i.toNat taken.1 _ <;> rfl
      | ret =>
          simp only [List.append_nil]
          cases m.frame.stack with
          | nil => rfl
          | cons v _ => cases m.callers <;> rfl
      | retVoid =>
          simp only [List.append_nil]
          cases m.callers <;> rfl
      | missingReturn => simp [Next.map]
      | _ =>
          simp only [List.append_nil]
          split <;> rfl

theorem step_congr (same : host'.destination = host.destination) {m : Machine}
    (agree : ∀ r ∈ m.asks host.destination, host.Agrees host' r) (s : σ) :
    step p host m s = step p host' m s := by
  unfold step
  unfold asks at agree
  dsimp only
  cases found : m.frame.function.code[m.frame.pc]? with
  | none => rfl
  | some op =>
      rw [found] at agree
      cases op with
      | builtin b argc =>
          dsimp only at agree ⊢
          cases taken : takeArgs argc.toNat m.frame.stack with
          | none => rfl
          | some taken_ =>
              rw [taken] at agree
              dsimp only at agree ⊢
              rw [callBuiltin_congr same agree]
      | _ => rfl

/-! ## Runs -/

/-- A record only grows. -/
theorem mem_run_recorded {r : Request} {l : List Request} (there : r ∈ l) (b : Nat) (m : Machine)
    (s : σ) : r ∈ (run p host.recorded b m (s, l)).state.2 := by
  induction b generalizing l m s with
  | zero => exact there
  | succ b ih =>
      have still := List.mem_append_left (m.asks host.destination) there
      rw [run, step_recorded]
      cases step p host m s with
      | go m' s' => exact ih still m' s'
      | stop => exact still

theorem run_congr (same : host'.destination = host.destination) {b : Nat} {m : Machine} {s : σ}
    {l : List Request}
    (agree : ∀ r ∈ (run p host.recorded b m (s, l)).state.2, host.Agrees host' r) :
    run p host b m s = run p host' b m s := by
  induction b generalizing l m s with
  | zero => rfl
  | succ b ih =>
      rw [run, step_recorded] at agree
      have here : ∀ r ∈ m.asks host.destination, host.Agrees host' r := by
        intro r asked
        have there := List.mem_append_right l asked
        cases stepped : step p host m s with
        | go m' s' => rw [stepped] at agree; exact agree r (mem_run_recorded there b m' s')
        | stop => rw [stepped] at agree; exact agree r there
      rw [run, run, ← step_congr same here]
      cases stepped : step p host m s with
      | go m' s' => rw [stepped] at agree; exact ih agree
      | stop => rfl

end Machine

/-- What a run asks of its host, in order. -/
def Program.requests (p : Program) (args : List Value) (host : Host σ) (b : Nat) (s : σ) :
    List Request :=
  (p.run args host.recorded b (s, [])).state.2

/-- Hosts see the same run if they agree on what one of them is asked in it. -/
theorem Program.run_congr {p : Program} {host host' : Host σ} {args : List Value} {b : Nat} {s : σ}
    (same : host'.destination = host.destination)
    (agree : ∀ r ∈ p.requests args host b s, host.Agrees host' r) :
    p.run args host b s = p.run args host' b s := by
  unfold Program.requests Program.run at agree
  unfold Program.run
  cases entered : Machine.enter p p.entry args [] with
  | error t => rfl
  | ok m =>
      rw [entered] at agree
      exact Machine.run_congr same agree

end PixelKernel.Language
