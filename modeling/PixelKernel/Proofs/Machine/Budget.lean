import PixelKernel.Language.Machine

/-! # What a budget does to a run

A run executes one instruction after the other, each for one unit of its budget, whichever
function it belongs to. So there is a least budget for every run that succeeds, and a run that is
not cut off comes out the same under a greater one, even if its host is less often cut off too.
-/

namespace PixelKernel

/-- The first computation fails in one of the given ways, or both come to the same. -/
def CutShort {ε α : Type} (early : ε → Prop) (x y : Except ε α) : Prop :=
  (∃ e, early e ∧ x = .error e) ∨ x = y

namespace CutShort

variable {ε ε' α β : Type} {early : ε → Prop} {x y : Except ε α}

theorem refl (x : Except ε α) : CutShort early x x := .inr rfl

theorem error {e : ε} (h : early e) : CutShort early (.error e) y := .inl ⟨e, h, rfl⟩

theorem bind {f g : α → Except ε β} (h : CutShort early x y)
    (rest : ∀ a, CutShort early (f a) (g a)) : CutShort early (x >>= f) (y >>= g) := by
  rcases h with ⟨e, he, rfl⟩ | rfl
  · exact error he
  · cases x with
    | error e => exact refl _
    | ok a => exact rest a

theorem mapError {late : ε' → Prop} {f : ε → ε'} (h : CutShort early x y)
    (kept : ∀ e, early e → late (f e)) : CutShort late (x.mapError f) (y.mapError f) := by
  rcases h with ⟨e, he, rfl⟩ | rfl
  · exact error (kept e he)
  · exact refl _

/-- What does not fail early is the same. -/
theorem eq (h : CutShort early x y) (late : ∀ e, x = .error e → ¬ early e) : y = x := by
  rcases h with ⟨e, he, hx⟩ | same
  · exact absurd he (late e hx)
  · exact same.symm

end CutShort

namespace Language

variable {σ : Type}

/-! ## Counting instructions -/

namespace Machine

/-- The instruction that the running function has next. -/
def next? (m : Machine) : Option Op := m.frame.function.code[m.frame.pc]?

/-- The machine executes the instructions, one after the other, and is then where the last of them
    leads. They belong to the kernel or to whichever function it has called. -/
inductive Executes (p : Program) (host : Host σ) : Machine → σ → List Op → Next σ → Prop where
  | none {m s} : Executes p host m s [] (.go m s)
  | last {m s op r s'} (fetched : m.next? = some op) (stops : step p host m s = .stop r s') :
      Executes p host m s [op] (.stop r s')
  | more {m s op m₁ s₁ ops next} (fetched : m.next? = some op)
      (goes : step p host m s = .go m₁ s₁) (rest : Executes p host m₁ s₁ ops next) :
      Executes p host m s (op :: ops) next

/-- What a machine comes to that is given a budget. -/
inductive Ends (p : Program) (host : Host σ) (m : Machine) (s : σ) : Nat → Run σ → Prop where
  /-- It stops, and what it has not spent is left. -/
  | stopped {ops r s'} (executes : Executes p host m s ops (.stop r s')) (left : Nat) :
      Ends p host m s (left + ops.length) ⟨r, left, s'⟩
  /-- It spends everything. -/
  | exhausted {ops m' s'} (executes : Executes p host m s ops (.go m' s')) :
      Ends p host m s ops.length ⟨.error .budget, 0, s'⟩
  /-- It spends one unit more and finds no instruction. -/
  | astray {ops m' s'} (executes : Executes p host m s ops (.go m' s')) (nothing : m'.next? = none)
      (left : Nat) :
      Ends p host m s (left + ops.length + 1)
        ⟨.error (.outOfCode m'.frame.pc m'.frame.function.name), left, s'⟩

variable {p : Program} {host : Host σ} {m m' : Machine} {s s' : σ} {ops : List Op}
  {r : Except Trap (Option Value)}

theorem step_of_none (nothing : m.next? = none) :
    step p host m s = .stop (.error (.outOfCode m.frame.pc m.frame.function.name)) s := by
  unfold next? at nothing
  simp only [step, nothing]

/-- What comes of a machine that takes one step more. -/
theorem Ends.more {m₁ : Machine} {s₁ : σ} {op : Op} {b : Nat} {run : Run σ}
    (fetched : m.next? = some op) (goes : step p host m s = .go m₁ s₁)
    (rest : Ends p host m₁ s₁ b run) : Ends p host m s (b + 1) run := by
  cases rest with
  | stopped executes left => exact .stopped (.more fetched goes executes) left
  | exhausted executes => exact .exhausted (.more fetched goes executes)
  | astray executes nothing left => exact .astray (.more fetched goes executes) nothing left

theorem ends_run (b : Nat) (m : Machine) (s : σ) : Ends p host m s b (run p host b m s) := by
  induction b generalizing m s with
  | zero => exact .exhausted .none
  | succ b ih =>
      rw [run]
      cases fetched : m.next? with
      | none =>
          rw [step_of_none fetched]
          exact .astray .none fetched b
      | some op =>
          cases stepped : step p host m s with
          | go m₁ s₁ => exact (ih m₁ s₁).more fetched stepped
          | stop r s' => exact .stopped (.last fetched stepped) b

/-- A machine that stops does so under every budget that covers its instructions. -/
theorem Executes.run_eq (h : Executes p host m s ops (.stop r s')) (left : Nat) :
    run p host (left + ops.length) m s = ⟨r, left, s'⟩ := by
  generalize stop : Next.stop r s' = next at h
  induction h with
  | none => cases stop
  | last fetched stops =>
      cases stop
      simp only [List.length_singleton, run, stops]
  | more fetched goes rest ih =>
      rw [List.length_cons, ← Nat.add_assoc, run, goes]
      exact ih stop

/-- And runs out of every other one. -/
theorem Executes.run_lt {next : Next σ} (h : Executes p host m s ops next) {b : Nat}
    (few : b < ops.length) : ∃ s', run p host b m s = ⟨.error .budget, 0, s'⟩ := by
  induction h generalizing b with
  | none => exact absurd few (Nat.not_lt_zero b)
  | last =>
      obtain rfl := Nat.lt_one_iff.1 few
      exact ⟨_, rfl⟩
  | more fetched goes rest ih =>
      cases b with
      | zero => exact ⟨_, rfl⟩
      | succ b =>
          rw [run, goes]
          exact ih (Nat.lt_of_succ_lt_succ few)

end Machine

/-- What a run comes to that starts with a budget: if the kernel can be entered at all, the
    machine is run. -/
inductive Program.Ends (p : Program) (args : List Value) (host : Host σ) (s : σ) (b : Nat) :
    Machine.Run σ → Prop where
  | refused {t} (refused : Machine.enter p p.entry args [] = .error t) :
      p.Ends args host s b ⟨.error t, b, s⟩
  | entered {m run} (entered : Machine.enter p p.entry args [] = .ok m)
      (ends : Machine.Ends p host m s b run) : p.Ends args host s b run

/-- Runs of a program on some arguments are metered by the instructions that they execute. -/
structure Program.Metered (p : Program) (args : List Value) (host : Host σ) (s : σ) : Prop where
  /-- Whatever the budget, a run ends, and each instruction takes one unit. -/
  ends : ∀ b, p.Ends args host s b (p.run args host b s)
  /-- What a run that succeeds has spent is enough for it, and more than enough is left over. -/
  enough : ∀ b left v s', p.run args host b s = ⟨.ok v, left, s'⟩ → left ≤ b ∧
    ∀ more, p.run args host (b - left + more) s = ⟨.ok v, more, s'⟩
  /-- Nothing less is enough. -/
  least : ∀ b left v s', p.run args host b s = ⟨.ok v, left, s'⟩ → ∀ less < b - left,
    ∃ s₁, p.run args host less s = ⟨.error .budget, 0, s₁⟩

variable {p : Program} {args : List Value} {host host' : Host σ} {s s' : σ}

/-- A run that succeeds has entered the kernel and executed as many instructions as it has spent. -/
theorem Program.executes_of_ok {b left : Nat} {v : Option Value}
    (h : p.run args host b s = ⟨.ok v, left, s'⟩) :
    ∃ m ops, Machine.enter p p.entry args [] = .ok m ∧ b = left + ops.length ∧
      Machine.Executes p host m s ops (.stop (.ok v) s') := by
  unfold Program.run at h
  cases entered : Machine.enter p p.entry args [] with
  | error t => rw [entered] at h; cases h
  | ok m =>
      rw [entered] at h
      have ends : Machine.Ends p host m s b (Machine.run p host b m s) := Machine.ends_run b m s
      dsimp only at h
      rw [h] at ends
      cases ends with
      | stopped executes => exact ⟨m, _, rfl, rfl, executes⟩

theorem Program.metered (p : Program) (args : List Value) (host : Host σ) (s : σ) :
    p.Metered args host s where
  ends b := by
    unfold Program.run
    cases entered : Machine.enter p p.entry args [] with
    | error t => exact .refused entered
    | ok m => exact .entered entered (Machine.ends_run b m s)
  enough b left v s' h := by
    obtain ⟨m, ops, entered, rfl, executes⟩ := executes_of_ok h
    refine ⟨Nat.le_add_right _ _, fun more => ?_⟩
    rw [Nat.add_sub_cancel_left, Nat.add_comm]
    simp only [Program.run, entered]
    exact executes.run_eq more
  least b left v s' h less few := by
    obtain ⟨m, ops, entered, rfl, executes⟩ := executes_of_ok h
    rw [Nat.add_sub_cancel_left] at few
    simp only [Program.run, entered]
    exact executes.run_lt few

/-! ## Hosts that are cut off -/

/-- A host that answers as the other one does, unless sampling takes more than it has. -/
structure Host.CutShort (host host' : Host σ) : Prop where
  destination : host.destination = host'.destination
  sample : ∀ k q s, (host.sample k q s).1 = .error .budget ∨ host.sample k q s = host'.sample k q s
  transform : host.transform = host'.transform
  extent : host.extent = host'.extent
  emit : host.emit = host'.emit

namespace Machine

theorem callBuiltin_cutShort (short : host.CutShort host') (f : Builtin) (args : List Value)
    (s : σ) : (callBuiltin host f args s).1 = .error .budget ∨
      callBuiltin host f args s = callBuiltin host' f args s := by
  unfold callBuiltin
  split
  · exact .inr (by rw [short.destination])
  · exact .inr (by rw [short.destination, short.transform])
  · exact .inr (by rw [short.transform])
  · exact .inr (by rw [short.extent])
  · exact .inr (by rw [short.extent])
  · exact .inr (by rw [short.extent])
  · next v q =>
    cases v.sampler? with
    | error t => exact .inr rfl
    | ok k =>
        cases q.point? with
        | error t => exact .inr rfl
        | ok q =>
            dsimp only
            rcases short.sample k q s with early | same
            · rcases answer : host.sample k q s with ⟨c, s'⟩
              rw [answer] at early
              cases early
              exact .inl rfl
            · exact .inr (by rw [same])
  · exact .inr (by rw [short.emit])
  · exact .inr rfl

theorem step_cutShort (short : host.CutShort host') (p : Program) (m : Machine) (s : σ) :
    (∃ s', step p host m s = .stop (.error .budget) s') ∨
      step p host m s = step p host' m s := by
  unfold step
  dsimp only
  cases m.frame.function.code[m.frame.pc]? with
  | none => exact .inr rfl
  | some op =>
      cases op with
      | builtin b argc =>
          dsimp only
          cases takeArgs argc.toNat m.frame.stack with
          | none => exact .inr rfl
          | some taken =>
              dsimp only
              rcases callBuiltin_cutShort short b taken.1 s with early | same
              · rcases answer : callBuiltin host b taken.1 s with ⟨r, s'⟩
                rw [answer] at early
                cases early
                exact .inl ⟨s', rfl⟩
              · exact .inr (by rw [same])
      | _ => exact .inr rfl

/-- A greater budget and a host that is less often cut off change nothing unless the run was cut
    off itself. -/
theorem run_cutShort (short : host.CutShort host') {b b' : Nat} (le : b ≤ b') (m : Machine)
    (s : σ) : (run p host b m s).result = .error .budget ∨
      (run p host' b' m s).result = (run p host b m s).result ∧
        (run p host' b' m s).state = (run p host b m s).state := by
  induction b generalizing b' m s with
  | zero => exact .inl rfl
  | succ b ih =>
      obtain ⟨b', rfl⟩ : ∃ c, b' = c + 1 := ⟨b' - 1, by omega⟩
      simp only [run]
      rcases step_cutShort short p m s with ⟨s', early⟩ | same
      · exact .inl (by rw [early])
      · rw [← same]
        cases step p host m s with
        | go m₁ s₁ => exact ih (Nat.le_of_succ_le_succ le) m₁ s₁
        | stop r s' => exact .inr ⟨rfl, rfl⟩

end Machine

theorem Program.run_cutShort (short : host.CutShort host') {b b' : Nat} (le : b ≤ b')
    (args : List Value) (s : σ) : (p.run args host b s).result = .error .budget ∨
      (p.run args host' b' s).result = (p.run args host b s).result ∧
        (p.run args host' b' s).state = (p.run args host b s).state := by
  unfold Program.run
  cases Machine.enter p p.entry args [] with
  | error t => exact .inr ⟨rfl, rfl⟩
  | ok m => exact Machine.run_cutShort short le m s

end Language
end PixelKernel
