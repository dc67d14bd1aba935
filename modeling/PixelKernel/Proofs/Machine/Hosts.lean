import PixelKernel.Language.Machine

/-! # Hosts that answer alike

A run sees of its host only what the host answers. So a host that also keeps a record of what
it is asked changes nothing, and code without emissions runs alike whatever becomes of them.
-/

namespace PixelKernel.Language

/-- What a running kernel can ask of its host. -/
inductive Request where
  | sample (sampler : Option Nat) (point : Pair)
  | transform (sampler : Option Nat) (point : Pair)
  | extent (sampler : Option Nat)
  | emit (colour : Rgba Float32)

variable {σ τ : Type}

/-- A host that also writes down what it is asked, in order. -/
def Host.recorded (host : Host σ) : Host (σ × List Request) where
  destination := host.destination
  sample k p s := let (r, s') := host.sample k p s.1; (r, s', s.2 ++ [.sample k p])
  transform k p s := let (r, s') := host.transform k p s.1; (r, s', s.2 ++ [.transform k p])
  extent k s := let (r, s') := host.extent k s.1; (r, s', s.2 ++ [.extent k])
  emit c s := let (r, s') := host.emit c s.1; (r, s', s.2 ++ [.emit c])

/-- A host whose states are seen through `f` as those of another, and that answers as the
    other does; to emissions only if there are any. -/
structure Host.Alike (f : τ → σ) (emits : Prop) (host' : Host τ) (host : Host σ) : Prop where
  destination : host'.destination = host.destination
  sample : ∀ k p s, host.sample k p (f s) = Prod.map id f (host'.sample k p s)
  transform : ∀ k p s, host.transform k p (f s) = Prod.map id f (host'.transform k p s)
  extent : ∀ k s, host.extent k (f s) = Prod.map id f (host'.extent k s)
  emit : emits → ∀ c s, host.emit c (f s) = Prod.map id f (host'.emit c s)

theorem Host.alike_recorded (host : Host σ) : host.recorded.Alike Prod.fst True host where
  destination := rfl
  sample _ _ _ := rfl
  transform _ _ _ := rfl
  extent _ _ := rfl
  emit _ _ _ := rfl

theorem Host.alike_of_emit (host : Host σ) (emit : Rgba Float32 → σ → Except Trap Unit × σ) :
    { host with emit }.Alike id False host where
  destination := rfl
  sample _ _ _ := rfl
  transform _ _ _ := rfl
  extent _ _ := rfl
  emit := False.elim

/-- The instruction that emits a colour. -/
def Op.emits : Op → Bool
  | .builtin .emit _ => true
  | _ => false

/-- Code that emits nothing. -/
def Function.Silent (g : Function) : Prop := ∀ o ∈ g.code, o.emits = false

namespace Machine

variable {f : τ → σ} {emits : Prop} {host' : Host τ} {host : Host σ} {p : Program}

theorem callBuiltin_alike (alike : host'.Alike f emits host) {b : Builtin}
    (allowed : b = .emit → emits) (args : List Value) (s : τ) :
    callBuiltin host b args (f s) = Prod.map id f (callBuiltin host' b args s) := by
  -- what is made of an answer, for each kind of answer
  let point (x : Pair × σ) : Except Trap (Option Value) × σ := (.ok (some (.ofPoint x.1)), x.2)
  let extent (x : (Pair × Pair) × σ) : Except Trap (Option Value) × σ :=
    (.ok (some (.vec4 x.1.1.1 x.1.1.2 x.1.2.1 x.1.2.2)), x.2)
  unfold callBuiltin
  split
  · rw [alike.destination]
    rfl
  · next v =>
    cases v.sampler? with
    | error t => rfl
    | ok k =>
        refine congrArg point (Eq.trans ?_ (alike.transform k host'.destination s))
        rw [alike.destination]
  · next v p =>
    cases v.sampler? with
    | error t => rfl
    | ok k =>
        cases p.point? with
        | error t => rfl
        | ok p => exact congrArg point (alike.transform k p s)
  · next v =>
    cases v.sampler? with
    | error t => rfl
    | ok k => exact congrArg (fun x => point (x.1.1, x.2)) (alike.extent k s)
  · next v =>
    cases v.sampler? with
    | error t => rfl
    | ok k => exact congrArg (fun x => point (x.1.2, x.2)) (alike.extent k s)
  · next v =>
    cases v.sampler? with
    | error t => rfl
    | ok k => exact congrArg extent (alike.extent k s)
  · next v p =>
    cases v.sampler? with
    | error t => rfl
    | ok k =>
        cases p.point? with
        | error t => rfl
        | ok p =>
            have answer := alike.sample k p s
            dsimp only
            generalize host.sample k p (f s) = l at answer ⊢
            subst answer
            rcases host'.sample k p s with ⟨_ | _, _⟩ <;> rfl
  · next v =>
    cases v.colour? with
    | none => rfl
    | some c =>
        have answer := alike.emit (allowed rfl) c s
        dsimp only
        generalize host.emit c (f s) = l at answer ⊢
        subst answer
        rcases host'.emit c s with ⟨_ | _, _⟩ <;> rfl
  · cases Builtin.evaluate? _ args <;> rfl

/-- The same machine, with the host's state seen through `f`. -/
def Next.map (f : τ → σ) : Next τ → Next σ
  | .go m s => .go m (f s)
  | .stop r s => .stop r (f s)

theorem step_alike (alike : host'.Alike f emits host) {m : Machine}
    (allowed : m.frame.function.Silent ∨ emits) (s : τ) :
    step p host m (f s) = (step p host' m s).map f := by
  unfold step
  dsimp only
  cases found : m.frame.function.code[m.frame.pc]? with
  | none => rfl
  | some op =>
      have mem := Array.mem_of_getElem? found
      cases op with
      | builtin b argc =>
          dsimp only
          cases takeArgs argc.toNat m.frame.stack with
          | none => rfl
          | some taken =>
              have permitted : b = .emit → emits := by
                rintro rfl
                exact allowed.elim (fun silent => nomatch silent _ mem) id
              dsimp only
              rw [callBuiltin_alike alike permitted]
              rcases callBuiltin host' b taken.1 s with ⟨_ | _, _⟩ <;> rfl
      | call i argc =>
          dsimp only
          cases takeArgs argc.toNat m.frame.stack with
          | none => rfl
          | some taken =>
              dsimp only
              cases enter p i.toNat taken.1 _ <;> rfl
      | ret =>
          dsimp only
          cases m.frame.stack with
          | nil => rfl
          | cons v _ => cases m.callers <;> rfl
      | retVoid => cases m.callers <;> rfl
      | missingReturn => rfl
      | _ =>
          dsimp only
          split <;> rfl

/-! ## Runs -/

/-- The frames run functions of the program. -/
def Within (p : Program) (m : Machine) : Prop :=
  ∀ fr ∈ m.frame :: m.callers, fr.function ∈ p.functions

section

variable {fr fr' : Frame}

theorem frame_of_bind {α : Type} {x : Except Trap α} {k : α → Frame}
    (h : (do return k (← x)) = .ok fr') : ∃ a, x = .ok a ∧ fr' = k a := by
  cases x with
  | error t => cases h
  | ok a => cases h; exact ⟨a, rfl, rfl⟩

theorem onTop_function {f : Value → Except Trap Value} (h : onTop fr f = .ok fr') :
    fr'.function = fr.function := by
  unfold onTop at h
  split at h
  · cases h
  · obtain ⟨_, -, rfl⟩ := frame_of_bind h
    rfl

theorem onTwo_function {f : Value → Value → Except Trap Value} (h : onTwo fr f = .ok fr') :
    fr'.function = fr.function := by
  unfold onTwo at h
  split at h
  · obtain ⟨_, -, rfl⟩ := frame_of_bind h
    rfl
  · cases h

theorem store_function {slot : Nat} {f : Value → Value → Except Trap Value}
    (h : store fr slot f = .ok fr') : fr'.function = fr.function := by
  unfold store at h
  split at h
  · cases h
  · split at h
    · cases h
    · obtain ⟨_, -, rfl⟩ := frame_of_bind h
      rfl

theorem branch_function {site : Nat} {offset : Int32} {take : Bool}
    (h : branch fr site offset take = .ok fr') : fr'.function = fr.function := by
  unfold branch at h
  split at h
  · split at h
    · obtain ⟨_, -, rfl⟩ := frame_of_bind h
      rfl
    · cases h; rfl
  · cases h
  · cases h

theorem local?_function {site : Nat} {op : Op} (h : local? p site fr op = .ok fr') :
    fr'.function = fr.function := by
  unfold local? at h
  cases op with
  | store | storeLanes => exact store_function h
  | select | neg | not | toInt | toBool => exact onTop_function h
  | arith | compare => exact onTwo_function h
  | jumpIfFalse | jumpIfTrue => exact branch_function h
  | jump =>
    obtain ⟨_, -, rfl⟩ := frame_of_bind h
    rfl
  | builtin | call | ret | retVoid | missingReturn =>
    cases h
    rfl
  | const | load | dup | pop | toFloat | construct =>
    dsimp only at h
    split at h
    all_goals first
      | cases h; rfl
      | cases h
      | (obtain ⟨_, -, rfl⟩ := frame_of_bind h; rfl)

end

theorem within_enter {i : Nat} {args : List Value} {callers : List Frame} {m : Machine}
    (others : ∀ fr ∈ callers, fr.function ∈ p.functions) (h : enter p i args callers = .ok m) :
    Within p m := by
  unfold enter at h
  split at h
  · cases h
  next g there =>
    split at h
    · cases h
    · split at h
      · cases h
      · cases h
        exact List.forall_mem_cons.2 ⟨Array.mem_of_getElem? there, others⟩

theorem within_leave {callers : List Frame} {r : Option Value} {m : Machine} {s s' : σ}
    (others : ∀ fr ∈ callers, fr.function ∈ p.functions) (h : leave callers r s = .go m s') :
    Within p m := by
  cases callers with
  | nil => cases h
  | cons fr rest =>
      cases h
      exact List.forall_mem_cons.2 (List.forall_mem_cons.1 others)

theorem within_step {m m' : Machine} {s s' : σ} (h : Within p m)
    (stepped : step p host m s = .go m' s') : Within p m' := by
  obtain ⟨here, others⟩ := List.forall_mem_cons.1 h
  unfold step at stepped
  dsimp only at stepped
  cases found : m.frame.function.code[m.frame.pc]? with
  | none => rw [found] at stepped; cases stepped
  | some op =>
      rw [found] at stepped
      cases op with
      | builtin b argc =>
          dsimp only at stepped
          split at stepped
          · cases stepped
          · split at stepped
            · cases stepped
              exact List.forall_mem_cons.2 ⟨here, others⟩
            · cases stepped
      | call i argc =>
          dsimp only at stepped
          split at stepped
          · cases stepped
          · split at stepped
            next entered =>
              cases stepped
              refine within_enter ?_ entered
              exact List.forall_mem_cons.2 ⟨here, others⟩
            next => cases stepped
      | ret =>
          dsimp only at stepped
          split at stepped
          · cases stepped
          · exact within_leave others stepped
      | retVoid => exact within_leave others stepped
      | missingReturn => cases stepped
      | _ =>
          dsimp only at stepped
          split at stepped
          next moved =>
            cases stepped
            exact List.forall_mem_cons.2 ⟨local?_function moved ▸ here, others⟩
          next => cases stepped

def Run.map (f : τ → σ) (r : Run τ) : Run σ := ⟨r.result, r.left, f r.state⟩

theorem run_alike (alike : host'.Alike f emits host)
    (allowed : (∀ g ∈ p.functions, g.Silent) ∨ emits) {m : Machine} (within : Within p m)
    (b : Nat) (s : τ) : run p host b m (f s) = (run p host' b m s).map f := by
  induction b generalizing m s with
  | zero => rfl
  | succ b ih =>
      have silent := allowed.imp_left fun silent => silent _ (within m.frame List.mem_cons_self)
      rw [run, run, step_alike alike silent]
      cases stepped : step p host' m s with
      | go m' s' => exact ih (within_step within stepped) s'
      | stop r s' => rfl

end Machine

/-- Hosts that answer alike see the same run. -/
theorem Program.run_alike {f : τ → σ} {emits : Prop} {host' : Host τ} {host : Host σ}
    {p : Program} (alike : host'.Alike f emits host)
    (allowed : (∀ g ∈ p.functions, g.Silent) ∨ emits) (args : List Value) (b : Nat) (s : τ) :
    p.run args host b (f s) = (p.run args host' b s).map f := by
  unfold Program.run
  cases entered : Machine.enter p p.entry args [] with
  | error t => rfl
  | ok m => exact Machine.run_alike alike allowed (Machine.within_enter (by simp) entered) b s

end PixelKernel.Language
