import PixelKernel.Proofs.Code.Listing
import PixelKernel.Proofs.Code.Tallies
import PixelKernel.Proofs.Machine.Renaming
import PixelKernel.Proofs.Machine.Requests
import PixelKernel.Proofs.Machine.Slots

/-! # Programs that match run alike

Two machines run programs that match. The zeros that a call starts with depend on the types of its
variables, which a listing leaves out. There are two reasons why this makes no difference. As long
as calls can tell the functions apart, code tells the types of its variables, so the zeros are the
same. And as long as jumps reach where they should, no slot is read before it is set, so the zeros
may differ where no way through the code has set them.
-/

namespace PixelKernel.Language

/-- The frame in another function and with other slots. -/
def Frame.as (f : Frame) (function : Function) (slots : Array Value) : Frame :=
  { f with function, slots }

namespace Machine

variable {σ : Type} {p q : Program} {host : Host σ} {f : Frame} {fn : Function}
  {slots : Array Value} {o o' : Op} {site : Nat}

/-! ## Instructions that store nothing -/

theorem onTop_as (g : Value → Except Trap Value) :
    onTop (f.as fn slots) g = (onTop f g).map (·.as fn slots) := by
  obtain ⟨function, pc, own, stack⟩ := f
  unfold onTop
  cases stack with
  | nil => rfl
  | cons v stack =>
      change (g v >>= _) = (g v >>= _).map _
      cases g v <;> rfl

theorem onTwo_as (g : Value → Value → Except Trap Value) :
    onTwo (f.as fn slots) g = (onTwo f g).map (·.as fn slots) := by
  obtain ⟨function, pc, own, stack⟩ := f
  unfold onTwo
  rcases stack with _ | ⟨b, _ | ⟨a, stack⟩⟩
  · rfl
  · rfl
  · change (g a b >>= _) = (g a b >>= _).map _
    cases g a b <;> rfl

theorem branch_as {offset : Int32} {take : Bool} (size : fn.code.size = f.function.code.size) :
    branch (f.as fn slots) site offset take = (branch f site offset take).map (·.as fn slots) := by
  obtain ⟨function, pc, own, stack⟩ := f
  unfold branch Frame.as
  rcases stack with _ | ⟨v, stack⟩
  · rfl
  · cases v with
    | bool b =>
        dsimp only at size ⊢
        rw [size]
        split
        · cases jumpTarget site offset function.code.size <;> rfl
        · rfl
    | _ => rfl

/-- An instruction that stores nothing needs the stack, and what it reads of the slots. -/
theorem local?_as (same : o.Matches p q o') (size : fn.code.size = f.function.code.size)
    (stores : o.stores? = none) (reads : ∀ x, o.Reads x → slots[x]? = f.slots[x]?) :
    local? q site (f.as fn slots) o' = (local? p site f o).map (·.as fn slots) := by
  obtain ⟨function, pc, own, stack⟩ := f
  cases same with
  | const same =>
      rw [local?, local?, ← same]
      split <;> rfl
  | same other =>
      cases o with
      | const i => exact absurd rfl (other i)
      | store | storeLanes => cases stores
      | load slot =>
          have held : slots[slot.toNat]? = own[slot.toNat]? := reads _ rfl
          rw [local?, local?, Frame.as, held]
          dsimp only
          cases own[slot.toNat]? <;> rfl
      | select | neg | not | toInt | toBool => exact onTop_as _
      | arith | compare => exact onTwo_as _
      | jumpIfFalse | jumpIfTrue => exact branch_as size
      | jump offset =>
          rw [local?, local?, Frame.as, size]
          cases jumpTarget site offset function.code.size <;> rfl
      | dup | pop =>
          rw [local?, local?, Frame.as]
          cases stack <;> rfl
      | toFloat depth =>
          rw [local?, local?, Frame.as]
          dsimp only
          cases stack[depth.toNat]? with
          | none => rfl
          | some v =>
              dsimp only
              cases v.toFloat <;> rfl
      | construct width argc =>
          rw [local?, local?, Frame.as]
          dsimp only
          cases takeArgs argc.toNat stack with
          | none => rfl
          | some r =>
              dsimp only
              cases Value.construct width.toNat r.1 <;> rfl
      | builtin | call | ret | retVoid | missingReturn => rfl

/-! ## Where control goes -/

theorem goes_branch {f' : Frame} {offset : Int32} {take : Bool}
    (h : branch f site offset take = .ok f') :
    f'.pc = f.pc ∨ Leads f.function.code site offset f'.pc := by
  unfold branch at h
  split at h
  · split at h
    · obtain ⟨target, lands, rfl⟩ := frame_of_bind h
      exact .inr lands
    · cases h
      exact .inl rfl
  · cases h
  · cases h

/-- Behind an instruction control is where it was, or where the instruction leads it. -/
theorem goes_local {f' : Frame} (h : local? p site f o = .ok f') : f'.pc = f.pc ∨
    ∃ offset, o.offset? = some offset ∧ Leads f.function.code site offset f'.pc := by
  have top {g : Value → Except Trap Value} (h : onTop f g = .ok f') : f'.pc = f.pc := by
    unfold onTop at h
    split at h
    · cases h
    · obtain ⟨_, -, rfl⟩ := frame_of_bind h
      rfl
  have two {g : Value → Value → Except Trap Value} (h : onTwo f g = .ok f') : f'.pc = f.pc := by
    unfold onTwo at h
    split at h
    · obtain ⟨_, -, rfl⟩ := frame_of_bind h
      rfl
    · cases h
  cases o with
  | store | storeLanes =>
      obtain ⟨_, _, _, _, -, -, -, rfl⟩ := store_ran h
      exact .inl rfl
  | select | neg | not | toInt | toBool => exact .inl (top h)
  | arith | compare => exact .inl (two h)
  | jumpIfFalse offset | jumpIfTrue offset =>
      exact (goes_branch h).imp_right fun lands => ⟨offset, rfl, lands⟩
  | jump offset =>
      obtain ⟨target, lands, rfl⟩ := frame_of_bind h
      exact .inr ⟨offset, rfl, lands⟩
  | builtin | call | ret | retVoid | missingReturn => cases h; exact .inl rfl
  | const | load | dup | pop =>
      rw [local?] at h
      split at h <;> cases h
      exact .inl rfl
  | toFloat | construct =>
      rw [local?] at h
      split at h
      · cases h
      · obtain ⟨_, -, rfl⟩ := frame_of_bind h
        exact .inl rfl

end Machine

/-! ## Zeros -/

/-- The slots of the two functions start with the same values. -/
def Function.SameZeros (f g : Function) : Prop :=
  f.locals.toList.map Value.zero = g.locals.toList.map Value.zero

/-- Whatever zeros the functions start with, it makes no difference. -/
def Program.HidesZeros (p q : Program) : Prop :=
  ∀ (i : Nat) f g, p.functions[i]? = some f → q.functions[i]? = some g →
    f.SameZeros g ∨ f.SetsFirst

theorem Value.zero_operand (t : Ty) : zero t.operand = zero t := by cases t <;> rfl

section

variable {p q : Program}

theorem Op.Matches.tally {o o' : Op} (programs : p.Matches q) (same : o.Matches p q o')
    (x : Tally) : o.tally p.signature x = o'.tally q.signature x := by
  cases same with
  | const same => simp only [Op.tally, Program.signature, same]
  | same other =>
      cases o with
      | const i => exact absurd rfl (other i)
      | call i argc =>
          have ret : p.signature.result i.toNat = q.signature.result i.toNat := by
            have functions := programs.functions i.toNat
            unfold Program.signature
            dsimp only
            generalize p.functions[i.toNat]? = f at functions ⊢
            generalize q.functions[i.toNat]? = g at functions ⊢
            cases functions with
            | none => rfl
            | some same => exact congrArg Ty.operand same.ret
          rw [Op.tally, Op.tally, ret]
      | _ => rfl

theorem Op.Matches.tallies {ops ops' : List Op} (programs : p.Matches q)
    (same : ∀ i : Nat, Option.Rel (Op.Matches p q) ops[i]? ops'[i]?) (x : Tally) :
    Op.tallies p.signature ops x = Op.tallies q.signature ops' x := by
  induction ops generalizing ops' x with
  | nil =>
      cases ops' with
      | nil => rfl
      | cons => cases same 0
  | cons o ops ih =>
      cases ops' with
      | nil => cases same 0
      | cons o' ops' =>
          cases same 0 with
          | some first =>
              rw [Op.tallies_cons, Op.tallies_cons, first.tally programs]
              exact ih (fun i => same (i + 1)) _

/-- Functions that match start alike if their code tells the types of their variables. -/
theorem Function.Tallied.sameZeros {f g : Function} (programs : p.Matches q)
    (same : f.Matches p q g) (told : f.Tallied p.signature) (told' : g.Tallied q.signature) :
    f.SameZeros g := by
  have types : f.locals.toList.map Ty.operand = g.locals.toList.map Ty.operand := by
    rw [← told, ← told', same.params]
    exact congrArg Tally.slots (Op.Matches.tallies programs
      (by simpa only [Array.getElem?_toList] using same.code) _)
  have zeros (ts : List Ty) : ts.map Value.zero = (ts.map Ty.operand).map Value.zero := by
    rw [List.map_map]
    exact List.map_congr_left fun t _ => (Value.zero_operand t).symm
  rw [Function.SameZeros, zeros f.locals.toList, types, ← zeros]

end

/-! ## Frames that match -/

/-- The same place in functions that match, with the same values on the stack and in the slots:
    in all of them, or in those that are sure to be set. -/
structure Frame.Matches (p q : Program) (f g : Frame) : Prop where
  function : f.function.Matches p q g.function
  hides : f.function.SameZeros g.function ∨ f.function.SetsFirst
  pc : f.pc = g.pc
  stack : f.stack = g.stack
  size : f.slots.size = g.slots.size
  slots : ∀ x, f.function.SameZeros g.function ∨ ¬f.function.Unset x f.pc →
    f.slots[x]? = g.slots[x]?

theorem Frame.Matches.read {p q : Program} {f g : Frame} {o : Op} {x : Nat} (h : f.Matches p q g)
    (fetched : f.function.code[f.pc]? = some o) (reads : o.Reads x) : f.slots[x]? = g.slots[x]? :=
  h.slots x (h.hides.imp_right fun first unset => first x f.pc o unset fetched reads)

theorem size_of_rel {α β : Type} {R : α → β → Prop} {xs : Array α} {ys : Array β}
    (h : ∀ i : Nat, Option.Rel R xs[i]? ys[i]?) : xs.size = ys.size := by
  rcases Nat.lt_trichotomy xs.size ys.size with less | same | more
  · have here := h xs.size
    rw [Array.getElem?_eq_none (Nat.le_refl _), Array.getElem?_eq_getElem less] at here
    cases here
  · exact same
  · have here := h ys.size
    rw [Array.getElem?_eq_none (Nat.le_refl ys.size), Array.getElem?_eq_getElem more] at here
    cases here

theorem Op.stores_of_sets {o : Op} {x : Nat} (h : o.Sets x) : o.stores? = some x := by
  cases o with
  | store => exact congrArg some h
  | _ => exact h.elim

namespace Machine

variable {σ : Type} {p q : Program} {host : Host σ} {f g : Frame} {o o' : Op}

theorem store_matches {slot : Nat} {F : Value → Value → Except Trap Value} (h : f.Matches p q g)
    (fetched : f.function.code[f.pc]? = some o) (sets : ∀ x, o.Sets x → x = slot)
    (agree : ∀ old old' v, f.slots[slot]? = some old → g.slots[slot]? = some old' →
      F old v = F old' v) :
    Corresponds (Frame.Matches p q) (store { f with pc := f.pc + 1 } slot F)
      (store { g with pc := f.pc + 1 } slot F) := by
  unfold store
  dsimp only
  rw [← h.stack]
  cases f.stack with
  | nil => exact .error _
  | cons v stack =>
      dsimp only
      by_cases inside : slot < f.slots.size
      · have inside' : slot < g.slots.size := h.size ▸ inside
        rw [Array.getElem?_eq_getElem inside, Array.getElem?_eq_getElem inside']
        dsimp only
        rw [agree _ _ v (Array.getElem?_eq_getElem inside) (Array.getElem?_eq_getElem inside')]
        cases F g.slots[slot] v with
        | error t => exact .error t
        | ok w =>
            refine .ok ⟨h.function, h.hides, rfl, rfl, by simp [h.size], fun x set => ?_⟩
            by_cases own : x = slot
            · subst own
              simp [Array.set!_eq_setIfInBounds, inside, inside']
            · have before := h.slots x (set.imp_right fun set unset =>
                set (.next unset fetched fun sets_ => own (sets x sets_)))
              simpa [Array.set!_eq_setIfInBounds, Array.getElem?_setIfInBounds_ne (Ne.symm own)]
                using before
      · have outside := Nat.not_lt.1 inside
        rw [Array.getElem?_eq_none outside, Array.getElem?_eq_none (h.size ▸ outside)]
        exact .error _

/-- An instruction that stays within the frame does the same in frames that match. -/
theorem local?_matches (h : f.Matches p q g) (fetched : f.function.code[f.pc]? = some o)
    (same : o.Matches p q o') :
    Corresponds (Frame.Matches p q) (local? p f.pc { f with pc := f.pc + 1 } o)
      (local? q f.pc { g with pc := f.pc + 1 } o') := by
  have quiet (stores : o.stores? = none) :
      Corresponds (Frame.Matches p q) (local? p f.pc { f with pc := f.pc + 1 } o)
        (local? q f.pc { g with pc := f.pc + 1 } o') := by
    have moved : ({ g with pc := f.pc + 1 } : Frame) =
        ({ f with pc := f.pc + 1 } : Frame).as g.function g.slots := by
      rw [Frame.as, h.stack]
    rw [moved, local?_as (f := { f with pc := f.pc + 1 }) same (size_of_rel h.function.code).symm
      stores fun x reads => (h.read fetched reads).symm]
    cases ran : local? p f.pc { f with pc := f.pc + 1 } o with
    | error t => exact .error t
    | ok f' =>
        have becomes := becomes_local ran
        have function : f'.function = f.function := becomes.function
        have slots : f'.slots = f.slots :=
          Array.ext_getElem? fun i => becomes.slots i (by rw [stores]; exact nofun)
        refine .ok ⟨function ▸ h.function, function ▸ h.hides, rfl, rfl, slots ▸ h.size,
          fun x set => ?_⟩
        rw [slots]
        rw [function] at set
        refine h.slots x (set.imp_right fun set unset => set ?_)
        rcases goes_local ran with behind | ⟨offset, jumps, lands⟩
        · rw [behind]
          refine unset.next fetched fun sets => ?_
          rw [Op.stores_of_sets sets] at stores
          cases stores
        · exact unset.jump fetched jumps lands
  cases o with
  | store slot =>
      obtain ⟨⟩ := same
      exact store_matches h fetched (fun x sets => sets.symm) fun _ _ _ _ _ => rfl
  | storeLanes slot lanes =>
      obtain ⟨⟩ := same
      refine store_matches h fetched (fun x sets => sets.elim) fun old old' v held held' => ?_
      have same := h.read fetched (x := slot.toNat) rfl
      rw [held, held', Option.some.injEq] at same
      rw [same]
  | _ => exact quiet rfl

end Machine

/-! ## Machines and runs -/

structure Machine.Matches (p q : Program) (m m' : Machine) : Prop where
  frame : m.frame.Matches p q m'.frame
  callers : List.Forall₂ (Frame.Matches p q) m.callers m'.callers

theorem Frame.Matches.stacked {p q : Program} {f g : Frame} (h : f.Matches p q g)
    (stack : List Value) : { f with stack }.Matches p q { g with stack } :=
  ⟨h.function, h.hides, h.pc, rfl, h.size, h.slots⟩

/-- The frame goes on behind an instruction that sets nothing. -/
theorem Frame.Matches.behind {p q : Program} {f g : Frame} {o : Op} (h : f.Matches p q g)
    (fetched : f.function.code[f.pc]? = some o) (other : ∀ x, ¬o.Sets x) (stack : List Value) :
    { f with pc := f.pc + 1, stack }.Matches p q { g with pc := f.pc + 1, stack } :=
  ⟨h.function, h.hides, rfl, rfl, h.size, fun x set =>
    h.slots x (set.imp_right fun set unset => set (.next unset fetched (other x)))⟩

namespace Machine

variable {σ : Type} {p q : Program} {host : Host σ} {m m' : Machine} {callers callers' : List Frame}

inductive Next.Matches (p q : Program) : Next σ → Next σ → Prop where
  | go {m m' s} (h : m.Matches p q m') : Matches p q (.go m s) (.go m' s)
  | stop (v : Except Trap (Option Value)) (s : σ) : Matches p q (.stop v s) (.stop v s)

theorem enter_matches (programs : p.Matches q) (hides : p.HidesZeros q) (i : Nat)
    (args : List Value) (waiting : List.Forall₂ (Frame.Matches p q) callers callers') :
    Corresponds (Machine.Matches p q) (enter p i args callers) (enter q i args callers') := by
  unfold enter
  have functions := programs.functions i
  cases found : p.functions[i]? with
  | none =>
      rw [found] at functions
      generalize q.functions[i]? = other at functions ⊢
      cases functions
      exact .error _
  | some f =>
      rw [found] at functions
      generalize found' : q.functions[i]? = other at functions ⊢
      cases functions with
      | some same =>
          next g =>
          dsimp only
          rw [← same.params, ← same.name, ← waiting.length_eq]
          split
          · exact .error _
          next count =>
            split
            · exact .error _
            · refine .ok ⟨⟨same, hides i f g found found', rfl, rfl, ?_, ?_⟩, waiting⟩
              · simp [same.slots]
              · rintro x (zeros | set)
                · rw [List.map_drop, List.map_drop, zeros]
                have param : x < args.length := by
                  rw [Decidable.not_not.1 count]
                  exact Nat.lt_of_not_le fun own => set (.start own)
                simp [List.getElem?_append_left param]

theorem leave_matches (waiting : List.Forall₂ (Frame.Matches p q) callers callers')
    (r : Option Value) (s : σ) : (leave callers r s).Matches p q (leave callers' r s) := by
  cases waiting with
  | nil => exact .stop _ s
  | cons first rest =>
      refine .go ⟨?_, rest⟩
      rw [← first.stack]
      exact first.stacked _

/-- A step does the same in machines that match. -/
theorem step_matches (programs : p.Matches q) (hides : p.HidesZeros q) (h : m.Matches p q m')
    (s : σ) : (step p host m s).Matches p q (step q host m' s) := by
  unfold step
  dsimp only
  rw [← h.frame.pc, ← h.frame.stack]
  have code := h.frame.function.code m.frame.pc
  cases fetched : m.frame.function.code[m.frame.pc]? with
  | none =>
      rw [fetched] at code
      generalize m'.frame.function.code[m.frame.pc]? = other at code ⊢
      cases code
      dsimp only
      rw [h.frame.function.name]
      exact .stop _ s
  | some o =>
      rw [fetched] at code
      generalize m'.frame.function.code[m.frame.pc]? = other at code ⊢
      cases code with
      | some same =>
          next o' =>
          have stays := local?_matches h.frame fetched same
          rw [← h.frame.stack] at stays
          cases o with
          | builtin b argc =>
              obtain ⟨⟩ := same
              dsimp only
              cases takeArgs argc.toNat m.frame.stack with
              | none => exact .stop _ s
              | some r =>
                  dsimp only
                  cases callBuiltin host b r.1 s with
                  | mk result s' =>
                      cases result with
                      | error t => exact .stop _ s'
                      | ok v => exact .go ⟨h.frame.behind fetched (fun _ => id) _, h.callers⟩
          | call index argc =>
              obtain ⟨⟩ := same
              dsimp only
              cases takeArgs argc.toNat m.frame.stack with
              | none => exact .stop _ s
              | some r =>
                  dsimp only
                  have entered := enter_matches programs hides index.toNat r.1
                    (.cons (h.frame.behind fetched (fun _ => id) r.2) h.callers)
                  generalize enter p index.toNat r.1 _ = x at entered ⊢
                  generalize enter q index.toNat r.1 _ = y at entered ⊢
                  cases entered with
                  | ok machines => exact .go machines
                  | error t => exact .stop _ s
          | ret =>
              obtain ⟨⟩ := same
              dsimp only
              cases m.frame.stack with
              | nil => exact .stop _ s
              | cons v _ => exact leave_matches h.callers (some v) s
          | retVoid =>
              obtain ⟨⟩ := same
              exact leave_matches h.callers none s
          | missingReturn =>
              obtain ⟨⟩ := same
              dsimp only
              rw [h.frame.function.name]
              exact .stop _ s
          | _ =>
              cases same
              all_goals
                dsimp only
                generalize local? p m.frame.pc _ _ = x at stays ⊢
                generalize local? q m.frame.pc _ _ = y at stays ⊢
                cases stays with
                | ok frames => exact .go ⟨frames, h.callers⟩
                | error t => exact .stop _ s

theorem run_matches (programs : p.Matches q) (hides : p.HidesZeros q) (b : Nat)
    (h : m.Matches p q m') (s : σ) : run p host b m s = run q host b m' s := by
  induction b generalizing m m' s with
  | zero => rfl
  | succ b ih =>
      have stepped : (step p host m s).Matches p q (step q host m' s) :=
        step_matches programs hides h s
      rw [run, run]
      generalize step p host m s = x at stepped ⊢
      generalize step q host m' s = y at stepped ⊢
      cases stepped with
      | go machines => exact ih machines _
      | stop => rfl

end Machine

/-- Programs that match run alike if the zeros of their slots make no difference. -/
theorem Program.run_matches {σ : Type} {p q : Program} (programs : p.Matches q)
    (hides : p.HidesZeros q) (args : List Value) (host : Host σ) (b : Nat) (s : σ) :
    p.run args host b s = q.run args host b s := by
  have entered := Machine.enter_matches programs hides p.entry args .nil
  unfold Program.run
  rw [← programs.entry]
  generalize Machine.enter p p.entry args [] = x at entered ⊢
  generalize Machine.enter q p.entry args [] = y at entered ⊢
  cases entered with
  | ok machines => exact Machine.run_matches programs hides b machines s
  | error t => rfl

theorem Program.kernelName_matches {p q : Program} (programs : p.Matches q) :
    p.kernelName = q.kernelName := by
  unfold Program.kernelName
  rw [← programs.entry]
  have functions := programs.functions p.entry
  generalize p.functions[p.entry]? = x at functions ⊢
  generalize q.functions[p.entry]? = y at functions ⊢
  cases functions with
  | none => rfl
  | some same => exact same.name

/-! ## Programs with one listing -/

/-- Either limit is enough: one makes the zeros the same, the other makes every slot set first. -/
theorem hidesZeros_of_compile {source source' : String} {p q : Program}
    (accepted : compile source = .ok p) (accepted' : compile source' = .ok q)
    (programs : p.Matches q)
    (fits : p.functions.size ≤ 65536 ∨ ∀ f ∈ p.functions, f.code.size < 2 ^ 31) :
    p.HidesZeros q := by
  intro i f g found found'
  have mem := Array.mem_of_getElem? found
  have mem' := Array.mem_of_getElem? found'
  refine fits.imp (fun few => ?_) fun short => (tracks_of_compile accepted f mem).2 (short f mem)
  have few' : q.functions.size ≤ 65536 := size_of_rel programs.functions ▸ few
  have same := programs.functions i
  rw [found, found'] at same
  cases same with
  | some same =>
      exact (tallied_of_compile accepted few f mem).sameZeros programs same
        (tallied_of_compile accepted' few' g mem')

/-- What a listing leaves out makes no difference: programs that are listed alike have one kernel
    and do the same with all arguments, all hosts and all budgets. An instruction has 16 bits for
    the number of a function and 32 for the distance of a jump. A program may exceed one of the two:
    the zeros of its slots matter only if calls and jumps both go astray, as in the texts of
    `Straying`. -/
theorem listing_determines {source source' : String} {p q : Program}
    (accepted : compile source = .ok p) (accepted' : compile source' = .ok q)
    (tells : p.TellsFloats q)
    (fits : p.functions.size ≤ 65536 ∨ ∀ f ∈ p.functions, f.code.size < 2 ^ 31)
    (same : p.listing = q.listing) :
    p.kernelName = q.kernelName ∧ p.target = q.target ∧
      ∀ (args : List Value) {σ : Type} (host : Host σ) (b : Nat) (s : σ),
        p.run args host b s = q.run args host b s ∧
          p.requests args host b s = q.requests args host b s := by
  have programs := matches_of_listing (readable_of_compile accepted) (readable_of_compile accepted')
    tells same
  have hides := hidesZeros_of_compile accepted accepted' programs fits
  refine ⟨Program.kernelName_matches programs, programs.target, fun args σ host b s =>
    ⟨Program.run_matches programs hides args host b s, ?_⟩⟩
  exact congrArg (·.state.2) (Program.run_matches programs hides args host.recorded b (s, []))

/-- A kernel with a local variable of a type that is written `ty`. -/
def paleSource (ty : String) : String :=
  "kernel vec4 pale() \x7b " ++ ty ++ " c = vec4(1.0, 0.5, 0.5, 1.0); return c; \x7d"

def paleProgram (ty : Ty) : Program where
  functions := #[⟨"pale", [], .vec4, #[ty],
    #[.const 0, .const 1, .const 1, .const 0, .construct 4 4, .store 0, .load 0, .ret,
      .missingReturn]⟩]
  consts := #[.float 1, .float 0.5]
  entry := 0
  target := .normal
  arguments := []

/-- The type of the variable is not in the listing, and not in what the kernel does. -/
theorem pale_alike : compile (paleSource "color") = .ok (paleProgram .color) ∧
    compile (paleSource "vec4") = .ok (paleProgram .vec4) ∧
    (paleProgram .color).listing = (paleProgram .vec4).listing ∧
    ∀ (args : List Value) {σ : Type} (host : Host σ) (b : Nat) (s : σ),
      (paleProgram .color).run args host b s = (paleProgram .vec4).run args host b s ∧
        (paleProgram .color).requests args host b s =
          (paleProgram .vec4).requests args host b s := by
  have ok {source : String} {p : Program} (made : (compile source).toOption = some p) :
      compile source = .ok p := by
    cases h : compile source with
    | error d => rw [h] at made; cases made
    | ok q => rw [h] at made; cases made; rfl
  have color : compile (paleSource "color") = .ok (paleProgram .color) := ok (by decide +kernel)
  have vector : compile (paleSource "vec4") = .ok (paleProgram .vec4) := ok (by decide +kernel)
  have tells : (paleProgram .color).TellsFloats (paleProgram .vec4) := by
    have apart : Decimal.textFloat32 .tagged 1 ≠ Decimal.textFloat32 .tagged 0.5 := by
      decide +kernel
    intro x y hx hy text
    simp only [paleProgram, List.mem_toArray, List.mem_cons, Value.float.injEq, List.not_mem_nil,
      or_false] at hx hy
    rcases hx with rfl | rfl <;> rcases hy with rfl | rfl
    · rfl
    · exact absurd text apart
    · exact absurd text apart.symm
    · rfl
  have same : (paleProgram .color).listing = (paleProgram .vec4).listing := by decide +kernel
  exact ⟨color, vector, same,
    (listing_determines color vector tells (.inl (by decide)) same).2.2⟩

end PixelKernel.Language
