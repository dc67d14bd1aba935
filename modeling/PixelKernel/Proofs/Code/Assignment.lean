import PixelKernel.Proofs.Code.Functions
import PixelKernel.Proofs.Code.Regions
import PixelKernel.Proofs.Machine.Builtins

/-! # Slots are set before they are read

A call starts with its arguments in the slots of the parameters. Whatever way control takes through
lowered code, it sets any other slot before it comes to an instruction that needs what the slot
holds, so the code cannot tell what the slot held at first. Along the way it is seen that calls are
of functions that there are.
-/

namespace PixelKernel.Language

/-! ## Code of expressions -/

/-- Some variable in scope has the slot. -/
def Visible (scopes : List Scope) (x : Nat) : Prop :=
  ∃ scope ∈ scopes, ∃ (name : String) (v : Local), scope[name]? = some v ∧ v.slot.toNat = x

/-- What is called is there, and of the two functions named `atan` it is the one that takes as many
    arguments as there are. -/
def Op.Calls (functions : Nat) : Op → Prop
  | .call i _ => i.toNat < functions
  | .builtin f argc => (f = .atan → argc = 1) ∧ (f = .atan2 → argc = 2)
  | _ => True

theorem Op.Calls.mono {n m : Nat} {o : Op} (h : o.Calls n) (le : n ≤ m) : o.Calls m := by
  cases o with
  | call i argc => exact Nat.lt_of_lt_of_le h le
  | _ => exact h

/-- An instruction that works on the stack alone. -/
def Op.Inert : Op → Prop
  | .load _ | .store _ | .storeLanes .. | .jump _ | .jumpIfFalse _ | .jumpIfTrue _
  | .builtin .. | .call .. => False
  | _ => True

namespace Op.Inert

variable {o : Op}

theorem reads (h : o.Inert) (x : Nat) : ¬o.Reads x := by
  cases o <;> first | exact id | exact h.elim

theorem stays (h : o.Inert) : o.offset? = none := by
  cases o <;> first | rfl | exact h.elim

theorem calls (h : o.Inert) (functions : Nat) : o.Calls functions := by
  cases o <;> trivial

end Op.Inert

@[simp] theorem Chunk.ops_ofOps (ops : List Op) : (Chunk.ofOps ops).ops = ops := by
  simp [Chunk.ops, Chunk.ofOps, List.filterMap_map]

/-- Instructions that read slots of variables in scope and set no other ones. -/
structure Tidy (functions : Nat) (scopes : List Scope) (ops : List Op) : Prop where
  calls : ∀ o ∈ ops, o.Calls functions
  tracks : ∀ {code x pc pc'}, code.size < 2 ^ 31 → OpsAt code pc ops pc' →
    Tracks code x (fun _ => False) pc pc' (Visible scopes x) (Visible scopes x)

namespace Tidy

variable {functions : Nat} {scopes : List Scope} {ops more : List Op} {o : Op}

theorem nil : Tidy functions scopes [] where
  calls := nofun
  tracks _ at_ := by
    cases at_
    exact .nil

theorem append (first : Tidy functions scopes ops) (second : Tidy functions scopes more) :
    Tidy functions scopes (ops ++ more) where
  calls := List.forall_mem_append.2 ⟨first.calls, second.calls⟩
  tracks short at_ := by
    obtain ⟨m, firstAt, secondAt⟩ := Placed.append.1 at_
    exact (first.tracks short firstAt).append (second.tracks short secondAt)

theorem op (calls : o.Calls functions) (reads : ∀ x, o.Reads x → Visible scopes x)
    (stays : o.offset? = none) : Tidy functions scopes [o] where
  calls := List.forall_mem_singleton.2 calls
  tracks short at_ := by
    obtain ⟨here, rest⟩ := Placed.cons_iff.1 at_
    obtain rfl := Placed.nil_iff.1 rest
    exact .op here (reads _) fun k leads => by rw [stays] at leads; cases leads

theorem inert (h : ∀ o ∈ ops, o.Inert) : Tidy functions scopes ops := by
  induction ops with
  | nil => exact nil
  | cons o ops ih =>
      obtain ⟨first, others⟩ := List.forall_mem_cons.1 h
      exact (op (first.calls _) (fun x reads => absurd reads (first.reads x)) first.stays).append
        (ih others)

theorem cons (h : o.Inert) (rest : Tidy functions scopes ops) : Tidy functions scopes (o :: ops) :=
  (inert (List.forall_mem_singleton.2 h)).append rest

theorem chunk {code : Array Op} {x q q' : Nat} {loop : Option Loop} (h : Tidy functions scopes ops)
    (short : code.size < 2 ^ 31) (at_ : ChunkAt code loop q (.ofOps ops) q') :
    Tracks code x (Leaves loop) q q' (Visible scopes x) (Visible scopes x) :=
  (h.tracks short at_.ofOps).mono fun _ => False.elim

theorem choose {cond yes no : List Op} (c : Tidy functions scopes cond)
    (a : Tidy functions scopes yes) (b : Tidy functions scopes no) :
    Tidy functions scopes (Op.choose cond yes no) where
  calls o there := by
    simp only [Op.choose, List.mem_append, List.mem_cons] at there
    obtain (there | rfl | there) | rfl | there := there
    · exact c.calls o there
    · trivial
    · exact a.calls o there
    · trivial
    · exact b.calls o there
  tracks {code x pc pc'} short at_ := by
    have same : Chunk.ofOps (Op.choose cond yes no) = .ifElse cond (.ofOps yes) (.ofOps no) := by
      simp [Chunk.ofOps, Op.choose, Chunk.ifElse]
    have at_ : ChunkAt code none pc (.ofOps (Op.choose cond yes no)) pc' :=
      (Chunk.closed_ofOps _).chunkAt (by rwa [Chunk.ops_ofOps])
    rw [same] at at_
    exact (Tracks.ifElse short (c.tracks short) (a.chunk short) (b.chunk short) at_).mono
      fun t out => (not_leaves_none t out).elim

/-- The right operand is left out by a jump behind it. -/
theorem shortCircuit {left right : List Op} (op : LogicOp) (a : Tidy functions scopes left)
    (b : Tidy functions scopes right) : Tidy functions scopes (Op.shortCircuit op left right) where
  calls o there := by
    simp only [Op.shortCircuit, List.mem_append, List.mem_cons] at there
    obtain there | rfl | rfl | rfl | there := there
    · exact a.calls o there
    · trivial
    · cases op <;> trivial
    · trivial
    · exact b.calls o there
  tracks {code x pc pc'} short at_ := by
    obtain ⟨m, leftAt, at_⟩ := Placed.append.1 at_
    obtain ⟨dup, at_⟩ := Placed.cons_iff.1 at_
    obtain ⟨leave, at_⟩ := Placed.cons_iff.1 at_
    obtain ⟨pop, rightAt⟩ := Placed.cons_iff.1 at_
    have end_ := rightAt.length
    have lands := leads_ahead short (OpsAt.le_size rightAt (lt_size_of_op pop))
      (show pc' = (m + 1) + (right.length + 2) by omega)
    have skip : Tracks code x (fun t => False ∨ t = pc') (m + 1) (m + 1 + 1) (Visible scopes x)
        (Visible scopes x) := by
      refine .op leave (by cases op <;> exact False.elim) fun k leads => ?_
      cases op <;> cases leads <;> exact ⟨pc', lands, .inr rfl⟩
    have around : ∀ t, False → False ∨ t = pc' := fun _ => False.elim
    exact (((a.tracks short leftAt).mono around).append ((Tracks.op dup False.elim nofun).append
      (skip.append ((Tracks.op pop False.elim nofun).append
        ((b.tracks short rightAt).mono around))))).closeEnd

end Tidy

namespace Lower

variable {α β : Type} {scopes : List Scope}

/-! ## Walks -/

/-- What a walk gives, and the scopes behind it, have the property if it starts in the given
    scopes. -/
def Gives (scopes : List Scope) (m : Lower α) (Q : α → List Scope → Prop) : Prop :=
  ∀ d a d', d.scopes = scopes → m d = .ok (a, d') → Q a d'.scopes

/-- A walk that leaves the scopes as they are. -/
abbrev Yields (scopes : List Scope) (m : Lower α) (P : α → Prop) : Prop :=
  Gives scopes m fun a behind => behind = scopes ∧ P a

section

variable {m : Lower α} {k : α → Lower β} {P : α → Prop} {Q : α → List Scope → Prop}
  {R : β → List Scope → Prop}

theorem Gives.pure {a : α} (h : Q a scopes) : Gives scopes (Pure.pure a) Q := by
  intro d a' d' start eq
  obtain ⟨rfl, rfl⟩ := pure_eq_ok.1 eq
  exact start ▸ h

theorem Gives.complain {pos : Nat} {cause : Cause} : Gives scopes (Lower.complain pos cause) Q :=
  fun _ _ _ _ eq => absurd eq complain_ne_ok

theorem Gives.bind (first : Gives scopes m Q)
    (rest : ∀ a behind, Q a behind → Gives behind (k a) R) :
    Gives scopes (m >>= k) R := by
  intro d b d' start eq
  obtain ⟨a, d₁, made, eq⟩ := bind_eq_ok.1 eq
  exact rest a d₁.scopes (first d a d₁ start made) d₁ b d' rfl eq

theorem Gives.read {k : Draft → Lower β} (rest : ∀ d, d.scopes = scopes → Gives scopes (k d) R) :
    Gives scopes (get >>= k) R := by
  intro d b d' start eq
  obtain ⟨_, _, got, eq⟩ := bind_eq_ok.1 eq
  obtain ⟨rfl, rfl⟩ := get_eq_ok.1 got
  exact rest d start d b d' start eq

theorem Gives.check {c : Prop} [Decidable c] {pos : Nat} {cause : Cause} (h : Gives scopes m Q) :
    Gives scopes (if c then (Lower.complain pos cause : Lower PUnit) >>= fun _ => m else m) Q :=
  fun d a d' start eq => h d a d' start (check_eq_ok.1 eq).2

theorem Yields.pure {a : α} (h : P a) : Yields scopes (Pure.pure a) P := Gives.pure ⟨rfl, h⟩

theorem Yields.bind (first : Yields scopes m P) (rest : ∀ a, P a → Gives scopes (k a) R) :
    Gives scopes (m >>= k) R :=
  Gives.bind first fun a _ made => made.1 ▸ rest a made.2

theorem Yields.liftCause {pos : Nat} {r : Except Cause α} (h : ∀ a, r = .ok a → P a) :
    Yields scopes (Lower.liftCause pos r) P := by
  intro d a d' start eq
  obtain ⟨made, rfl⟩ := liftCause_eq_ok.1 eq
  exact ⟨start, h a made⟩

theorem Yields.lift {r : Except Complaint α} (h : ∀ a, r = .ok a → P a) :
    Yields scopes (liftM r : Lower α) P := by
  intro d a d' start eq
  obtain ⟨made, rfl⟩ := liftM_eq_ok.1 eq
  exact ⟨start, h a made⟩

end

/-! ## Expressions -/

section

variable {functions : Nat}

theorem constant_inert (v : Value) : Yields scopes (constant v) Op.Inert := by
  refine .read fun d start => ?_
  split
  · exact Yields.pure trivial
  · intro d' o d₂ start' eq
    simp only [bind_eq_ok, set_eq_ok, pure_eq_ok] at eq
    obtain ⟨_, _, rfl, rfl, rfl⟩ := eq
    exact ⟨start, trivial⟩

theorem fit_inert {what : String} {pos : Nat} {t w : Ty} {ops : List Op}
    (h : fit what pos t w = .ok ops) : ∀ o ∈ ops, o.Inert := by
  unfold fit at h
  split at h
  · cases h
    nofun
  · split at h
    · cases h
      exact List.forall_mem_singleton.2 trivial
    · cases h

theorem Fit.Sound.inert {f : Fit} (sound : f.Sound) {i pos : Nat} {t : Ty} {r : List Op × Ty}
    (h : f i pos t = .ok r) : ∀ o ∈ r.1, o.Inert := by
  rcases sound i pos t r.1 r.2 h with ⟨none_, -⟩ | ⟨one, -⟩
  · rw [none_]
    nofun
  · rw [one]
    exact List.forall_mem_singleton.2 trivial

theorem promote_inert (l r : Ty) : ∀ o ∈ (promote l r).1, o.Inert := by
  unfold promote
  split
  · exact List.forall_mem_singleton.2 trivial
  · split
    · exact List.forall_mem_singleton.2 trivial
    · nofun

theorem unaryResult_inert {op : UnaryOp} {t : Ty} {o : Op} (h : unaryResult op t = .ok o) :
    o.Inert := by
  unfold unaryResult at h
  cases op with
  | neg | not =>
      dsimp only at h
      split at h <;> cases h
      trivial

theorem operator?_inert {op : BinaryOp} {l r t : Ty} {o : Op}
    (h : operator? op l r = some (o, t)) : o.Inert := by
  unfold operator? at h
  cases op with
  | arith op =>
      obtain ⟨_, -, ⟨⟩⟩ := Option.map_eq_some_iff.1 h
      trivial
  | order op =>
      dsimp only at h
      split at h
      all_goals
        obtain ⟨-, ⟨⟩⟩ := Option.ite_none_right_eq_some.1 h
        trivial
  | logic op => cases h

theorem conversion?_inert {name : String} {t : Ty} {o : Op} (h : conversion? name = some (o, t)) :
    o.Inert := by
  unfold conversion? at h
  split at h <;> cases h <;> trivial

theorem visible_of_find? {name : String} {v : Local} (h : find? scopes name = some v) :
    Visible scopes v.slot.toNat := by
  obtain ⟨scope, mem, here⟩ := List.exists_of_findSome?_eq_some h
  exact ⟨scope, mem, name, v, here, rfl⟩

theorem visible_of_place {e : Expr} {p : Place} (h : place scopes e = .ok p) :
    Visible scopes p.var.slot.toNat := by
  rcases place_cases h with ⟨_, _, -, found, -⟩ | ⟨_, _, _, _, _, -, found, -⟩
  all_goals exact visible_of_find? (variablePlace_eq_ok found).1

theorem tidy_load {slot : UInt16} (h : Visible scopes slot.toNat) :
    Tidy functions scopes [.load slot] :=
  .op trivial (fun _ reads => reads ▸ h) rfl

theorem tidy_write {p : Place} (h : Visible scopes p.var.slot.toNat) :
    Tidy functions scopes [p.write] := by
  obtain ⟨x, lanes⟩ := p
  cases lanes with
  | none => exact .op trivial (fun _ => False.elim) rfl
  | some lanes => exact .op trivial (fun _ reads => reads ▸ h) rfl

theorem tidy_read {p : Place} (h : Visible scopes p.var.slot.toNat) :
    Tidy functions scopes p.read := by
  refine (tidy_load h).append (.inert fun o there => ?_)
  obtain ⟨lanes, -, rfl⟩ := Option.map_eq_some_iff.1 (Option.mem_toList.1 there)
  trivial

/-- What is called is among the functions there are, or it is a builtin that takes what it is
    given. -/
theorem callee_tidy {cx : Surroundings} {pos argc : Nat} {name : String} {c : Callee}
    (h : callee cx pos name argc = .ok c) {types : List Ty} {r : Op × Ty}
    (finish : c.finish types = .ok r) : Tidy cx.library.functions.size scopes [r.1] := by
  unfold callee at h
  split at h
  · cases h
  split at h
  next i f found =>
    split at h
    · cases h
    · cases h
      cases finish
      obtain ⟨_, -, there⟩ := Option.bind_eq_some_iff.1 found
      obtain ⟨_, there, ⟨⟩⟩ := Option.bind_eq_some_iff.1 there
      have inside : i < cx.library.functions.size := (Array.getElem?_eq_some_iff.1 there).1
      exact .op (Nat.lt_of_le_of_lt (Nat.mod_le ..) inside) (fun _ => False.elim) rfl
  split at h
  next conversion =>
    split at h
    · cases h
    · cases h
      cases finish
      exact .inert (List.forall_mem_singleton.2 (conversion?_inert conversion))
  split at h
  · cases h
    dsimp only at finish
    unfold finishVector at finish
    dsimp only at finish
    split at finish <;> cases finish
    exact .inert (List.forall_mem_singleton.2 trivial)
  split at h
  · cases h
  · cases h
    dsimp only at finish
    unfold finishBuiltin at finish
    split at finish
    · cases finish
    next b t resolved =>
      split at finish <;> cases finish
      have typed := Builtin.result?_of_resolve? resolved
      refine .op ⟨?_, ?_⟩ (fun _ => False.elim) rfl
      · rintro rfl
        rw [Builtin.length_of_result? typed]
        rfl
      · rintro rfl
        rw [Builtin.length_of_result? typed]
        rfl

end

section

variable {cx : Surroundings}

/-- The code that a walk makes is tidy. -/
abbrev Makes (cx : Surroundings) (scopes : List Scope) (m : Lower (List Op × α)) : Prop :=
  Yields scopes m fun r => Tidy cx.library.functions.size scopes r.1

theorem binary_tidy {pos : Nat} {op : BinaryOp} {a b : Expr} (left : Makes cx scopes (expr cx a))
    (right : Makes cx scopes (expr cx b)) : Makes cx scopes (expr cx (.binary pos op a b)) := by
  rw [expr]
  refine left.bind fun (codeA, l) tidyA => ?_
  cases op with
  | logic op =>
      refine .check (right.bind fun (codeB, r) tidyB => .check (Yields.pure ?_))
      exact tidyA.shortCircuit op tidyB
  | arith op | order op =>
      refine right.bind fun (codeB, r) tidyB => ?_
      dsimp only
      split
      · exact .complain
      next o t typed =>
        exact Yields.pure (((tidyA.append tidyB).append (.inert (promote_inert l r))).append
          (.inert (List.forall_mem_singleton.2 (operator?_inert typed))))

theorem joinBranches_tidy {a b : List Op} {s t : Ty} {r : List Op × List Op × Ty} {functions : Nat}
    (tidyA : Tidy functions scopes a) (tidyB : Tidy functions scopes b)
    (h : joinBranches a b s t = .ok r) :
    Tidy functions scopes r.1 ∧ Tidy functions scopes r.2.1 := by
  obtain ⟨-, fitA, fitB, codeA, codeB, fittedA, fittedB⟩ := joinBranches_eq_ok h
  rw [codeA, codeB]
  exact ⟨tidyA.append (.inert (fit_inert fittedA)), tidyB.append (.inert (fit_inert fittedB))⟩

theorem ternary_tidy {pos : Nat} {c a b : Expr} (cond : Makes cx scopes (expr cx c))
    (yes : Makes cx scopes (expr cx a)) (no : Makes cx scopes (expr cx b)) :
    Makes cx scopes (expr cx (.ternary pos c a b)) := by
  rw [expr]
  refine cond.bind fun (codeC, t) tidyC => .check ?_
  refine yes.bind fun (codeA, s) tidyA => no.bind fun (codeB, t) tidyB => ?_
  refine Yields.bind (.liftCause fun r joined => joinBranches_tidy tidyA tidyB joined)
    fun (a, b, r) tidy => Yields.pure ?_
  exact tidyC.choose tidy.1 tidy.2

theorem assign_tidy {pos : Nat} {op : Option ArithOp} {target value : Expr}
    (h : Makes cx scopes (expr cx value)) :
    Makes cx scopes (expr cx (.assign pos op target value)) := by
  rw [expr.eq_def]
  refine .read fun d start => Yields.bind (.liftCause fun p => visible_of_place) fun p visible => ?_
  rw [start] at visible
  cases op with
  | none =>
      refine h.bind fun (code, t) tidy => Yields.bind (.lift fun ops => fit_inert)
        fun ops inert => Yields.pure ?_
      exact (tidy.append (.inert inert)).append (.cons (by trivial) (tidy_write visible))
  | some op =>
      refine h.bind fun (code, t) tidy => .check (Yields.pure ?_)
      have promoted : ∀ o ∈ (if t = .int ∧ p.ty ≠ .int then ([Op.toFloat 0], Ty.float)
          else ([], t)).1, o.Inert := by
        split
        · exact List.forall_mem_singleton.2 trivial
        · nofun
      exact (((tidy_read visible).append tidy).append (.inert promoted)).append
        (.cons (by trivial) (.cons (by trivial) (tidy_write visible)))

/-- Slots of counters are those of variables, without lanes. -/
theorem step_tidy {pos : Nat} {target : Expr} {increment leading : Bool} :
    Makes cx scopes (expr cx (.step pos target increment leading)) := by
  rw [expr]
  refine .read fun d start => Yields.bind (.liftCause fun p => visible_of_place) fun p visible => ?_
  rw [start] at visible
  refine .check ((constant_inert _).bind fun one inert => Yields.pure ?_)
  have store : Tidy cx.library.functions.size scopes [.store p.var.slot] :=
    .op trivial (fun _ => False.elim) rfl
  cases leading
  · exact (tidy_load visible).append (.cons (by trivial) (.cons inert (.cons (by trivial) store)))
  · exact (tidy_load visible).append (.cons inert (.cons (by trivial) (.cons (by trivial) store)))

mutual

theorem expr_tidy (cx : Surroundings) (scopes : List Scope) (e : Expr) :
    Makes cx scopes (expr cx e) :=
  match e with
  | .lit pos n => by
    rw [expr]
    refine Yields.bind (P := fun _ => True) (.liftCause fun _ _ => trivial) fun v _ => ?_
    exact (constant_inert v).bind fun o inert =>
      Yields.pure (.inert (List.forall_mem_singleton.2 inert))
  | .var pos name => by
    rw [expr]
    refine .read fun d start => ?_
    split
    · exact .complain
    next v found => exact Yields.pure (tidy_load (visible_of_find? (start ▸ found)))
  | .unary pos op e => by
    rw [expr]
    refine (expr_tidy cx scopes e).bind fun (code, t) tidy => ?_
    refine Yields.bind (.liftCause fun o => unaryResult_inert) fun o inert => Yields.pure ?_
    exact tidy.append (.inert (List.forall_mem_singleton.2 inert))
  | .binary _ _ a b => binary_tidy (expr_tidy cx scopes a) (expr_tidy cx scopes b)
  | .ternary _ c a b =>
    ternary_tidy (expr_tidy cx scopes c) (expr_tidy cx scopes a) (expr_tidy cx scopes b)
  | .call pos name es => by
    rw [expr]
    refine Yields.bind (.liftCause fun _ found => found) fun c found => ?_
    refine (arguments_tidy cx scopes (callAt_of_callee found).1 0 es).bind
      fun (code, types) tidy => ?_
    refine Yields.bind (P := fun r => Tidy cx.library.functions.size scopes [r.1])
      (.liftCause fun r => callee_tidy found) fun (o, t) called => Yields.pure ?_
    exact tidy.append called
  | .select pos base fields => by
    rw [expr]
    refine (expr_tidy cx scopes base).bind fun (code, t) tidy => .check ?_
    refine Yields.bind (P := fun _ => True) (.liftCause fun _ _ => trivial) fun lanes _ => ?_
    exact Yields.pure (tidy.append (.cons (by trivial) .nil))
  | .assign _ _ _ value => assign_tidy (expr_tidy cx scopes value)
  | .step .. => step_tidy

theorem arguments_tidy (cx : Surroundings) (scopes : List Scope) {f : Fit} (fits : f.Sound)
    (i : Nat) (es : List Expr) : Makes cx scopes (arguments cx f i es) :=
  match es with
  | [] => by
    rw [arguments]
    exact Yields.pure .nil
  | e :: rest => by
    rw [arguments]
    refine (expr_tidy cx scopes e).bind fun (code, t) tidy => ?_
    refine Yields.bind (.lift fun r => fits.inert) fun (convert, w) inert => ?_
    refine (arguments_tidy cx scopes fits (i + 1) rest).bind fun (more, types) tidy' =>
      Yields.pure ?_
    exact (tidy.append (.inert inert)).append tidy'

end

end

end Lower

/-! ## Code of statements -/

/-- A chunk behind which the slots of variables in scope have been set if they had been in front of
    it. -/
structure Scoped (functions : Nat) (scopes behind : List Scope) (c : Chunk) : Prop where
  calls : ∀ o, .op o ∈ c → o.Calls functions
  grown : ∀ x, Visible scopes x → Visible behind x
  tracks : ∀ {code x loop pc pc'}, code.size < 2 ^ 31 → ChunkAt code loop pc c pc' →
    Tracks code x (Leaves loop) pc pc' (Visible scopes x) (Visible behind x)

theorem visible_enter (scopes : List Scope) : Visible (∅ :: scopes) = Visible scopes := by
  funext x
  refine propext ⟨fun ⟨scope, mem, name, v, here, slot⟩ => ?_, fun ⟨scope, mem, rest⟩ =>
    ⟨scope, List.mem_cons_of_mem _ mem, rest⟩⟩
  rcases List.mem_cons.1 mem with rfl | mem
  · simp at here
  · exact ⟨scope, mem, name, v, here, slot⟩

namespace Scoped

variable {functions : Nat} {scopes between behind : List Scope} {c c' : Chunk} {ops : List Op}

theorem ofOps (h : Tidy functions scopes ops) : Scoped functions scopes scopes (.ofOps ops) where
  calls o there := by
    obtain ⟨o', mem, ⟨⟩⟩ := List.mem_map.1 there
    exact h.calls o mem
  grown _ := id
  tracks short at_ := h.chunk short at_

theorem append (first : Scoped functions scopes between c)
    (second : Scoped functions between behind c') : Scoped functions scopes behind (c ++ c') where
  calls o there := (List.mem_append.1 there).elim (first.calls o) (second.calls o)
  grown x := second.grown x ∘ first.grown x
  tracks short at_ := by
    obtain ⟨m, firstAt, secondAt⟩ := ChunkAt.append.1 at_
    exact (first.tracks short firstAt).append (second.tracks short secondAt)

/-- A value that becomes that of a new variable. -/
theorem declare {slot : UInt16} (value : Tidy functions scopes ops)
    (new : ∀ x, Visible behind x ↔ Visible scopes x ∨ slot.toNat = x) :
    Scoped functions scopes behind (.ofOps (ops ++ [.store slot])) where
  calls o there := by
    obtain ⟨o', mem, ⟨⟩⟩ := List.mem_map.1 there
    rcases List.mem_append.1 mem with mem | mem
    · exact value.calls o mem
    · obtain rfl := List.mem_singleton.1 mem
      trivial
  grown x h := (new x).2 (.inl h)
  tracks short at_ := by
    obtain ⟨m, valueAt, storeAt⟩ := Placed.append.1 at_.ofOps
    obtain ⟨store, rest⟩ := Placed.cons_iff.1 storeAt
    obtain rfl := Placed.nil_iff.1 rest
    exact ((value.tracks short valueAt).mono fun _ => False.elim).append (.store store (new _))

theorem leave (h : Scoped functions (∅ :: scopes) behind c) : Scoped functions scopes scopes c where
  calls := h.calls
  grown _ := id
  tracks {code x loop pc pc'} short at_ := by
    have inner : Tracks code x (Leaves loop) pc pc' _ _ := h.tracks short at_
    have grown := h.grown x
    rw [visible_enter] at inner grown
    exact inner.leave id grown

/-- A jump out of a loop that is still open. -/
theorem jumpOut {s : Step} (out : ∀ o, s ≠ .op o) : Scoped functions scopes scopes [s] where
  calls o there := absurd (List.mem_singleton.1 there).symm (out o)
  grown _ := id
  tracks _ at_ := by
    obtain ⟨here, rest⟩ := Placed.cons_iff.1 at_
    obtain rfl := Placed.nil_iff.1 rest
    cases here with
    | op => exact absurd rfl (out _)
    | breakOut jump =>
        obtain ⟨_, jump, lands⟩ := jump
        exact .op jump False.elim fun k leads => by cases leads; exact ⟨_, lands, _, rfl, .inl rfl⟩
    | continueOn jump =>
        obtain ⟨_, jump, lands⟩ := jump
        exact .op jump False.elim fun k leads => by cases leads; exact ⟨_, lands, _, rfl, .inr rfl⟩

section

variable {cond : List Op} {o : Op}

theorem calls_ofOps (h : Tidy functions scopes ops) (there : .op o ∈ Chunk.ofOps ops) :
    o.Calls functions :=
  (ofOps h).calls o there

theorem mem_closeFrom {site again stop : Nat} (there : .op o ∈ c.closeFrom site again stop) :
    .op o ∈ c ∨ ∃ offset, o = .jump offset := by
  induction c generalizing site with
  | nil => cases there
  | cons s c ih =>
      cases s with
      | op o' =>
          obtain ⟨⟨⟩⟩ | there := List.mem_cons.1 there
          · exact .inl List.mem_cons_self
          · exact (ih there).imp_left (List.mem_cons_of_mem _)
      | breakOut | continueOn =>
          obtain ⟨⟨⟩⟩ | there := List.mem_cons.1 there
          · exact .inr ⟨_, rfl⟩
          · exact (ih there).imp_left (List.mem_cons_of_mem _)

theorem ifThen (test : Tidy functions scopes cond) (yes : Scoped functions scopes scopes c) :
    Scoped functions scopes scopes (.ifThen cond c) where
  calls o there := by
    simp only [Chunk.ifThen, List.mem_append, List.mem_cons, Step.op.injEq] at there
    obtain there | rfl | there := there
    · exact calls_ofOps test there
    · trivial
    · exact yes.calls o there
  grown _ := id
  tracks short at_ := .ifThen short (test.tracks short) (yes.tracks short) at_

theorem ifElse (test : Tidy functions scopes cond) (yes : Scoped functions scopes scopes c)
    (no : Scoped functions scopes scopes c') :
    Scoped functions scopes scopes (.ifElse cond c c') where
  calls o there := by
    simp only [Chunk.ifElse, List.mem_append, List.mem_cons, Step.op.injEq] at there
    obtain (there | rfl | there) | rfl | there := there
    · exact calls_ofOps test there
    · trivial
    · exact yes.calls o there
    · trivial
    · exact no.calls o there
  grown _ := id
  tracks short at_ := .ifElse short (test.tracks short) (yes.tracks short) (no.tracks short) at_

theorem testLast (body : Scoped functions scopes scopes c) (test : Tidy functions scopes cond) :
    Scoped functions scopes scopes (.testLast c cond) where
  calls o there := by
    obtain there | ⟨_, rfl⟩ := mem_closeFrom there
    · simp only [List.mem_append, List.mem_singleton, Step.op.injEq] at there
      obtain (there | there) | rfl := there
      · exact body.calls o there
      · exact calls_ofOps test there
      · trivial
    · trivial
  grown _ := id
  tracks short at_ := .testLast short (test.tracks short) (body.tracks short) at_

theorem testFirst {cond next : Option (List Op)}
    (test : ∀ ops ∈ cond, Tidy functions scopes ops) (body : Scoped functions scopes scopes c)
    (step : Tidy functions scopes (next.getD [])) :
    Scoped functions scopes scopes (.testFirst cond c next) where
  calls o there := by
    obtain there | ⟨_, rfl⟩ := mem_closeFrom there
    · simp only [List.mem_append, List.mem_singleton, Step.op.injEq] at there
      obtain ((there | there) | there) | rfl := there
      · cases cond with
        | none => cases there
        | some ops =>
            simp only [List.mem_append, List.mem_singleton, Step.op.injEq] at there
            obtain there | rfl := there
            · exact calls_ofOps (test ops rfl) there
            · trivial
      · exact body.calls o there
      · exact calls_ofOps step there
      · trivial
    · trivial
  grown _ := id
  tracks short at_ := .testFirst short (fun ops there => (test ops there).tracks short)
    (body.tracks short) (step.tracks short) at_

end

end Scoped

namespace Lower

variable {α : Type} {cx : Surroundings} {scopes : List Scope}

/-- The code that a walk makes brings the scopes behind it. -/
abbrev Brings (cx : Surroundings) (scopes : List Scope) (m : Lower Chunk) : Prop :=
  Gives scopes m fun c behind => Scoped cx.library.functions.size scopes behind c

/-- A walk inside a scope of its own. -/
abbrev Closes (cx : Surroundings) (scopes : List Scope) (m : Lower Chunk) : Prop :=
  Yields scopes m fun c => Scoped cx.library.functions.size scopes scopes c

theorem visible_insert {scope : Scope} {outer : List Scope} {name : String} {v : Local} {x : Nat}
    (new : scope[name]? = none) :
    Visible (scope.insert name v :: outer) x ↔ Visible (scope :: outer) x ∨ v.slot.toNat = x := by
  constructor
  · rintro ⟨scope', mem, name', w, here, slot⟩
    rcases List.mem_cons.1 mem with rfl | mem
    · rw [Std.TreeMap.getElem?_insert] at here
      split at here
      · cases here
        exact .inr slot
      · exact .inl ⟨scope, List.mem_cons_self, name', w, here, slot⟩
    · exact .inl ⟨scope', List.mem_cons_of_mem _ mem, name', w, here, slot⟩
  · rintro (⟨scope', mem, name', w, here, slot⟩ | slot)
    · rcases List.mem_cons.1 mem with rfl | mem
      · refine ⟨_, List.mem_cons_self, name', w, ?_, slot⟩
        rw [Std.TreeMap.getElem?_insert, if_neg, here]
        intro same
        rw [Std.LawfulEqCmp.eq_of_compare same, here] at new
        cases new
      · exact ⟨scope', List.mem_cons_of_mem _ mem, name', w, here, slot⟩
    · exact ⟨_, List.mem_cons_self, name, v, Std.TreeMap.getElem?_insert_self, slot⟩

theorem declare_eq {pos : Nat} {name : String} {ty : Ty} {isConst : Bool} {slot : UInt16}
    {d d' : Draft} (h : declare pos name ty isConst d = .ok (slot, d')) :
    slot = UInt16.ofNat d.locals.size ∧ d'.locals.size = d.locals.size + 1 ∧
      ∀ x, Visible d'.scopes x ↔ Visible d.scopes x ∨ slot.toNat = x := by
  unfold declare at h
  simp only [bind_eq_ok, get_eq_ok] at h
  obtain ⟨_, _, ⟨rfl, rfl⟩, h⟩ := h
  simp only [check_eq_ok, bind_eq_ok, set_eq_ok, pure_eq_ok] at h
  obtain ⟨new, -, _, _, rfl, rfl, rfl⟩ := h
  refine ⟨rfl, Array.size_push .., fun x => ?_⟩
  rw [visible_insert (by simpa using new)]
  cases d.scopes with
  | nil => rw [visible_enter]
  | cons scope outer => rfl

theorem declare_gives (pos : Nat) (name : String) (ty : Ty) (isConst : Bool) :
    Gives scopes (declare pos name ty isConst) fun slot behind =>
      ∀ x, Visible behind x ↔ Visible scopes x ∨ slot.toNat = x := by
  intro d slot d' start h
  rw [← start]
  exact (declare_eq h).2.2

theorem condition_tidy (cond : Expr) :
    Yields scopes (condition cx cond) (Tidy cx.library.functions.size scopes) :=
  (expr_tidy cx scopes cond).bind fun (_, _) tidy => .check (Yields.pure tidy)

theorem effect_tidy (e : Expr) :
    Yields scopes (effect cx e) (Tidy cx.library.functions.size scopes) := by
  refine (expr_tidy cx scopes e).bind fun (code, t) tidy => Yields.pure ?_
  split
  · exact tidy
  · exact tidy.append (.cons (by trivial) .nil)

theorem declarator_brings (ty : Ty) (isConst : Bool) (v : Declarator) :
    Gives scopes (declarator cx ty isConst v) fun ops behind =>
      Scoped cx.library.functions.size scopes behind (.ofOps ops) := by
  unfold declarator
  have store (ops : List Op) (tidy : Tidy cx.library.functions.size scopes ops) :
      Gives scopes (do
        let slot ← declare v.pos v.name ty isConst
        return ops ++ [.store slot]) fun ops behind =>
          Scoped cx.library.functions.size scopes behind (.ofOps ops) :=
    (declare_gives v.pos v.name ty isConst).bind fun slot behind new => .pure (.declare tidy new)
  cases v.init with
  | none =>
      refine .check ((constant_inert _).bind fun o inert => ?_)
      exact (Yields.pure (Tidy.cons inert .nil)).bind store
  | some e =>
      refine (expr_tidy cx scopes e).bind fun (code, t) tidy => ?_
      refine Yields.bind (.lift fun ops => fit_inert) fun ops inert => ?_
      exact (Yields.pure (tidy.append (.inert inert))).bind store

theorem declarators_brings (ty : Ty) (isConst : Bool) (vars : List Declarator) :
    Gives scopes (declarators cx ty isConst vars) fun ops behind =>
      Scoped cx.library.functions.size scopes behind (.ofOps ops) := by
  induction vars generalizing scopes with
  | nil => exact .pure (.ofOps .nil)
  | cons v vars ih =>
      refine (declarator_brings ty isConst v).bind fun ops between first => ?_
      refine ih.bind fun more behind rest => .pure ?_
      rw [Chunk.ofOps, List.map_append]
      exact first.append rest

theorem returned_tidy (pos : Nat) (value : Option Expr) :
    Yields scopes (returned cx pos value) (Tidy cx.library.functions.size scopes) := by
  cases value with
  | none => exact .check (Yields.pure (.cons (by trivial) .nil))
  | some e =>
      refine .check ((expr_tidy cx scopes e).bind fun (code, t) tidy => ?_)
      refine Yields.bind (.lift fun ops => fit_inert) fun ops inert => Yields.pure ?_
      exact (tidy.append (.inert inert)).append (.cons (by trivial) .nil)

theorem clause_tidy {f : Expr → Lower (List Op)} (e : Option Expr)
    (h : ∀ e, Yields scopes (f e) (Tidy cx.library.functions.size scopes)) :
    Yields scopes (clause f e) fun r => ∀ ops ∈ r, Tidy cx.library.functions.size scopes ops := by
  cases e with
  | none => exact Yields.pure nofun
  | some e => exact (h e).bind fun ops tidy => Yields.pure fun _ mem => by cases mem; exact tidy

theorem enclosed_closes {m : Lower Chunk} (h : Brings cx (∅ :: scopes) m) :
    Closes cx scopes (enclosed m) := by
  intro d c d' start ran
  unfold enclosed at ran
  simp only [bind_eq_ok, get_eq_ok, modify_eq_ok, pure_eq_ok] at ran
  obtain ⟨_, _, ⟨rfl, rfl⟩, _, _, rfl, _, _, inner, _, _, rfl, rfl, rfl⟩ := ran
  exact ⟨start, (h _ _ _ (by rw [start]) inner).leave⟩

theorem Closes.brings {m : Lower Chunk} (h : Closes cx scopes m) : Brings cx scopes m := by
  intro d c d' start ran
  obtain ⟨same, closed⟩ := h d c d' start ran
  rw [same]
  exact closed

mutual

theorem stmt_brings (cx : Surroundings) (scopes : List Scope) (inLoop : Bool) (s : Stmt) :
    Brings cx scopes (stmt cx inLoop s) :=
  match s with
  | .empty => .pure (.ofOps .nil)
  | .expr e => (effect_tidy e).bind fun _ tidy => .pure (.ofOps tidy)
  | .block body => (enclosed_closes (stmts_brings cx _ inLoop body)).brings
  | .decl pos ty isConst vars =>
    .check (.check ((declarators_brings ty isConst vars).bind fun _ _ made => .pure made))
  | .ifThen cond yes => by
    refine (condition_tidy cond).bind fun c test => ?_
    exact (enclosed_closes (stmt_brings cx _ inLoop yes)).bind fun c yes => .pure (.ifThen test yes)
  | .ifElse cond yes no => by
    refine (condition_tidy cond).bind fun c test => ?_
    refine (enclosed_closes (stmt_brings cx _ inLoop yes)).bind fun c yes => ?_
    exact (enclosed_closes (stmt_brings cx _ inLoop no)).bind fun c' no =>
      .pure (.ifElse test yes no)
  | .forLoop init cond step body => by
    refine (enclosed_closes ?_).brings
    refine (stmt_brings cx _ inLoop init).bind fun first inner brought => ?_
    refine (clause_tidy cond condition_tidy).bind fun c test => ?_
    refine (enclosed_closes (stmt_brings cx _ true body)).bind fun c body => ?_
    refine (clause_tidy step effect_tidy).bind fun next step => .pure ?_
    refine brought.append (.testFirst test body ?_)
    cases next with
    | none => exact .nil
    | some ops => exact step ops rfl
  | .whileLoop cond body => by
    refine (condition_tidy cond).bind fun c test => ?_
    refine (enclosed_closes (stmt_brings cx _ true body)).bind fun c body => .pure ?_
    exact .testFirst (fun _ mem => by cases mem; exact test) body .nil
  | .doWhile body cond => by
    refine (enclosed_closes (stmt_brings cx _ true body)).bind fun c body => ?_
    exact (condition_tidy cond).bind fun c test => .pure (.testLast body test)
  | .breakLoop _ | .continueLoop _ => .check (.pure (.jumpOut nofun))
  | .ret pos value => (returned_tidy pos value).bind fun _ tidy => .pure (.ofOps tidy)

theorem stmts_brings (cx : Surroundings) (scopes : List Scope) (inLoop : Bool) (ss : List Stmt) :
    Brings cx scopes (stmts cx inLoop ss) :=
  match ss with
  | [] => .pure (.ofOps .nil)
  | s :: rest => by
    refine (stmt_brings cx scopes inLoop s).bind fun c between first => ?_
    exact (stmts_brings cx between inLoop rest).bind fun c' behind second =>
      .pure (first.append second)

end

/-! ## Functions -/

theorem visible_parameters {isKernel : Bool} {params : List Param} {d d' : Draft} {x : Nat}
    (h : parameters isKernel params d = .ok ((), d')) (visible : Visible d'.scopes x) :
    Visible d.scopes x ∨ x < d.locals.size + params.length := by
  induction params generalizing d with
  | nil =>
      obtain ⟨-, rfl⟩ := pure_eq_ok.1 h
      exact .inl visible
  | cons p rest ih =>
      unfold parameters at h
      simp only [check_eq_ok, bind_eq_ok] at h
      obtain ⟨-, -, slot, d₁, declared, others⟩ := h
      obtain ⟨rfl, size, scopes⟩ := declare_eq declared
      rw [List.length_cons]
      rcases ih others with earlier | new
      · rcases (scopes x).1 earlier with before | rfl
        · exact .inl before
        · have word : (UInt16.ofNat d.locals.size).toNat ≤ d.locals.size := Nat.mod_le ..
          exact .inr (by omega)
      · exact .inr (by omega)

variable {lib lib' : Library} {consts consts' : Array Value}

theorem function_tracks {f : FunctionDef} {g : Function} (pool : Pool consts)
    (floats : Stmt.FloatsList Signless f.body) (h : function lib consts f = .ok (g, consts')) :
    (∀ o ∈ g.code, o.Calls lib.functions.size) ∧ (g.code.size < 2 ^ 31 → g.SetsFirst) := by
  obtain ⟨-, d, chunk, d', taken, body, -, rfl⟩ := function_ran h
  have brought := stmts_brings _ d.scopes false f.body d chunk d' rfl body
  have last : (if f.ret = .void then Op.retVoid else .missingReturn).Inert := by
    split <;> trivial
  constructor
  · intro o there
    rcases List.mem_append.1 (List.mem_toArray.1 there) with there | there
    · obtain ⟨s, mem, eq⟩ := List.mem_filterMap.1 there
      cases s with
      | op o' =>
          cases eq
          exact brought.calls o mem
      | breakOut | continueOn => cases eq
    · obtain rfl := List.mem_singleton.1 there
      exact last.calls _
  · intro short
    obtain ⟨-, closed, -⟩ :=
      stmts_lower _ f.body floats (parameters_eq_ok (.start pool) taken).1.sound body
    refine .of_tracks (Visible d.scopes) (Visible d'.scopes) (fun x => ?_) fun x visible => ?_
    · have at_ := opsAt_append []
        (chunk.ops ++ [if f.ret = .void then Op.retVoid else .missingReturn])
      obtain ⟨pc, bodyAt, lastAt⟩ := Placed.append.1 at_
      have walk : Tracks _ x (fun _ => False) 0 pc (Visible d.scopes x) (Visible d'.scopes x) :=
        Tracks.mono (brought.tracks short ((closed rfl).chunkAt bodyAt))
          fun t out => (not_leaves_none t out).elim
      have stop : Tidy 0 d'.scopes [if f.ret = .void then Op.retVoid else .missingReturn] :=
        .inert (List.forall_mem_singleton.2 last)
      simpa using walk.append (stop.tracks short lastAt)
    · rw [List.length_map]
      rcases visible_parameters taken visible with ⟨scope, mem, name, v, here, -⟩ | inside
      · obtain rfl := List.mem_singleton.1 mem
        simp at here
      · simpa using inside

theorem functionsFrom_tracks {fs : List FunctionDef} (pool : Pool consts)
    (floats : ∀ f ∈ fs, Stmt.FloatsList Signless f.body)
    (before : ∀ g ∈ lib.functions, (∀ o ∈ g.code, o.Calls lib.functions.size) ∧
      (g.code.size < 2 ^ 31 → g.SetsFirst))
    (h : functionsFrom lib consts fs = .ok (lib', consts')) :
    ∀ g ∈ lib'.functions, (∀ o ∈ g.code, o.Calls lib'.functions.size) ∧
      (g.code.size < 2 ^ 31 → g.SetsFirst) := by
  induction fs generalizing lib consts with
  | nil =>
      cases h
      exact before
  | cons f rest ih =>
      rw [List.forall_mem_cons] at floats
      unfold functionsFrom at h
      cases made : function lib consts f with
      | error => rw [made] at h; cases h
      | ok r =>
          rw [made] at h
          have more : lib.functions.size ≤ (lib.add r.1).functions.size := by simp [Library.add]
          refine ih (function_eq_ok pool floats.1 made).pool floats.2 (fun g mem => ?_) h
          rcases Array.mem_push.1 mem with old | rfl
          · exact (before g old).imp_left fun calls o there => (calls o there).mono more
          · exact (function_tracks pool floats.1 made).imp_left fun calls o there =>
              (calls o there).mono more

end Lower

/-- In a program that was compiled what is called is there, and a slot is set before it is read. -/
theorem tracks_of_compile {source : String} {p : Program} (h : compile source = .ok p) :
    ∀ g ∈ p.functions, (∀ o ∈ g.code, o.Calls p.functions.size) ∧
      (g.code.size < 2 ^ 31 → g.SetsFirst) := by
  obtain ⟨module, parsed, lowered⟩ := lowerModule_of_compile h
  obtain ⟨k, target, lib, consts, -, made, rfl⟩ := lowerModule_eq_ok lowered
  exact Lower.functionsFrom_tracks .empty (floats_parseModule parsed)
    (by simp [Library.empty]) made

end PixelKernel.Language
