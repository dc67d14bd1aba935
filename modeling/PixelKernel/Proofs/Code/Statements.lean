import PixelKernel.Proofs.Code.Expressions

/-! # Code of statements

Lowering a statement yields a chunk that, wherever it is placed inside a loop or none, stands
for the statement. Variables get slots of their own, and scopes are left as they were found.
-/

namespace PixelKernel.Language.Lower

attribute [simp] stmt stmts

open Unsigned

variable {cx : Surroundings} {site : Site} {d d' d₁ : Draft} {pc pc' : Nat}

/-- Every variable in scope has a slot. -/
structure Sound (d : Draft) : Prop where
  pool : Pool d.consts
  few : d.locals.size ≤ 65536
  slots : ∀ scope ∈ d.scopes, ∀ (name : String) x, scope[name]? = some x →
    x.slot.toNat < d.locals.size
  opened : d.scopes ≠ []

/-- A function starts with no variables. -/
theorem Sound.start {consts : Array Value} (pool : Pool consts) : Sound ⟨consts, #[], [∅]⟩ where
  pool := pool
  few := Nat.zero_le _
  slots scope hs name x hx := by
    obtain rfl := List.mem_singleton.1 hs
    simp at hx
  opened := nofun

/-- A statement adds constants, slots and variables of the innermost scope. -/
structure Steps (d d' : Draft) : Prop where
  sound : Sound d'
  consts : d.consts.toList <+: d'.consts.toList
  locals : d.locals.size ≤ d'.locals.size
  outer : d'.scopes.tail = d.scopes.tail

namespace Steps

theorem refl (h : Sound d) : Steps d d := ⟨h, List.prefix_refl _, Nat.le_refl _, rfl⟩

theorem trans (h : Steps d d₁) (h' : Steps d₁ d') : Steps d d' :=
  ⟨h'.sound, h.consts.trans h'.consts, Nat.le_trans h.locals h'.locals, h'.outer.trans h.outer⟩

theorem of_grows (h : Grows d d') (sound : Sound d) : Steps d d' where
  sound := {
    pool := h.pool
    few := h.locals ▸ sound.few
    slots := by rw [h.scopes, h.locals]; exact sound.slots
    opened := h.scopes ▸ sound.opened }
  consts := h.consts
  locals := Nat.le_of_eq (by rw [h.locals])
  outer := by rw [h.scopes]

theorem before (h : Steps d d') (serves : site.Serves cx d') : site.Serves cx d :=
  { serves with
    consts := h.consts.trans serves.consts
    slots := Nat.le_trans h.locals serves.slots }

/-- The scopes behind a statement that ran in a scope of its own. -/
theorem inner (h : Steps d d') : ∃ scope, d'.scopes = scope :: d.scopes.tail := by
  obtain ⟨scope, outer, eq⟩ := List.exists_cons_of_ne_nil h.sound.opened
  exact ⟨scope, by rw [← h.outer, eq, List.tail_cons]⟩

end Steps

/-! ## Declarations -/

theorem declare_eq_ok {pos : Nat} {name : String} {ty : Ty} {isConst : Bool} {slot : UInt16}
    (sound : Sound d) (h : declare pos name ty isConst d = .ok (slot, d')) :
    Steps d d' ∧ d'.locals.size = d.locals.size + 1 ∧ ∃ x : Local, x.slot = slot ∧ x.ty = ty ∧
      x.slot.toNat = d.locals.size ∧ ∀ {slots}, d'.locals.size ≤ slots →
        Declared slots d.scopes name x d'.scopes := by
  obtain ⟨scope, outer, scopes⟩ := List.exists_cons_of_ne_nil sound.opened
  unfold declare at h
  simp only [bind_eq_ok, get_eq_ok] at h
  obtain ⟨_, _, ⟨rfl, rfl⟩, h⟩ := h
  rw [scopes] at h
  simp only [check_eq_ok, bind_eq_ok, set_eq_ok, pure_eq_ok] at h
  obtain ⟨new, room, _, _, rfl, rfl, rfl⟩ := h
  have word : (UInt16.ofNat d.locals.size).toNat = d.locals.size :=
    UInt16.toNat_ofNat_of_lt' (by change _ < 2 ^ 16; omega)
  have absent : scope[name]? = none := by simpa using new
  have slots := sound.slots
  rw [scopes] at slots
  have slotsInner := slots scope List.mem_cons_self
  refine ⟨⟨⟨sound.pool, ?_, ?_, ?_⟩, List.prefix_refl _, ?_, ?_⟩, Array.size_push ..,
    ⟨UInt16.ofNat d.locals.size, ty, isConst⟩, rfl, rfl, word, fun most => ?_⟩
  · simp only [Array.size_push]; omega
  · intro sc hsc n x hx
    simp only [Array.size_push]
    rcases List.mem_cons.1 hsc with rfl | old
    · rw [Std.TreeMap.getElem?_insert] at hx
      split at hx
      · cases hx
        dsimp only
        omega
      · have := slotsInner n x hx
        omega
    · have := slots sc (List.mem_cons_of_mem _ old) n x hx
      omega
  · exact List.cons_ne_nil _ _
  · simp
  · rw [scopes, List.tail_cons, List.tail_cons]
  · refine ⟨⟨scope, outer, scopes, rfl, absent⟩, fun sc hsc n y hy same => ?_, ?_⟩
    · have := sound.slots sc hsc n y hy
      rw [same] at this
      dsimp only at this
      omega
    · simp only [Array.size_push] at most
      dsimp only
      omega

/-- What runs in a scope of its own leaves the others as they were. -/
theorem enclosed_eq_ok {α : Type} {m : Lower α} {a : α} (h : enclosed m d = .ok (a, d')) :
    ∃ d₁, m { d with scopes := ∅ :: d.scopes } = .ok (a, d₁) ∧
      d' = { d₁ with scopes := d.scopes } := by
  unfold enclosed at h
  simp only [bind_eq_ok, get_eq_ok, modify_eq_ok, pure_eq_ok] at h
  obtain ⟨_, _, ⟨rfl, rfl⟩, _, _, rfl, _, d₁, ran, _, _, rfl, rfl, rfl⟩ := h
  exact ⟨d₁, ran, rfl⟩

theorem Sound.enter (h : Sound d) : Sound { d with scopes := ∅ :: d.scopes } where
  pool := h.pool
  few := h.few
  slots sc hsc n x hx := by
    rcases List.mem_cons.1 hsc with rfl | old
    · simp at hx
    · exact h.slots sc old n x hx
  opened := nofun

theorem Steps.leave (h : Steps { d with scopes := ∅ :: d.scopes } d₁) (sound : Sound d) :
    Steps d { d₁ with scopes := d.scopes } where
  sound := {
    pool := h.sound.pool
    few := h.sound.few
    slots := fun sc hsc n x hx => Nat.lt_of_lt_of_le (sound.slots sc hsc n x hx) h.locals
    opened := sound.opened }
  consts := h.consts
  locals := h.locals
  outer := rfl

/-! ## Clauses -/

theorem condition_eq_ok {e : Expr} {ops : List Op} (floats : e.Floats Signless)
    (pool : Pool d.consts) (h : condition cx e d = .ok (ops, d')) :
    ExprOk cx d d' e ops .bool := by
  unfold condition at h
  simp only [bind_eq_ok, check_eq_ok, pure_eq_ok] at h
  obtain ⟨⟨code, t⟩, _, lowered, bool, rfl, rfl⟩ := h
  obtain rfl : t = .bool := Decidable.not_not.1 bool
  exact expr_lowers cx e floats pool lowered

/-- What lowering a clause achieves. -/
structure ClauseOk (cx : Surroundings) (d d' : Draft) (ops : List Op)
    (At : Site → Nat → Nat → Prop) : Prop where
  grows : Grows d d'
  placed : ∀ {site : Site} {pc pc' : Nat}, site.Serves cx d' → OpsAt site.code pc ops pc' →
    At site pc pc'

theorem effect_eq_ok {e : Expr} {ops : List Op} (floats : e.Floats Signless)
    (pool : Pool d.consts) (h : effect cx e d = .ok (ops, d')) :
    ClauseOk cx d d' ops fun site pc => EffectAt site d.scopes pc e := by
  unfold effect at h
  simp only [bind_eq_ok, pure_eq_ok] at h
  obtain ⟨⟨code, t⟩, _, lowered, same, rfl⟩ := h
  obtain ⟨grows, placed⟩ := expr_lowers cx e floats pool lowered
  refine ⟨grows, fun serves at_ => ?_⟩
  dsimp only at same
  split at same
  next void =>
    cases same
    exact ⟨t, _, placed serves at_, .inl ⟨void, rfl⟩⟩
  next value =>
    cases same
    obtain ⟨pc₁, before, last⟩ := Placed.append.1 at_
    obtain ⟨pop, rest⟩ := Placed.cons_iff.1 last
    cases rest
    exact ⟨t, _, placed serves before, .inr ⟨value, pop, rfl⟩⟩

/-- What lowering declarations achieves. -/
structure DeclsOk (cx : Surroundings) (ty : Ty) (d d' : Draft) (vars : List Declarator)
    (ops : List Op) : Prop where
  steps : Steps d d'
  placed : ∀ {site : Site} {pc pc' : Nat}, site.Serves cx d' → OpsAt site.code pc ops pc' →
    DeclsAt site ty d.scopes pc vars pc' d'.scopes

theorem declarators_eq_ok {ty : Ty} {isConst : Bool} {vars : List Declarator} {ops : List Op}
    (value : ty ≠ .void) (storable : ty ≠ .sampler)
    (floats : ∀ v ∈ vars, Expr.FloatsOption Signless v.init) (sound : Sound d)
    (h : declarators cx ty isConst vars d = .ok (ops, d')) : DeclsOk cx ty d d' vars ops := by
  induction vars generalizing d ops with
  | nil =>
      obtain ⟨rfl, rfl⟩ := pure_eq_ok.1 h
      refine ⟨.refl sound, fun _ at_ => ?_⟩
      cases at_
      exact .nil
  | cons v rest ih =>
      rw [List.forall_mem_cons] at floats
      unfold declarators at h
      simp only [bind_eq_ok, pure_eq_ok] at h
      obtain ⟨first, d₂, lowered, more, _, others, rfl, rfl⟩ := h
      unfold declarator at lowered
      cases given : v.init with
      | none =>
          rw [given] at lowered
          simp only [check_eq_ok, bind_eq_ok, pure_eq_ok] at lowered
          obtain ⟨-, o, d₁, made, _, _, ⟨rfl, rfl⟩, _, _, declared, rfl, rfl⟩ := lowered
          obtain ⟨grows, i, rfl, held⟩ := constant_eq_ok sound.pool (.zero value storable) made
          have steps := Steps.of_grows grows sound
          obtain ⟨steps', -, x, rfl, typed, -, fresh⟩ := declare_eq_ok steps.sound declared
          obtain ⟨steps'', placed⟩ := ih floats.2 steps'.sound others
          refine ⟨(steps.trans steps').trans steps'', fun serves at_ => ?_⟩
          have served := steps''.before serves
          obtain ⟨pc₂, head, tail⟩ := Placed.append.1 at_
          obtain ⟨const, rest⟩ := Placed.cons_iff.1 head
          obtain ⟨store, rest⟩ := Placed.cons_iff.1 rest
          cases rest
          have new := fresh served.slots
          rw [grows.scopes] at new
          exact .zero given ⟨i, const, constAt (steps'.before served) held⟩ new typed store
            (placed serves tail)
      | some e =>
          rw [given] at lowered floats
          simp only [bind_eq_ok, liftM_eq_ok, pure_eq_ok] at lowered
          obtain ⟨⟨code, t⟩, d₁, evaluated, convert, _, ⟨fitted, rfl⟩, _, _, ⟨rfl, rfl⟩, _, _,
            declared, rfl, rfl⟩ := lowered
          obtain ⟨grows, placedInit⟩ := expr_lowers cx e floats.1 sound.pool evaluated
          have steps := Steps.of_grows grows sound
          obtain ⟨steps', -, x, rfl, typed, -, fresh⟩ := declare_eq_ok steps.sound declared
          obtain ⟨steps'', placed⟩ := ih floats.2 steps'.sound others
          refine ⟨(steps.trans steps').trans steps'', fun serves at_ => ?_⟩
          have served := steps''.before serves
          obtain ⟨pc₃, head, tail⟩ := Placed.append.1 at_
          obtain ⟨pc₂, init, last⟩ := Placed.append.1 head
          obtain ⟨pc₁, before, fit⟩ := Placed.append.1 init
          obtain ⟨store, rest⟩ := Placed.cons_iff.1 last
          cases rest
          have new := fresh served.slots
          rw [grows.scopes] at new
          exact .init given (placedInit (steps'.before served) before) (fits_of_fit fitted)
            (fitAt_of_fit fitted fit) new typed store (placed serves tail)

/-! ## Statements -/

/-- What lowering a statement achieves. -/
structure StmtOk (cx : Surroundings) (inLoop : Bool) (d d' : Draft) (chunk : Chunk)
    (At : Site → Option Loop → Nat → Nat → Prop) : Prop where
  steps : Steps d d'
  closed : inLoop = false → chunk.Closed
  placed : ∀ {site : Site} {loop : Option Loop} {pc pc' : Nat}, site.Serves cx d' →
    pc ≤ site.code.size → ChunkAt site.code loop pc chunk pc' → At site loop pc pc'

abbrev StmtLowers (cx : Surroundings) (s : Stmt) : Prop :=
  ∀ {inLoop : Bool} {d d' : Draft} {chunk : Chunk}, Sound d →
    stmt cx inLoop s d = .ok (chunk, d') → StmtOk cx inLoop d d' chunk fun site loop pc pc' =>
      StmtAt site loop d.scopes pc s pc' d'.scopes

abbrev StmtsLower (cx : Surroundings) (ss : List Stmt) : Prop :=
  ∀ {inLoop : Bool} {d d' : Draft} {chunk : Chunk}, Sound d →
    stmts cx inLoop ss d = .ok (chunk, d') → StmtOk cx inLoop d d' chunk fun site loop pc pc' =>
      StmtsAt site loop d.scopes pc ss pc' d'.scopes

/-- A statement in a scope of its own. -/
theorem enclosed_lowers {s : Stmt} {inLoop : Bool} {chunk : Chunk} (body : StmtLowers cx s)
    (sound : Sound d) (h : enclosed (stmt cx inLoop s) d = .ok (chunk, d')) :
    d'.scopes = d.scopes ∧ StmtOk cx inLoop d d' chunk fun site loop pc pc' => ∃ inner,
      StmtAt site loop (∅ :: d.scopes) pc s pc' (inner :: d.scopes) := by
  obtain ⟨d₁, lowered, rfl⟩ := enclosed_eq_ok h
  obtain ⟨steps, closed, placed⟩ := body sound.enter lowered
  refine ⟨rfl, steps.leave sound, closed, fun serves start at_ => ?_⟩
  obtain ⟨inner, eq⟩ := steps.inner
  have at_ := placed { serves with } start at_
  rw [eq] at at_
  exact ⟨inner, at_⟩

theorem block_lowers {ss : List Stmt} (body : StmtsLower cx ss) : StmtLowers cx (.block ss) := by
  intro inLoop d d' chunk sound h
  rw [stmt] at h
  obtain ⟨d₁, lowered, rfl⟩ := enclosed_eq_ok h
  obtain ⟨steps, closed, placed⟩ := body sound.enter lowered
  refine ⟨steps.leave sound, closed, fun serves start at_ => ?_⟩
  obtain ⟨inner, eq⟩ := steps.inner
  have at_ := placed { serves with } start at_
  rw [eq] at at_
  exact .block at_

theorem exprStmt_lowers {e : Expr} (floats : e.Floats Signless) : StmtLowers cx (.expr e) := by
  intro inLoop d d' chunk sound h
  rw [stmt] at h
  simp only [bind_eq_ok, pure_eq_ok] at h
  obtain ⟨ops, _, lowered, rfl, rfl⟩ := h
  obtain ⟨grows, placed⟩ := effect_eq_ok floats sound.pool lowered
  refine ⟨.of_grows grows sound, fun _ => Chunk.closed_ofOps ops, fun serves start at_ => ?_⟩
  rw [grows.scopes]
  exact .expr (placed serves at_.ofOps)

theorem decl_lowers {p : Nat} {ty : Ty} {isConst : Bool} {vars : List Declarator}
    (floats : ∀ v ∈ vars, Expr.FloatsOption Signless v.init) :
    StmtLowers cx (.decl p ty isConst vars) := by
  intro inLoop d d' chunk sound h
  rw [stmt] at h
  simp only [check_eq_ok, bind_eq_ok, pure_eq_ok] at h
  obtain ⟨value, storable, ops, _, lowered, rfl, rfl⟩ := h
  obtain ⟨steps, placed⟩ := declarators_eq_ok value storable floats sound lowered
  exact ⟨steps, fun _ => Chunk.closed_ofOps ops, fun serves start at_ =>
    .decl value (placed serves at_.ofOps)⟩

theorem testAt {e : Expr} {ops : List Op} {stop : Nat} (cond : ExprOk cx d d' e ops .bool)
    (serves : site.Serves cx d') (h : BranchAt site.code pc ops stop pc') :
    TestAt site d.scopes pc e stop pc' := by
  obtain ⟨m, skip, code, branch, lands, rfl⟩ := h
  exact ⟨m, skip, cond.placed serves code, branch, lands, rfl⟩

theorem ifThen_lowers {c : Expr} {a : Stmt} (floats : c.Floats Signless) (yes : StmtLowers cx a) :
    StmtLowers cx (.ifThen c a) := by
  intro inLoop d d' chunk sound h
  rw [stmt] at h
  simp only [bind_eq_ok, pure_eq_ok] at h
  obtain ⟨ops, d₁, lowered, part, _, loweredA, rfl, rfl⟩ := h
  have cond := condition_eq_ok floats sound.pool lowered
  have first := Steps.of_grows cond.grows sound
  obtain ⟨scopes, steps, closed, placed⟩ := enclosed_lowers yes first.sound loweredA
  refine ⟨first.trans steps, fun out => (Chunk.closed_ofOps _).append (closed out).cons,
    fun serves start at_ => ?_⟩
  obtain ⟨m, test, yesAt⟩ := at_.ifThen serves.short
  obtain ⟨inner, yesAt⟩ := placed serves test.le_size yesAt
  rw [cond.grows.scopes] at scopes yesAt
  rw [scopes]
  exact .ifThen (testAt cond (steps.before serves) test) yesAt

theorem ifElse_lowers {c : Expr} {a b : Stmt} (floats : c.Floats Signless) (yes : StmtLowers cx a)
    (no : StmtLowers cx b) : StmtLowers cx (.ifElse c a b) := by
  intro inLoop d d' chunk sound h
  rw [stmt] at h
  simp only [bind_eq_ok, pure_eq_ok] at h
  obtain ⟨ops, d₁, lowered, partA, d₂, loweredA, partB, _, loweredB, rfl, rfl⟩ := h
  have cond := condition_eq_ok floats sound.pool lowered
  have first := Steps.of_grows cond.grows sound
  obtain ⟨scopesA, stepsA, closedA, placedA⟩ := enclosed_lowers yes first.sound loweredA
  obtain ⟨scopesB, stepsB, closedB, placedB⟩ := enclosed_lowers no stepsA.sound loweredB
  refine ⟨(first.trans stepsA).trans stepsB, fun out =>
    ((Chunk.closed_ofOps _).append (closedA out).cons).append (closedB out).cons,
    fun serves start at_ => ?_⟩
  have served := stepsB.before serves
  obtain ⟨m₁, m₂, test, yesAt, past, noAt⟩ := at_.ifElse serves.short
  obtain ⟨inner, yesAt⟩ := placedA served test.le_size yesAt
  obtain ⟨inner', noAt⟩ := placedB serves past.lt_size noAt
  rw [cond.grows.scopes] at scopesA yesAt
  rw [scopesA] at scopesB noAt
  rw [scopesB]
  exact .ifElse (testAt cond (stepsA.before served) test) yesAt past noAt

theorem whileLoop_lowers {c : Expr} {s : Stmt} (floats : c.Floats Signless)
    (body : StmtLowers cx s) : StmtLowers cx (.whileLoop c s) := by
  intro inLoop d d' chunk sound h
  rw [stmt] at h
  simp only [bind_eq_ok, pure_eq_ok] at h
  obtain ⟨ops, d₁, lowered, part, _, loweredS, rfl, rfl⟩ := h
  have cond := condition_eq_ok floats sound.pool lowered
  have first := Steps.of_grows cond.grows sound
  obtain ⟨scopes, steps, -, placed⟩ := enclosed_lowers body first.sound loweredS
  refine ⟨first.trans steps, fun _ => Chunk.closed_closeFrom _ _ _ _, fun serves start at_ => ?_⟩
  obtain ⟨m₁, m₂, m₃, test, bodyAt, step, back, rfl⟩ := at_.testFirst serves.short start
  obtain rfl := Placed.nil_iff.1 step
  obtain ⟨inner, bodyAt⟩ := placed serves test.le_size bodyAt
  rw [cond.grows.scopes] at scopes bodyAt
  rw [scopes]
  exact .whileLoop (testAt cond (steps.before serves) test) bodyAt back

theorem doWhile_lowers {c : Expr} {s : Stmt} (floats : c.Floats Signless)
    (body : StmtLowers cx s) : StmtLowers cx (.doWhile s c) := by
  intro inLoop d d' chunk sound h
  rw [stmt] at h
  simp only [bind_eq_ok, pure_eq_ok] at h
  obtain ⟨part, d₁, loweredS, ops, _, lowered, rfl, rfl⟩ := h
  obtain ⟨scopes, steps, -, placed⟩ := enclosed_lowers body sound loweredS
  have cond := condition_eq_ok floats steps.sound.pool lowered
  have last := Steps.of_grows cond.grows steps.sound
  refine ⟨steps.trans last, fun _ => Chunk.closed_closeFrom _ _ _ _, fun serves start at_ => ?_⟩
  obtain ⟨m₁, m₂, skip, bodyAt, condAt, branch, lands, rfl⟩ := at_.testLast serves.short start
  obtain ⟨inner, bodyAt⟩ := placed (last.before serves) start bodyAt
  have condAt := cond.placed serves condAt
  rw [scopes] at condAt
  rw [cond.grows.scopes, scopes]
  exact .doWhile bodyAt condAt branch lands

/-- A clause that may be left out. -/
theorem clause_eq_ok {α : Type} {f : Expr → Lower α} {e : Option Expr} {r : Option α}
    (h : clause f e d = .ok (r, d')) :
    (e = none ∧ r = none ∧ d = d') ∨ ∃ e' a, e = some e' ∧ r = some a ∧ f e' d = .ok (a, d') := by
  cases e with
  | none =>
      obtain ⟨rfl, rfl⟩ := pure_eq_ok.1 h
      exact .inl ⟨rfl, rfl, rfl⟩
  | some e =>
      unfold clause at h
      simp only [bind_eq_ok, pure_eq_ok] at h
      obtain ⟨a, _, lowered, rfl, rfl⟩ := h
      exact .inr ⟨e, a, rfl, rfl, lowered⟩

theorem clause_condition_eq_ok {c : Option Expr} {r : Option (List Op)}
    (floats : Expr.FloatsOption Signless c) (pool : Pool d.consts)
    (h : clause (condition cx) c d = .ok (r, d')) : Grows d d' ∧
      ∀ {site : Site} {pc pc' stop : Nat}, site.Serves cx d' →
        MayBranchAt site.code pc r stop pc' →
        ClauseAt (fun i e j => TestAt site d.scopes i e stop j) pc c pc' := by
  rcases clause_eq_ok h with ⟨rfl, rfl, rfl⟩ | ⟨e, ops, rfl, rfl, lowered⟩
  · exact ⟨.refl pool, fun _ at_ => at_⟩
  · have cond := condition_eq_ok floats pool lowered
    exact ⟨cond.grows, fun serves at_ => testAt cond serves at_⟩

theorem clause_effect_eq_ok {c : Option Expr} {r : Option (List Op)}
    (floats : Expr.FloatsOption Signless c) (pool : Pool d.consts)
    (h : clause (effect cx) c d = .ok (r, d')) :
    ClauseOk cx d d' (r.getD []) fun site pc => ClauseAt (EffectAt site d.scopes) pc c := by
  rcases clause_eq_ok h with ⟨rfl, rfl, rfl⟩ | ⟨e, ops, rfl, rfl, lowered⟩
  · exact ⟨.refl pool, fun _ at_ => Placed.nil_iff.1 at_⟩
  · exact effect_eq_ok floats pool lowered

theorem forLoop_lowers {i s : Stmt} {c n : Option Expr} (init : StmtLowers cx i)
    (floatsC : Expr.FloatsOption Signless c) (floatsN : Expr.FloatsOption Signless n)
    (body : StmtLowers cx s) : StmtLowers cx (.forLoop i c n s) := by
  intro inLoop d d' chunk sound h
  rw [stmt] at h
  obtain ⟨d₄, ran, rfl⟩ := enclosed_eq_ok h
  simp only [bind_eq_ok, pure_eq_ok] at ran
  obtain ⟨first, d₁, loweredI, cond, d₂, loweredC, part, d₃, loweredS, next, d₅, loweredN, rfl,
    rfl⟩ := ran
  obtain ⟨stepsI, closed, placedI⟩ := init sound.enter loweredI
  obtain ⟨growsC, placedC⟩ := clause_condition_eq_ok floatsC stepsI.sound.pool loweredC
  have stepsC := Steps.of_grows growsC stepsI.sound
  obtain ⟨scopes, stepsS, -, placedS⟩ := enclosed_lowers body stepsC.sound loweredS
  obtain ⟨growsN, placedN⟩ := clause_effect_eq_ok floatsN stepsS.sound.pool loweredN
  have stepsN := Steps.of_grows growsN stepsS.sound
  refine ⟨(((stepsI.trans stepsC).trans stepsS).trans stepsN).leave sound,
    fun out => (closed out).append (Chunk.closed_closeFrom _ _ _ _), fun serves start at_ => ?_⟩
  have servedN : Site.Serves _ cx d₅ := { serves with }
  have servedS := stepsN.before servedN
  have servedC := stepsS.before servedS
  obtain ⟨m₀, initAt, loop⟩ := ChunkAt.append.1 at_
  have inside := initAt.le_size start
  obtain ⟨m₁, m₂, m₃, test, bodyAt, step, back, rfl⟩ := loop.testFirst serves.short inside
  have initAt := placedI (stepsC.before servedC) start initAt
  have test := placedC servedC test
  obtain ⟨inner, bodyAt⟩ := placedS servedS (by
    have := back.lt_size
    rw [step.length, bodyAt.length] at this
    omega) bodyAt
  have step := placedN servedN step
  obtain ⟨scope, eq⟩ := stepsI.inner
  rw [scopes, growsC.scopes] at step
  rw [growsC.scopes] at bodyAt
  rw [eq] at initAt test bodyAt step
  exact .forLoop initAt test bodyAt step back

theorem breakLoop_lowers {p : Nat} : StmtLowers cx (.breakLoop p) := by
  intro inLoop d d' chunk sound h
  rw [stmt] at h
  simp only [check_eq_ok, pure_eq_ok] at h
  obtain ⟨inside, rfl, rfl⟩ := h
  refine ⟨.refl sound, fun out => absurd (by simp [out]) inside, fun _ _ at_ => ?_⟩
  obtain ⟨head, tail⟩ := Placed.cons_iff.1 at_
  cases tail
  cases head with
  | breakOut jump => exact .breakLoop jump

theorem continueLoop_lowers {p : Nat} : StmtLowers cx (.continueLoop p) := by
  intro inLoop d d' chunk sound h
  rw [stmt] at h
  simp only [check_eq_ok, pure_eq_ok] at h
  obtain ⟨inside, rfl, rfl⟩ := h
  refine ⟨.refl sound, fun out => absurd (by simp [out]) inside, fun _ _ at_ => ?_⟩
  obtain ⟨head, tail⟩ := Placed.cons_iff.1 at_
  cases tail
  cases head with
  | continueOn jump => exact .continueLoop jump

theorem retVoid_lowers {p : Nat} : StmtLowers cx (.ret p none) := by
  intro inLoop d d' chunk sound h
  rw [stmt, returned] at h
  simp only [bind_eq_ok, check_eq_ok, pure_eq_ok] at h
  obtain ⟨_, _, ⟨void, rfl, rfl⟩, rfl, rfl⟩ := h
  rw [Decidable.not_not] at void
  refine ⟨.refl sound, fun _ => Chunk.closed_ofOps _, fun serves _ at_ => ?_⟩
  obtain ⟨instr, rest⟩ := Placed.cons_iff.1 at_.ofOps
  cases rest
  exact .retVoid (serves.ret.trans void) instr

theorem ret_lowers {p : Nat} {e : Expr} (floats : e.Floats Signless) :
    StmtLowers cx (.ret p (some e)) := by
  intro inLoop d d' chunk sound h
  rw [stmt, returned] at h
  simp only [bind_eq_ok, check_eq_ok, liftM_eq_ok, pure_eq_ok] at h
  obtain ⟨_, _, ⟨value, ⟨code, t⟩, _, lowered, convert, _, ⟨fitted, rfl⟩, rfl, rfl⟩, rfl, rfl⟩ := h
  obtain ⟨grows, placed⟩ := expr_lowers cx e floats sound.pool lowered
  refine ⟨.of_grows grows sound, fun _ => Chunk.closed_ofOps _, fun serves _ at_ => ?_⟩
  obtain ⟨pc₂, rest, last⟩ := Placed.append.1 at_.ofOps
  obtain ⟨pc₁, before, fit⟩ := Placed.append.1 rest
  obtain ⟨instr, rest⟩ := Placed.cons_iff.1 last
  cases rest
  rw [← serves.ret] at value fitted
  rw [grows.scopes]
  exact .ret (placed serves before) value (fits_of_fit fitted) (fitAt_of_fit fitted fit) instr

theorem empty_lowers : StmtLowers cx .empty := by
  intro inLoop d d' chunk sound h
  rw [stmt] at h
  obtain ⟨rfl, rfl⟩ := pure_eq_ok.1 h
  refine ⟨.refl sound, fun _ => nofun, fun _ _ at_ => ?_⟩
  cases at_
  exact .empty

theorem nil_lower : StmtsLower cx [] := by
  intro inLoop d d' chunk sound h
  rw [stmts] at h
  obtain ⟨rfl, rfl⟩ := pure_eq_ok.1 h
  refine ⟨.refl sound, fun _ => nofun, fun _ _ at_ => ?_⟩
  cases at_
  exact .nil

theorem cons_lower {s : Stmt} {rest : List Stmt} (head : StmtLowers cx s)
    (tail : StmtsLower cx rest) : StmtsLower cx (s :: rest) := by
  intro inLoop d d' chunk sound h
  rw [stmts] at h
  simp only [bind_eq_ok, pure_eq_ok] at h
  obtain ⟨first, d₁, lowered, more, _, others, rfl, rfl⟩ := h
  obtain ⟨steps, closed, placed⟩ := head sound lowered
  obtain ⟨steps', closed', placed'⟩ := tail steps.sound others
  refine ⟨steps.trans steps', fun out => (closed out).append (closed' out),
    fun serves start at_ => ?_⟩
  obtain ⟨m, before, behind⟩ := ChunkAt.append.1 at_
  exact .cons (placed (steps'.before serves) start before)
    (placed' serves (before.le_size start) behind)

mutual

theorem stmt_lowers (cx : Surroundings) (s : Stmt) (floats : s.Floats Signless) :
    StmtLowers cx s :=
  match s, floats with
  | .empty, _ => empty_lowers
  | .expr _, floats => exprStmt_lowers floats
  | .block ss, floats => block_lowers (stmts_lower cx ss floats)
  | .decl .., floats => decl_lowers floats
  | .ifThen _ a, floats => ifThen_lowers floats.1 (stmt_lowers cx a floats.2)
  | .ifElse _ a b, floats =>
    ifElse_lowers floats.1 (stmt_lowers cx a floats.2.1) (stmt_lowers cx b floats.2.2)
  | .forLoop i _ _ s, floats =>
    forLoop_lowers (stmt_lowers cx i floats.1) floats.2.1 floats.2.2.1
      (stmt_lowers cx s floats.2.2.2)
  | .whileLoop _ s, floats => whileLoop_lowers floats.1 (stmt_lowers cx s floats.2)
  | .doWhile s _, floats => doWhile_lowers floats.1 (stmt_lowers cx s floats.2)
  | .breakLoop _, _ => breakLoop_lowers
  | .continueLoop _, _ => continueLoop_lowers
  | .ret _ none, _ => retVoid_lowers
  | .ret _ (some _), floats => ret_lowers floats

theorem stmts_lower (cx : Surroundings) (ss : List Stmt) (floats : Stmt.FloatsList Signless ss) :
    StmtsLower cx ss :=
  match ss, floats with
  | [], _ => nil_lower
  | s :: rest, floats => cons_lower (stmt_lowers cx s floats.1) (stmts_lower cx rest floats.2)

end

end PixelKernel.Language.Lower
