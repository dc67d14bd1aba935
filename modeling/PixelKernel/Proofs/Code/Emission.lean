import PixelKernel.Proofs.Code.Functions
import PixelKernel.Proofs.Machine.Hosts

/-! # Code that emits nothing

Only in a reduce kernel may a call emit a colour, so the code of every other function is
silent. What lowering ensures is told by rules that follow how its walks are put together.
-/

namespace PixelKernel.Language

/-- No instruction of the list emits. -/
def Silent (ops : List Op) : Prop := ∀ o ∈ ops, o.emits = false

@[simp] theorem silent_nil : Silent [] := nofun

@[simp] theorem silent_cons {o : Op} {ops : List Op} :
    Silent (o :: ops) ↔ o.emits = false ∧ Silent ops :=
  List.forall_mem_cons

@[simp] theorem silent_append {ops more : List Op} :
    Silent (ops ++ more) ↔ Silent ops ∧ Silent more :=
  List.forall_mem_append

namespace Lower

variable {α β : Type}

/-- What a walk yields, if it succeeds, has the property. -/
def Ensures (m : Lower α) (P : α → Prop) : Prop := ∀ d a d', m d = .ok (a, d') → P a

namespace Ensures

variable {m : Lower α} {k : α → Lower β} {P : α → Prop} {Q : β → Prop}

theorem any : Ensures m fun _ => True := fun _ _ _ _ => trivial

theorem pure {a : α} (h : P a) : Ensures (Pure.pure a) P := by
  intro d a' d' eq
  obtain ⟨rfl, -⟩ := pure_eq_ok.1 eq
  exact h

theorem complain {pos : Nat} {cause : Cause} : Ensures (Lower.complain pos cause) P :=
  fun _ _ _ eq => absurd eq complain_ne_ok

theorem bind (first : Ensures m P) (rest : ∀ a, P a → Ensures (k a) Q) : Ensures (m >>= k) Q := by
  intro d b d' eq
  obtain ⟨a, d₁, made, eq⟩ := bind_eq_ok.1 eq
  exact rest a (first d a d₁ made) d₁ b d' eq

/-- Where nothing need be known of the first part. -/
theorem after (rest : ∀ a, Ensures (k a) Q) : Ensures (m >>= k) Q := any.bind fun a _ => rest a

theorem check {c : Prop} [Decidable c] {pos : Nat} {cause : Cause} (h : Ensures m P) :
    Ensures (if c then (Lower.complain pos cause : Lower PUnit) >>= fun _ => m else m) P :=
  fun d a d' eq => h d a d' (check_eq_ok.1 eq).2

theorem liftCause {pos : Nat} {r : Except Cause α} (h : ∀ a, r = .ok a → P a) :
    Ensures (Lower.liftCause pos r) P :=
  fun _ a _ eq => h a (liftCause_eq_ok.1 eq).1

theorem lift {r : Except Complaint α} (h : ∀ a, r = .ok a → P a) :
    Ensures (liftM r : Lower α) P :=
  fun _ a _ eq => h a (liftM_eq_ok.1 eq).1

end Ensures

/-! ## Expressions -/

theorem constant_silent (v : Value) : Ensures (constant v) fun o => o.emits = false := by
  refine .after fun d => ?_
  split
  · exact .pure rfl
  · exact .after fun _ => .pure rfl

theorem fit_silent {what : String} {pos : Nat} {t w : Ty} {ops : List Op}
    (h : fit what pos t w = .ok ops) : Silent ops := by
  unfold fit at h
  split at h
  · cases h; exact silent_nil
  · split at h
    · cases h; simp [Op.emits]
    · cases h

theorem place_silent (p : Place) : Silent p.read ∧ p.write.emits = false := by
  obtain ⟨x, lanes⟩ := p
  cases lanes <;> simp [Place.read, Place.write, Op.emits]

theorem Fit.Sound.silent {f : Fit} (sound : f.Sound) {i pos : Nat} {t : Ty} {r : List Op × Ty}
    (h : f i pos t = .ok r) : Silent r.1 := by
  rcases sound i pos t r.1 r.2 h with ⟨none_, -⟩ | ⟨one, -⟩
  · rw [none_]
    exact silent_nil
  · rw [one]
    exact silent_cons.2 ⟨rfl, silent_nil⟩

/-- A call that is no emission, for one of the reasons that calls can have. -/
theorem callee_silent {cx : Surroundings} (outside : cx.kernel ≠ some .reduce) {pos argc : Nat}
    {name : String} {c : Callee} (h : callee cx pos name argc = .ok c) {types : List Ty}
    {r : Op × Ty} (finish : c.finish types = .ok r) : r.1.emits = false := by
  unfold callee at h
  split at h
  · cases h
  split at h
  · split at h
    · cases h
    · cases h; cases finish; rfl
  split at h
  next conversion =>
    split at h
    · cases h
    · cases h
      cases finish
      unfold conversion? at conversion
      split at conversion <;> cases conversion <;> rfl
  split at h
  · cases h
    dsimp only at finish
    unfold finishVector at finish
    dsimp only at finish
    split at finish
    · cases finish
    · cases finish; rfl
  split at h
  · cases h
  · cases h
    dsimp only at finish
    unfold finishBuiltin at finish
    split at finish
    · cases finish
    next b t resolved =>
      split at finish
      · cases finish
      next allowed =>
        cases finish
        cases b with
        | emit => exact absurd ⟨rfl, outside⟩ allowed
        | _ => rfl

theorem unaryResult_silent {op : UnaryOp} {t : Ty} {o : Op} (h : unaryResult op t = .ok o) :
    o.emits = false := by
  unfold unaryResult at h
  cases op with
  | neg | not => dsimp only at h; split at h <;> cases h; rfl

theorem operator?_silent {op : BinaryOp} {l r t : Ty} {o : Op}
    (h : operator? op l r = some (o, t)) : o.emits = false := by
  unfold operator? at h
  cases op with
  | arith op =>
      obtain ⟨_, -, ⟨⟩⟩ := Option.map_eq_some_iff.1 h
      rfl
  | order op =>
      dsimp only at h
      split at h
      all_goals
        obtain ⟨-, ⟨⟩⟩ := Option.ite_none_right_eq_some.1 h
        rfl
  | logic op => cases h

theorem promote_silent (l r : Ty) : Silent (promote l r).1 := by
  unfold promote
  split
  · simp [Op.emits]
  · split <;> simp [Op.emits]

variable {cx : Surroundings}

theorem binary_silent {pos : Nat} {op : BinaryOp} {a b : Expr}
    (left : Ensures (expr cx a) fun r => Silent r.1)
    (right : Ensures (expr cx b) fun r => Silent r.1) :
    Ensures (expr cx (.binary pos op a b)) fun r => Silent r.1 := by
  rw [expr]
  refine .bind left fun (codeA, l) silentA => ?_
  cases op with
  | logic op =>
      refine .check (.bind right fun (codeB, r) silentB => .check (.pure ?_))
      cases op <;> simp [Op.shortCircuit, Op.emits, silentA, silentB]
  | arith op | order op =>
      refine .bind right fun (codeB, r) silentB => ?_
      dsimp only
      split
      · exact .complain
      next o t typed =>
        refine .pure ?_
        simp [silentA, silentB, promote_silent, operator?_silent typed]

theorem joinBranches_silent {a b : List Op} {s t : Ty} {r : List Op × List Op × Ty}
    (silentA : Silent a) (silentB : Silent b) (h : joinBranches a b s t = .ok r) :
    Silent r.1 ∧ Silent r.2.1 := by
  obtain ⟨-, fitA, fitB, codeA, codeB, fittedA, fittedB⟩ := joinBranches_eq_ok h
  rw [codeA, codeB]
  exact ⟨silent_append.2 ⟨silentA, fit_silent fittedA⟩, silent_append.2 ⟨silentB, fit_silent fittedB⟩⟩

theorem ternary_silent {pos : Nat} {c a b : Expr} (cond : Ensures (expr cx c) fun r => Silent r.1)
    (yes : Ensures (expr cx a) fun r => Silent r.1)
    (no : Ensures (expr cx b) fun r => Silent r.1) :
    Ensures (expr cx (.ternary pos c a b)) fun r => Silent r.1 := by
  rw [expr]
  refine .bind cond fun (codeC, t) silentC => .check ?_
  refine .bind yes fun (codeA, s) silentA => .bind no fun (codeB, t) silentB => ?_
  refine .bind (.liftCause fun r joined => joinBranches_silent silentA silentB joined)
    fun (a, b, r) silent => .pure ?_
  simp only [Op.choose, silent_append, silent_cons]
  exact ⟨⟨silentC, rfl, silent.1⟩, rfl, silent.2⟩

theorem assign_silent {pos : Nat} {op : Option ArithOp} {target value : Expr}
    (h : Ensures (expr cx value) fun r => Silent r.1) :
    Ensures (expr cx (.assign pos op target value)) fun r => Silent r.1 := by
  rw [expr.eq_def]
  dsimp only
  refine .after fun d => .after fun p => ?_
  obtain ⟨read, write⟩ := place_silent p
  cases op with
  | none =>
      refine .bind h fun (code, t) silent => .bind (.lift fun ops => fit_silent) fun ops silent' => ?_
      refine .pure ?_
      simp only [silent_append, silent_cons]
      exact ⟨⟨silent, silent'⟩, rfl, write, silent_nil⟩
  | some op =>
      refine .bind h fun (code, t) silent => .check (.pure ?_)
      simp only [silent_append, silent_cons]
      refine ⟨⟨⟨read, silent⟩, ?_⟩, rfl, rfl, write, silent_nil⟩
      split
      · exact silent_cons.2 ⟨rfl, silent_nil⟩
      · exact silent_nil

mutual

theorem expr_silent {cx : Surroundings} (outside : cx.kernel ≠ some .reduce) (e : Expr) :
    Ensures (expr cx e) (fun r => Silent r.1) :=
  match e with
  | .lit pos n => by
    rw [expr]
    refine .after fun v => .bind (constant_silent v) fun o silent => .pure ?_
    simp [silent]
  | .var pos name => by
    rw [expr]
    refine .after fun d => ?_
    split
    · exact .complain
    · exact .pure (by simp [Op.emits])
  | .unary pos op e => by
    rw [expr]
    refine .bind (expr_silent outside e) fun (code, t) silent => ?_
    refine .bind (.liftCause fun o => unaryResult_silent) fun o silent' => .pure ?_
    simp [silent, silent']
  | .binary _ _ a b => binary_silent (expr_silent outside a) (expr_silent outside b)
  | .ternary _ c a b =>
    ternary_silent (expr_silent outside c) (expr_silent outside a) (expr_silent outside b)
  | .call pos name es => by
    rw [expr]
    refine .bind (.liftCause fun _ found => found) fun c found => ?_
    have fits := (callAt_of_callee found).1
    refine .bind (arguments_silent outside fits 0 es) fun (code, types) silent => ?_
    refine .bind (.liftCause fun r => callee_silent outside found) fun (o, t) silent' => .pure ?_
    simp [silent, silent']
  | .select pos base fields => by
    rw [expr]
    refine .bind (expr_silent outside base) fun (code, t) silent => .check (.after fun lanes => ?_)
    exact .pure (by simp [silent, Op.emits])
  | .assign _ _ _ value => assign_silent (expr_silent outside value)
  | .step pos target increment leading => by
    rw [expr]
    refine .after fun d => .after fun p => .check (.bind (constant_silent _) fun one silent => ?_)
    refine .pure ?_
    cases leading
    · exact silent_cons.2 ⟨rfl, silent_cons.2 ⟨rfl, silent_cons.2 ⟨silent, by simp [Op.emits]⟩⟩⟩
    · exact silent_cons.2 ⟨rfl, silent_cons.2 ⟨silent, by simp [Op.emits]⟩⟩

theorem arguments_silent {cx : Surroundings} (outside : cx.kernel ≠ some .reduce) {f : Fit}
    (fits : f.Sound) (i : Nat) (es : List Expr) :
    Ensures (arguments cx f i es) (fun r => Silent r.1) :=
  match es with
  | [] => by
    rw [arguments]
    exact .pure silent_nil
  | e :: rest => by
    rw [arguments]
    refine .bind (expr_silent outside e) fun (code, t) silent => ?_
    refine .bind (.lift fun r => fits.silent) fun (convert, w) silent' => ?_
    refine .bind (arguments_silent outside fits (i + 1) rest) fun (more, types) silent'' => ?_
    exact .pure (by simp [silent, silent', silent''])

end

/-! ## Statements -/

/-- No instruction of the chunk emits. -/
def SilentChunk (c : Chunk) : Prop := ∀ o, Step.op o ∈ c → o.emits = false

section

variable {c more : Chunk} {o : Op} {ops : List Op}

theorem silentChunk_append : SilentChunk (c ++ more) ↔ SilentChunk c ∧ SilentChunk more := by
  simp only [SilentChunk, List.mem_append, or_imp, forall_and]

theorem silentChunk_cons : SilentChunk (.op o :: c) ↔ o.emits = false ∧ SilentChunk c := by
  simp [SilentChunk, or_imp, forall_and]

theorem silentChunk_ofOps (h : Silent ops) : SilentChunk (.ofOps ops) := by
  intro o mem
  obtain ⟨o', there, ⟨⟩⟩ := List.mem_map.1 mem
  exact h o there

theorem silentChunk_closeFrom {site again stop : Nat} (h : SilentChunk c) :
    SilentChunk (c.closeFrom site again stop) := by
  induction c generalizing site with
  | nil => exact nofun
  | cons step c ih =>
      have rest := @ih (site + 1) fun o mem => h o (List.mem_cons_of_mem _ mem)
      cases step with
      | op o => exact silentChunk_cons.2 ⟨h o List.mem_cons_self, rest⟩
      | breakOut | continueOn => exact silentChunk_cons.2 ⟨rfl, rest⟩

theorem silent_ops (h : SilentChunk c) : Silent c.ops := by
  intro o mem
  obtain ⟨step, there, eq⟩ := List.mem_filterMap.1 mem
  cases step with
  | op o' => cases eq; exact h o there
  | breakOut | continueOn => cases eq

theorem silent_getD {clause : Option (List Op)} (h : ∀ ops ∈ clause, Silent ops) :
    Silent (clause.getD []) := by
  cases clause with
  | none => exact silent_nil
  | some ops => exact h ops rfl

theorem silentChunk_testFirst {cond next : Option (List Op)} {body : Chunk}
    (test : ∀ ops ∈ cond, Silent ops) (h : SilentChunk body) (step : ∀ ops ∈ next, Silent ops) :
    SilentChunk (.testFirst cond body next) := by
  refine silentChunk_closeFrom ?_
  simp only [silentChunk_append]
  refine ⟨⟨⟨?_, h⟩, silentChunk_ofOps (silent_getD step)⟩, silentChunk_cons.2 ⟨rfl, nofun⟩⟩
  cases cond with
  | none => exact nofun
  | some ops =>
      exact silentChunk_append.2 ⟨silentChunk_ofOps (test ops rfl), silentChunk_cons.2 ⟨rfl, nofun⟩⟩

theorem silentChunk_testLast {body : Chunk} (h : SilentChunk body) (cond : Silent ops) :
    SilentChunk (.testLast body ops) := by
  refine silentChunk_closeFrom ?_
  simp only [silentChunk_append]
  exact ⟨⟨h, silentChunk_ofOps cond⟩, silentChunk_cons.2 ⟨rfl, nofun⟩⟩

end

section

variable (outside : cx.kernel ≠ some .reduce)
include outside

theorem condition_silent (e : Expr) : Ensures (condition cx e) Silent :=
  .bind (expr_silent outside e) fun (_, _) silent => .check (.pure silent)

theorem effect_silent (e : Expr) : Ensures (effect cx e) Silent := by
  refine .bind (expr_silent outside e) fun (code, t) silent => .pure ?_
  split
  · exact silent
  · exact silent_append.2 ⟨silent, silent_cons.2 ⟨rfl, silent_nil⟩⟩

theorem declarator_silent (ty : Ty) (isConst : Bool) (v : Declarator) :
    Ensures (declarator cx ty isConst v) Silent := by
  unfold declarator
  cases v.init with
  | none =>
      refine .check (.bind (constant_silent _) fun o silent => ?_)
      refine .bind (P := Silent) (.pure (silent_cons.2 ⟨silent, silent_nil⟩)) fun ops silent => ?_
      exact .after fun slot => .pure (silent_append.2 ⟨silent, silent_cons.2 ⟨rfl, silent_nil⟩⟩)
  | some e =>
      refine .bind (expr_silent outside e) fun (code, t) silent => ?_
      refine .bind (.lift fun ops => fit_silent) fun ops silent' => ?_
      refine .bind (P := Silent) (.pure (silent_append.2 ⟨silent, silent'⟩)) fun ops silent => ?_
      exact .after fun slot => .pure (silent_append.2 ⟨silent, silent_cons.2 ⟨rfl, silent_nil⟩⟩)

theorem declarators_silent (ty : Ty) (isConst : Bool) (vs : List Declarator) :
    Ensures (declarators cx ty isConst vs) Silent := by
  induction vs with
  | nil => exact .pure silent_nil
  | cons v vs ih =>
      refine .bind (declarator_silent outside ty isConst v) fun ops silent => ?_
      exact .bind ih fun more silent' => .pure (silent_append.2 ⟨silent, silent'⟩)

theorem returned_silent (pos : Nat) (value : Option Expr) :
    Ensures (returned cx pos value) Silent := by
  cases value with
  | none => exact .check (.pure (silent_cons.2 ⟨rfl, silent_nil⟩))
  | some e =>
      refine .check (.bind (expr_silent outside e) fun (code, t) silent => ?_)
      refine .bind (.lift fun ops => fit_silent) fun ops silent' => .pure ?_
      simp only [silent_append, silent_cons]
      exact ⟨⟨silent, silent'⟩, rfl, silent_nil⟩

end

theorem enclosed_silent {m : Lower Chunk} (h : Ensures m SilentChunk) :
    Ensures (enclosed m) SilentChunk :=
  .after fun _ => .after fun _ => .bind h fun _ silent => .after fun _ => .pure silent

theorem clause_silent {f : Expr → Lower (List Op)} (h : ∀ e, Ensures (f e) Silent)
    (e : Option Expr) : Ensures (clause f e) fun r => ∀ ops ∈ r, Silent ops := by
  cases e with
  | none => exact .pure nofun
  | some e => exact .bind (h e) fun ops silent => .pure fun _ mem => by cases mem; exact silent

mutual

theorem stmt_silent {cx : Surroundings} (outside : cx.kernel ≠ some .reduce) (inLoop : Bool) (s : Stmt) : Ensures (stmt cx inLoop s) SilentChunk :=
  match s with
  | .empty => .pure nofun
  | .expr e => .bind (effect_silent outside e) fun _ silent => .pure (silentChunk_ofOps silent)
  | .block body => enclosed_silent (stmts_silent outside inLoop body)
  | .decl pos ty isConst vars =>
    .check (.check (.bind (declarators_silent outside ty isConst vars) fun _ silent =>
      .pure (silentChunk_ofOps silent)))
  | .ifThen c yes => by
    refine .bind (condition_silent outside c) fun ops silent => ?_
    refine .bind (enclosed_silent (stmt_silent outside inLoop yes)) fun body silent' => .pure ?_
    exact silentChunk_append.2 ⟨silentChunk_ofOps silent, silentChunk_cons.2 ⟨rfl, silent'⟩⟩
  | .ifElse c yes no => by
    refine .bind (condition_silent outside c) fun ops silent => ?_
    refine .bind (enclosed_silent (stmt_silent outside inLoop yes)) fun body silent' => ?_
    refine .bind (enclosed_silent (stmt_silent outside inLoop no)) fun other silent'' => .pure ?_
    simp only [Chunk.ifElse, silentChunk_append, silentChunk_cons]
    exact ⟨⟨silentChunk_ofOps silent, rfl, silent'⟩, rfl, silent''⟩
  | .forLoop init c next body => by
    refine enclosed_silent (.bind (stmt_silent outside inLoop init) fun first silent => ?_)
    refine .bind (clause_silent (condition_silent outside) c) fun test silentC => ?_
    refine .bind (enclosed_silent (stmt_silent outside true body)) fun inner silentB => ?_
    refine .bind (clause_silent (effect_silent outside) next) fun step silentN => .pure ?_
    refine silentChunk_append.2 ⟨silent, silentChunk_testFirst silentC silentB ?_⟩
    exact fun _ mem => by cases mem; exact silent_getD silentN
  | .whileLoop c body => by
    refine .bind (condition_silent outside c) fun ops silent => ?_
    refine .bind (enclosed_silent (stmt_silent outside true body)) fun inner silent' => .pure ?_
    exact silentChunk_testFirst (fun _ mem => by cases mem; exact silent) silent' nofun
  | .doWhile body c => by
    refine .bind (enclosed_silent (stmt_silent outside true body)) fun inner silent => ?_
    exact .bind (condition_silent outside c) fun ops silent' =>
      .pure (silentChunk_testLast silent silent')
  | .breakLoop _ | .continueLoop _ => .check (.pure (by simp [SilentChunk]))
  | .ret pos value =>
    .bind (returned_silent outside pos value) fun _ silent => .pure (silentChunk_ofOps silent)

theorem stmts_silent {cx : Surroundings} (outside : cx.kernel ≠ some .reduce) (inLoop : Bool) (ss : List Stmt) :
    Ensures (stmts cx inLoop ss) SilentChunk :=
  match ss with
  | [] => .pure nofun
  | s :: rest =>
    .bind (stmt_silent outside inLoop s) fun _ silent => .bind (stmts_silent outside inLoop rest) fun _ silent' =>
      .pure (silentChunk_append.2 ⟨silent, silent'⟩)

end

/-! ## Functions -/

theorem function_silent {lib : Library} {consts consts' : Array Value} {f : FunctionDef}
    {g : Function} (outside : f.kernel ≠ some .reduce)
    (h : function lib consts f = .ok (g, consts')) : g.Silent := by
  obtain ⟨-, d, chunk, d', -, body, -, rfl⟩ := function_ran h
  have silent : Silent (chunk.ops ++ [if f.ret = .void then .retVoid else .missingReturn]) := by
    refine silent_append.2 ⟨silent_ops (stmts_silent outside false f.body d chunk d' body), ?_⟩
    split <;> exact silent_cons.2 ⟨rfl, silent_nil⟩
  exact fun o mem => silent o (List.mem_toArray.1 mem)

theorem functionsFrom_silent {lib lib' : Library} {consts consts' : Array Value}
    {fs : List FunctionDef} (outside : ∀ f ∈ fs, f.kernel ≠ some .reduce)
    (before : ∀ g ∈ lib.functions, g.Silent)
    (h : functionsFrom lib consts fs = .ok (lib', consts')) : ∀ g ∈ lib'.functions, g.Silent := by
  induction fs generalizing lib consts with
  | nil => cases h; exact before
  | cons f rest ih =>
      rw [List.forall_mem_cons] at outside
      unfold functionsFrom at h
      cases made : function lib consts f with
      | error => rw [made] at h; cases h
      | ok r =>
          rw [made] at h
          refine ih outside.2 (fun g mem => ?_) h
          rcases Array.mem_push.1 mem with old | rfl
          · exact before g old
          · exact function_silent outside.1 made

end Lower

/-- A program other than a reduction emits nothing. -/
theorem silent_of_compile {source : String} {p : Program} (h : compile source = .ok p)
    (normal : p.target = .normal) : ∀ g ∈ p.functions, g.Silent := by
  obtain ⟨module, -, lowered⟩ := lowerModule_of_compile h
  obtain ⟨k, target, lib, consts, tagged, made, rfl⟩ := lowerModule_eq_ok lowered
  refine Lower.functionsFrom_silent (fun f mem reduce => ?_) (by simp [Library.empty]) made
  have tags : (f, Target.reduce) ∈ module.filterMap fun f => f.kernel.map (f, ·) :=
    List.mem_filterMap.2 ⟨f, mem, by rw [reduce]; rfl⟩
  rw [Lower.theKernel_eq_ok tagged, List.mem_singleton] at tags
  cases tags
  cases normal

end PixelKernel.Language
