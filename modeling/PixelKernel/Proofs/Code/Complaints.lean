import PixelKernel.Proofs.Code.Functions
import PixelKernel.Proofs.Syntax.Marks
import PixelKernel.Proofs.Syntax.Rejection

/-! # Where complaints point

A text is rejected by the lexer, by the parser or by the walk over its tree. The lexer points at
what it cannot read. The parser points at tokens, and the positions that it puts into a tree are
those of tokens, so the walk points at tokens as well. Line and column say the same as the offset.
-/

namespace PixelKernel.Language

variable {P : Nat → Prop}

/-! ## Walks -/

namespace Lower

variable {α β : Type}

/-- Wherever the walk fails it complains at a mark. -/
def Blames (P : Nat → Prop) (m : Lower α) : Prop := ∀ d c, m d = .error c → P c.pos

namespace Blames

variable {m : Lower α} {k : α → Lower β} {pos : Nat}

theorem pure {a : α} : Blames P (Pure.pure a) := by
  rintro d c ⟨⟩

theorem complain {cause : Cause} (here : P pos) :
    Blames P (Lower.complain pos cause : Lower α) := by
  rintro d c ⟨⟩
  exact here

/-- What comes next may depend on a result that some state leads to. -/
theorem bindOf (first : Blames P m) (rest : ∀ a d d', m d = .ok (a, d') → Blames P (k a)) :
    Blames P (m >>= k) := by
  intro d c failed
  change (m d >>= fun r => k r.1 r.2) = _ at failed
  cases ran : m d with
  | error c' =>
      rw [ran] at failed
      cases failed
      exact first d _ ran
  | ok r =>
      rw [ran] at failed
      exact rest r.1 d r.2 ran r.2 c failed

theorem bind (first : Blames P m) (rest : ∀ a, Blames P (k a)) : Blames P (m >>= k) :=
  first.bindOf fun a _ _ _ => rest a

theorem read {k : Draft → Lower β} (rest : ∀ d, Blames P (k d)) : Blames P (get >>= k) :=
  bind (by rintro d c ⟨⟩) rest

theorem change {f : Draft → Draft} {k : PUnit → Lower β} (rest : ∀ u, Blames P (k u)) :
    Blames P (modify f >>= k) :=
  bind (by rintro d c ⟨⟩) rest

theorem check {c : Prop} [Decidable c] {cause : Cause} (here : P pos) (rest : Blames P m) :
    Blames P (if c then (Lower.complain pos cause : Lower PUnit) >>= fun _ => m else m) := by
  split
  · exact (complain here).bind fun _ => rest
  · exact rest

theorem liftCause {r : Except Cause α} (here : P pos) : Blames P (Lower.liftCause pos r) := by
  cases r with
  | error cause => exact complain here
  | ok a => exact pure

theorem lift {r : Except Complaint α} (h : ∀ c, r = .error c → P c.pos) :
    Blames P (liftM r : Lower α) := by
  cases r with
  | error c =>
      rintro d c' ⟨⟩
      exact h c rfl
  | ok a => rintro d c ⟨⟩

theorem enclosed (h : Blames P m) : Blames P (Lower.enclosed m) :=
  read fun _ => change fun _ => h.bind fun _ => change fun _ => pure

theorem clause {f : Expr → Lower α} {e : Option Expr} (h : ∀ e' ∈ e, Blames P (f e')) :
    Blames P (Lower.clause f e) := by
  cases e with
  | none => exact pure
  | some e => exact (h e rfl).bind fun _ => pure

theorem constant (v : Value) : Blames P (Lower.constant v) := by
  refine read fun d => ?_
  split
  · exact pure
  · exact bind (by rintro d c ⟨⟩) fun _ => pure

theorem declare {name : String} {ty : Ty} {isConst : Bool} (here : P pos) :
    Blames P (Lower.declare pos name ty isConst) :=
  read fun _ => check here (check here (bind (by rintro d c ⟨⟩) fun _ => pure))

/-! ### Expressions -/

theorem fit {what : String} {found wanted : Ty} {c : Complaint} (here : P pos)
    (failed : Lower.fit what pos found wanted = .error c) : P c.pos := by
  unfold Lower.fit at failed
  split at failed
  · cases failed
  · split at failed
    · cases failed
    · cases failed
      exact here

/-- A call complains at itself or at an argument. -/
theorem callee {cx : Surroundings} {name : String} {argc : Nat} {f : Callee} (here : P pos)
    (found : Lower.callee cx pos name argc = .ok f) {i at_ : Nat} {t : Ty} {c : Complaint}
    (there : P at_) (failed : f.fit i at_ t = .error c) : P c.pos := by
  unfold Lower.callee at found
  repeat' split at found
  all_goals cases found
  · simp only [fitParams, Bind.bind, Except.bind] at failed
    split at failed
    · next wrong =>
      cases failed
      exact fit there wrong
    · cases failed
  · dsimp only [fitConversion] at failed
    split at failed
    · cases failed
    · cases failed
    · cases failed
    · cases failed
      exact here
  · dsimp only [fitParts] at failed
    split at failed
    · cases failed
    · cases failed
    · split at failed
      · cases failed
      · cases failed
        exact there
  · cases failed

mutual

theorem expr {cx : Surroundings} {e : Expr} (h : e.Marked P) : Blames P (Lower.expr cx e) := by
  cases h with
  | lit here =>
      rw [Lower.expr]
      exact (liftCause here).bind fun _ => (constant _).bind fun _ => pure
  | var here =>
      rw [Lower.expr]
      refine read fun d => ?_
      split
      · exact complain here
      · exact pure
  | unary here operand =>
      rw [Lower.expr]
      exact (expr operand).bind fun _ => (liftCause here).bind fun _ => pure
  | @binary _ op _ _ here left right =>
      rw [Lower.expr]
      refine (expr left).bind fun _ => ?_
      cases op with
      | logic op => exact check left.pos ((expr right).bind fun _ => check right.pos pure)
      | arith op | order op =>
          refine (expr right).bind fun _ => ?_
          dsimp only
          split
          · exact complain here
          · exact pure
  | ternary here cond yes no =>
      rw [Lower.expr]
      exact (expr cond).bind fun _ => check cond.pos ((expr yes).bind fun _ =>
        (expr no).bind fun _ => (liftCause here).bind fun _ => pure)
  | @call _ _ args here args_ =>
      rw [Lower.expr]
      refine (liftCause here).bindOf fun f _ _ found => ?_
      have found := (liftCause_eq_ok.1 found).1
      exact (arguments (fun i pos t c there failed => callee here found there failed) 0 args_).bind
        fun _ => (liftCause here).bind fun _ => pure
  | select here base =>
      rw [Lower.expr]
      exact (expr base).bind fun _ => check here ((liftCause here).bind fun _ => pure)
  | @assign _ op _ _ here target value =>
      rw [Lower.expr.eq_def]
      refine read fun d => (liftCause target.pos).bind fun p => ?_
      cases op with
      | none =>
          exact (expr value).bind fun _ => (lift fun c failed => fit value.pos failed).bind
            fun _ => pure
      | some op => exact (expr value).bind fun _ => check here pure
  | step here target =>
      rw [Lower.expr]
      exact read fun d => (liftCause target.pos).bind fun p => check here
        ((constant _).bind fun _ => pure)
termination_by sizeOf e

theorem arguments {cx : Surroundings} {f : Fit} {es : List Expr}
    (fits : ∀ i pos t c, P pos → f i pos t = .error c → P c.pos) (i : Nat)
    (h : ∀ e ∈ es, e.Marked P) : Blames P (Lower.arguments cx f i es) := by
  cases es with
  | nil => rw [Lower.arguments]; exact pure
  | cons e es =>
      rw [Lower.arguments]
      obtain ⟨first, later⟩ := List.forall_mem_cons.1 h
      exact (expr first).bind fun _ => (lift fun c failed => fits _ _ _ _ first.pos failed).bind
        fun _ => (arguments fits (i + 1) later).bind fun _ => pure
termination_by sizeOf es

end

/-! ### Statements -/

variable {cx : Surroundings} {inLoop : Bool}

theorem condition {e : Expr} (h : e.Marked P) : Blames P (Lower.condition cx e) :=
  (expr h).bind fun _ => check h.pos pure

theorem effect {e : Expr} (h : e.Marked P) : Blames P (Lower.effect cx e) :=
  (expr h).bind fun _ => pure

theorem declarator {ty : Ty} {isConst : Bool} {v : Declarator} (h : v.Marked P) :
    Blames P (Lower.declarator cx ty isConst v) := by
  unfold Lower.declarator
  split
  · next e given =>
    have e_ := h.init e given
    exact (expr e_).bind fun _ => (lift fun c failed => fit e_.pos failed).bind fun _ =>
      pure.bind fun _ => (declare h.here).bind fun _ => pure
  · exact check h.here ((constant _).bind fun _ => pure.bind fun _ =>
      (declare h.here).bind fun _ => pure)

theorem declarators {ty : Ty} {isConst : Bool} {vars : List Declarator}
    (h : ∀ v ∈ vars, v.Marked P) : Blames P (Lower.declarators cx ty isConst vars) := by
  induction vars with
  | nil => exact pure
  | cons v vars ih =>
      obtain ⟨first, later⟩ := List.forall_mem_cons.1 h
      exact (declarator first).bind fun _ => (ih later).bind fun _ => pure

theorem returned {pos : Nat} {value : Option Expr} (here : P pos) (h : ∀ e ∈ value, e.Marked P) :
    Blames P (Lower.returned cx pos value) := by
  cases value with
  | none => exact check here pure
  | some e =>
      have e_ := h e rfl
      exact check here ((expr e_).bind fun _ => (lift fun c failed => fit e_.pos failed).bind
        fun _ => pure)

mutual

theorem stmt {inLoop : Bool} {s : Stmt} (h : s.Marked P) : Blames P (Lower.stmt cx inLoop s) := by
  cases h with
  | empty => rw [Lower.stmt]; exact pure
  | expr e => rw [Lower.stmt]; exact (effect e).bind fun _ => pure
  | block body => rw [Lower.stmt]; exact (stmts body).enclosed
  | decl here vars =>
      rw [Lower.stmt]
      exact check here (check here ((declarators vars).bind fun _ => pure))
  | ifThen cond yes =>
      rw [Lower.stmt]
      exact (condition cond).bind fun _ => (stmt yes).enclosed.bind fun _ => pure
  | ifElse cond yes no =>
      rw [Lower.stmt]
      exact (condition cond).bind fun _ => (stmt yes).enclosed.bind fun _ =>
        (stmt no).enclosed.bind fun _ => pure
  | forLoop init cond step body =>
      rw [Lower.stmt]
      exact enclosed ((stmt init).bind fun _ =>
        (clause fun e there => condition (cond e there)).bind fun _ =>
          (stmt body).enclosed.bind fun _ =>
            (clause fun e there => effect (step e there)).bind fun _ => pure)
  | whileLoop cond body =>
      rw [Lower.stmt]
      exact (condition cond).bind fun _ => (stmt body).enclosed.bind fun _ => pure
  | doWhile body cond =>
      rw [Lower.stmt]
      exact (stmt body).enclosed.bind fun _ => (condition cond).bind fun _ => pure
  | breakLoop here => rw [Lower.stmt]; exact check here pure
  | continueLoop here => rw [Lower.stmt]; exact check here pure
  | ret here value => rw [Lower.stmt]; exact (returned here value).bind fun _ => pure
termination_by sizeOf s

theorem stmts {inLoop : Bool} {body : List Stmt} (h : ∀ s ∈ body, s.Marked P) :
    Blames P (Lower.stmts cx inLoop body) := by
  cases body with
  | nil => rw [Lower.stmts]; exact pure
  | cons s body =>
      rw [Lower.stmts]
      obtain ⟨first, later⟩ := List.forall_mem_cons.1 h
      exact (stmt first).bind fun _ => (stmts later).bind fun _ => pure
termination_by sizeOf body

end

/-! ### Functions -/

theorem parameters {isKernel : Bool} {params : List Param} (h : ∀ p ∈ params, P p.pos) :
    Blames P (Lower.parameters isKernel params) := by
  induction params with
  | nil => exact pure
  | cons p params ih =>
      obtain ⟨here, later⟩ := List.forall_mem_cons.1 h
      exact check here (check here ((declare here).bind fun _ => ih later))

end Blames

theorem function_blames {lib : Library} {consts : Array Value} {f : FunctionDef} {c : Complaint}
    (h : f.Marked P) (failed : function lib consts f = .error c) : P c.pos := by
  unfold function at failed
  cases head : checkHead lib f with
  | error cause =>
      rw [head] at failed
      cases failed
      exact h.here
  | ok =>
      simp only [head, bind, Except.bind, pure, Except.pure] at failed
      split at failed
      · next wrong =>
        cases failed
        exact ((Blames.parameters h.params).bind fun _ => .stmts h.body) _ _ wrong
      · split at failed <;> cases failed

theorem functionsFrom_blames {lib : Library} {consts : Array Value} {module : List FunctionDef}
    {c : Complaint} (h : ∀ f ∈ module, f.Marked P)
    (failed : functionsFrom lib consts module = .error c) : P c.pos := by
  induction module generalizing lib consts with
  | nil => cases failed
  | cons f module ih =>
      obtain ⟨here, later⟩ := List.forall_mem_cons.1 h
      simp only [functionsFrom, bind, Except.bind] at failed
      split at failed
      · next wrong =>
        cases failed
        exact function_blames here wrong
      · exact ih later failed

end Lower

/-- A module that is not lowered has no kernel, or the complaint is at a mark. -/
theorem lowerModule_blames {module : List FunctionDef} {c : Complaint}
    (h : ∀ f ∈ module, f.Marked P) (failed : lowerModule module = .error c) :
    P c.pos ∨ c = ⟨0, .noKernel⟩ ∧ ∀ f ∈ module, f.kernel = none := by
  unfold lowerModule at failed
  simp only [bind, Except.bind] at failed
  split at failed
  next c' wrong =>
    cases failed
    unfold theKernel at wrong
    split at wrong
    next none_ =>
      cases wrong
      refine .inr ⟨rfl, fun f there => ?_⟩
      exact Option.map_eq_none_iff.1 (List.filterMap_eq_nil_iff.1 none_ f there)
    · cases wrong
    next first _ second _ _ two =>
      cases wrong
      obtain ⟨f, there, same⟩ := List.mem_filterMap.1
        (two ▸ List.mem_cons_of_mem _ List.mem_cons_self :
          (second, _) ∈ module.filterMap fun f => f.kernel.map (f, ·))
      obtain ⟨_, -, ⟨⟩⟩ := Option.map_eq_some_iff.1 same
      exact .inl (h _ there).here
  next =>
    split at failed
    next wrong =>
      cases failed
      exact .inl (Lower.functionsFrom_blames h wrong)
    next => cases failed

end PixelKernel.Language
