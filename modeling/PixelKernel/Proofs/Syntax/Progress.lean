import PixelKernel.Proofs.Syntax.Marks
import PixelKernel.Proofs.Syntax.Walking

/-! # The parser makes progress

A routine calls others with fewer tokens ahead, or with as many if they read tighter phrases, so no
more calls are nested than these two allow together. What a routine reads has a token at least, and
each level that has been entered for it has been left.
-/

namespace PixelKernel.Language

open PixelKernel.Language.Parser (maxNesting)

/-! ## Functions with any room

A function is read with all the room there is. A routine reads it with the room that its cursor has.
-/

namespace Parser

def functionWithin (room : Nat) : Parser FunctionDef := do
  let pos ← here
  let kernel ← kernelTag
  let ret ← typeName
  let name ← word "a function name"
  expect .lparen "'('"
  let params ← params
  expect .lbrace "'\x7b' to open the function body"
  let body ← blockRest (statement room) (← remaining)
  return ⟨name, ret, params, body, kernel, pos⟩

def functionsWithin (room : Nat) : List Token → Parser (List FunctionDef)
  | [] => return []
  | _ :: bound => do
    if (← peek) = .stop then return []
    let f ← functionWithin room
    return f :: (← functionsWithin room bound)

/-- The last branch of a conditional, on a level of its own. -/
def nestedConditional : (room : Nat) → Parser Expr
  | 0 => outOfRoom "expression"
  | room + 1 => conditional room

theorem functionWithin_maxNesting : functionWithin maxNesting = functionDef := rfl

theorem functionsWithin_maxNesting (bound : List Token) :
    functionsWithin maxNesting bound = functions bound := by
  induction bound with
  | nil => rfl
  | cons t bound ih =>
      unfold functionsWithin functions
      rw [ih, functionWithin_maxNesting]

end Parser

/-! ## Routines and parsers -/

namespace Routine

open Walk

variable {α β : Type}

/-- The parser that does the work of a routine, with room for so many levels. Lists have one item
    for each token of `bound` at most. -/
def parser (room : Nat) (bound : List Token) : {α : Type} → Routine α → Parser α
  | _, expression => Parser.expression room
  | _, assignment => Parser.expression (room + 1)
  | _, conditional => Parser.conditional room
  | _, operation level => Parser.operation level.succ room
  | _, chain level left => Parser.chain level left room
  | _, unary => Parser.unary room
  | _, suffixed => do Parser.postfixRest room (← Parser.primary room)
  | _, suffixes base => Parser.postfixRest room base
  | _, primary => Parser.primary room
  | _, arguments => Parser.commaList (Parser.expression room) "',' or ')' in argument list" bound
  | _, statement => Parser.statement room
  | _, clause => Parser.statement (room + 1)
  | _, block => Parser.blockRest (Parser.statement room) bound
  | _, declaration => Parser.declaration room
  | _, declarators => Parser.commaChain (Parser.declarator room) bound
  | _, function => Parser.functionWithin room
  | _, parameters => Parser.commaList Parser.param "',' or ')'" bound
  | _, functions => Parser.functionsWithin room bound

/-- What a routine has done when it has come to a result: a token has been taken, and each level
    has been left. Where a loop goes on there may be nothing to take, and the levels that a chain
    enters are left behind the chain. -/
def Achieves : {α : Type} → Routine α → Cursor → Cursor → Prop
  | _, chain .. | _, suffixes _ => Cursor.Reaches
  | _, functions => Cursor.Continues
  | _, _ => Cursor.Passes

/-- A routine calls those of lower ranks before it has taken a token. -/
def rank : {α : Type} → Routine α → Nat
  | _, suffixed => 1
  | _, unary => 2
  | _, operation level => level.val + 3
  | _, conditional => 9
  | _, assignment => 10
  | _, expression => 11
  | _, arguments => 12
  | _, clause => 12
  | _, statement => 13
  | _, block => 14
  | _, functions => 1
  | _, _ => 0

/-- Calls nested in a run of the routine are fewer than these. -/
def cost (r : Routine α) (s : Cursor) : Nat := 15 * s.left + r.rank

theorem rank_lt (r : Routine α) : r.rank < 15 := by
  cases r with
  | operation level =>
      have := level.isLt
      change level.val + 3 < 15
      omega
  | _ => simp [rank]

/-- With fewer tokens ahead every routine costs less. -/
theorem cost_lt_of_left_lt {s s' : Cursor} (fewer : s'.left < s.left) (r : Routine α)
    (r' : Routine β) : r'.cost s' < r.cost s := by
  have rank := r'.rank_lt
  unfold cost
  omega

theorem cost_lt_of_rank_lt {s : Cursor} {r : Routine α} {r' : Routine β}
    (tighter : r'.rank < r.rank) : r'.cost s < r.cost s := Nat.add_lt_add_left tighter _

/-! ## Calls -/

/-- Calls of routines that cost less than `n` do what the parsers do, and achieve what they are
    for. -/
def Reliable (call : ∀ {β : Type}, Routine β → Walk β) (n : Nat) : Prop :=
  ∀ {β : Type} (r : Routine β) (s : Cursor) (bound : List Token), s.Valid →
    s.left ≤ bound.length → r.cost s < n →
      Retraces s (fun _ => r.Achieves s) (r.parser s.room bound) (call r)

section

variable {call : ∀ {β : Type}, Routine β → Walk β} {s s₁ : Cursor} {r : Routine α} {n room : Nat}

theorem room_deeper (free : s.room = room + 1) : s.deeper.room = room := by
  unfold Cursor.room at free
  change maxNesting - (s.nesting + 1) = room
  omega

theorem left_eq : s.left = s.ahead.length := (List.length_drop ..).symm

namespace Reliable

/-- A part that has a token at least. -/
theorem part (h : Reliable call n) (r' : Routine β) (valid : s.Valid) (less : r'.cost s < n)
    (whole : r'.Achieves = Cursor.Passes) :
    Retraces s (fun _ => s.Passes) (r'.parser s.room s.ahead) (call r') := by
  rw [← whole]
  exact h r' s s.ahead valid (Nat.le_of_eq left_eq) less

/-- Before a token is taken, routines of lower ranks may be called. -/
theorem first (h : Reliable call (r.cost s)) (r' : Routine β) (valid : s.Valid)
    (tighter : r'.rank < r.rank) (whole : r'.Achieves = Cursor.Passes) :
    Retraces s (fun _ => s.Passes) (r'.parser s.room s.ahead) (call r') :=
  h.part r' valid (cost_lt_of_rank_lt tighter) whole

/-- After a token is taken, every routine may be called. -/
theorem later (h : Reliable call (r.cost s)) (r' : Routine β) (valid : s₁.Valid)
    (passed : s.Passes s₁) (whole : r'.Achieves = Cursor.Passes) :
    Retraces s₁ (fun _ => s₁.Passes) (r'.parser s.room s₁.ahead) (call r') := by
  rw [← passed.room]
  exact h.part r' valid (cost_lt_of_left_lt passed.left_lt r r') whole

/-- A further pass of a loop. -/
theorem further (h : Reliable call (r.cost s)) (r' : Routine β) (valid : s₁.Valid)
    {bound : List Token} (enough : s₁.left ≤ bound.length) (fewer : s₁.left < s.left)
    (same : s₁.room = room) :
    Retraces s₁ (fun _ => r'.Achieves s₁) (r'.parser room bound) (call r') := by
  rw [← same]
  exact h r' s₁ bound valid enough (cost_lt_of_left_lt fewer r r')

/-- A loop behind what has been read; the levels that it has entered are left after it. -/
theorem looped (h : Reliable call (r.cost s)) (r' : Routine β) (valid : s₁.Valid)
    (passed : s.Passes s₁) :
    Retraces s₁ (fun _ => s.Passes) (r'.parser s.room s₁.ahead) (do
      let mark ← levels
      let b ← call r'
      restore mark
      return b) := by
  have more := h.further r' valid (Nat.le_of_eq left_eq) passed.left_lt passed.room
  exact (Retraces.restored valid more).mono fun _ _ _ continued => passed.continues continued

/-- A routine on a level of its own, which is entered if there is room for it. -/
theorem nested (h : Reliable call n) (r' : Routine β) {what : String} {p : Nat → Parser β}
    (full : p 0 = Parser.outOfRoom what) (free : ∀ room, p (room + 1) = r'.parser room s.ahead)
    (valid : s.Valid) (less : r'.cost s < n) (whole : r'.Achieves = Cursor.Passes) :
    Retraces s (fun _ => s.Passes) (p s.room) (Walk.nested what (call r')) := by
  cases room : s.room with
  | zero =>
      rw [full]
      exact .nested_full valid room
  | succ n =>
      rw [free, ← room_deeper room]
      exact .nested valid (by omega) fun deeper => h.part r' deeper less whole

theorem nested_later (h : Reliable call (r.cost s)) (r' : Routine β) {what : String}
    {p : Nat → Parser β} (full : p 0 = Parser.outOfRoom what)
    (free : ∀ room, p (room + 1) = r'.parser room s₁.ahead) (valid : s₁.Valid)
    (passed : s.Passes s₁) (whole : r'.Achieves = Cursor.Passes) :
    Retraces s₁ (fun _ => s₁.Passes) (p s.room) (Walk.nested what (call r')) := by
  rw [← passed.room]
  exact h.nested r' full free valid (cost_lt_of_left_lt passed.left_lt r r') whole

end Reliable

/-! ## Expressions -/

theorem retraces_expression (valid : s.Valid) (h : Reliable call (expression.cost s)) :
    Retraces s (fun _ => s.Passes) (Parser.expression s.room) (expression.body call) :=
  h.nested assignment (by rw [Parser.expression]) (fun _ => rfl) valid
    (cost_lt_of_rank_lt (by decide)) rfl

theorem retraces_assignment (valid : s.Valid) (h : Reliable call (assignment.cost s)) :
    Retraces s (fun _ => s.Passes) (Parser.expression (s.room + 1)) (assignment.body call) := by
  rw [Parser.expression]
  refine (h.first conditional valid (by decide) rfl).bind fun target s₁ valid₁ passed₁ =>
    .peek valid₁ fun k next => ?_
  cases assigned : assignOp? k with
  | none => exact .pure valid₁ passed₁
  | some op =>
      have token : k ≠ .stop := by rintro rfl; cases assigned
      refine .here valid₁ fun pos => (Retraces.advance valid₁ next token).onward passed₁
        fun _ s₂ valid₂ passed₂ => ?_
      exact (h.later expression valid₂ passed₂ rfl).onward passed₂ fun value s₃ valid₃ passed₃ =>
        .pure valid₃ passed₃

theorem retraces_conditional (valid : s.Valid) (h : Reliable call (conditional.cost s)) :
    Retraces s (fun _ => s.Passes) (Parser.conditional s.room) (conditional.body call) := by
  rw [Parser.conditional]
  refine (h.first (operation 5) valid (by decide) rfl).bind
    fun cond s₁ valid₁ passed₁ => .peek valid₁ fun k next => ?_
  split
  · exact .pure valid₁ passed₁
  next question =>
  refine .here valid₁ fun pos =>
    (Retraces.symbol valid₁ (next.trans (Decidable.not_not.1 question))).onward passed₁
      fun _ s₂ valid₂ passed₂ => ?_
  refine (h.later expression valid₂ passed₂ rfl).onward passed₂ fun yes s₃ valid₃ passed₃ =>
    (Retraces.expect valid₃).onward passed₃ fun _ s₄ valid₄ passed₄ => ?_
  have last : Retraces s₄ (fun _ => s₄.Passes) (Parser.nestedConditional s.room)
      (nested "expression" (call conditional)) :=
    h.nested_later conditional rfl (fun _ => rfl) valid₄ passed₄ rfl
  have rest : Retraces s₄ (fun _ => s.Passes)
      (do return Expr.ternary pos cond yes (← Parser.nestedConditional s.room))
      (do return Expr.ternary pos cond yes (← nested "expression" (call conditional))) :=
    last.onward passed₄ fun no s₅ valid₅ passed₅ => .pure valid₅ passed₅
  generalize s.room = room at rest
  cases room <;> exact rest

theorem parser_operand (level : Fin 6) (room : Nat) (bound : List Token) :
    (operand level).parser room bound = Parser.operation level.castSucc room := by
  obtain ⟨level, less⟩ := level
  cases level with
  | zero =>
      change Parser.unary room = Parser.operation ⟨0, _⟩ room
      rw [Parser.operation]
  | succ level => rfl

theorem rank_operand (level : Fin 6) : (operand level).rank < (operation level).rank := by
  obtain ⟨level, less⟩ := level
  cases level with
  | zero => exact Nat.lt_succ_self 2
  | succ level => exact Nat.lt_succ_self (level + 3)

theorem achieves_operand (level : Fin 6) : (operand level).Achieves = Cursor.Passes := by
  obtain ⟨level, less⟩ := level
  cases level <;> rfl

theorem retraces_operation (level : Fin 6) (valid : s.Valid)
    (h : Reliable call ((operation level).cost s)) :
    Retraces s (fun _ => s.Passes) (Parser.operation level.succ s.room)
      ((operation level).body call) := by
  have first :=
    h.first (operand level) valid (rank_operand level) (achieves_operand level)
  rw [parser_operand] at first
  have both : Parser.operation level.succ s.room =
      Parser.operation level.castSucc s.room >>= fun e => Parser.chain level e s.room := by
    obtain ⟨level, less⟩ := level
    change Parser.operation ⟨level + 1, _⟩ s.room = _
    rw [Parser.operation]
    rfl
  rw [both]
  exact first.bind fun e s₁ valid₁ passed₁ => h.looped (chain level e) valid₁ passed₁

theorem retraces_chain (level : Fin 6) (left : Expr) (valid : s.Valid)
    (h : Reliable call ((chain level left).cost s)) :
    Retraces s (fun _ => s.Reaches) (Parser.chain level left s.room)
      ((chain level left).body call) := by
  rw [Parser.chain]
  refine Retraces.reached (?_ : Retraces s (fun _ _ => True) _ _)
  refine .peek valid fun k next => ?_
  cases operator : BinaryOp.ofSymbol? (level.val + 1) k with
  | none => exact .pure valid trivial
  | some op =>
      have token : k ≠ .stop := by
        rintro rfl
        rw [Parser.Marking.ofSymbol?_stop] at operator
        cases operator
      refine .here valid fun pos => (Retraces.advance valid next token).bind
        fun _ s₁ valid₁ passed₁ => ?_
      have right := h.later (operand level) valid₁ passed₁ (achieves_operand level)
      rw [parser_operand] at right
      refine right.onward passed₁ fun right s₂ valid₂ passed₂ => ?_
      cases free : s.room with
      | zero => exact .nest_full valid₂ (passed₂.room.trans free)
      | succ room =>
          dsimp only
          have free₂ : s₂.room = room + 1 := passed₂.room.trans free
          exact .nest valid₂ (by omega) fun deeper =>
            (h.further (chain level (.binary pos op left right)) deeper (Nat.le_of_eq left_eq)
              passed₂.left_lt (room_deeper free₂)).mono fun _ _ _ _ => trivial

theorem retraces_unary (valid : s.Valid) (h : Reliable call (unary.cost s)) :
    Retraces s (fun _ => s.Passes) (Parser.unary s.room) (unary.body call) := by
  have nested {s₁ : Cursor} (valid₁ : s₁.Valid) (passed₁ : s.Passes s₁) :
      Retraces s₁ (fun _ => s₁.Passes) (Parser.nestedUnary s.room)
        (nested "expression" (call unary)) :=
    h.nested_later unary (by rw [Parser.nestedUnary]) (fun _ => by rw [Parser.nestedUnary]; rfl)
      valid₁ passed₁ rfl
  have plain : Retraces s (fun _ => s.Passes)
      (do Parser.postfixRest s.room (← Parser.primary s.room)) (call suffixed) :=
    h.first suffixed valid (by decide) rfl
  rw [Parser.unary]
  refine .here valid fun pos => .peek valid fun k next => ?_
  cases k with
  | sym x =>
      cases x with
      | minus | bang | plusPlus | minusMinus =>
          exact (Retraces.symbol valid next).bind fun _ s₁ valid₁ passed₁ =>
            (nested valid₁ passed₁).onward passed₁ fun e s₂ valid₂ passed₂ =>
              .pure valid₂ passed₂
      | plus =>
          exact (Retraces.symbol valid next).bind fun _ s₁ valid₁ passed₁ =>
            (nested valid₁ passed₁).mono fun _ s₂ _ passed₂ => passed₁.trans passed₂
      | _ => exact plain
  | _ => exact plain

theorem retraces_suffixed (valid : s.Valid) (h : Reliable call (suffixed.cost s)) :
    Retraces s (fun _ => s.Passes) (do Parser.postfixRest s.room (← Parser.primary s.room))
      (suffixed.body call) :=
  (h.first primary valid (by decide) rfl).bind fun e _ valid₁ passed₁ =>
    h.looped (suffixes e) valid₁ passed₁

/-- A level is entered before what it is needed for is taken. -/
theorem retraces_suffixes (base : Expr) (valid : s.Valid)
    (h : Reliable call ((suffixes base).cost s)) :
    Retraces s (fun _ => s.Reaches) (Parser.postfixRest s.room base)
      ((suffixes base).body call) := by
  refine Retraces.reached (?_ : Retraces s (fun _ _ => True) _ _)
  have more {s₁ : Cursor} {room : Nat} (e : Expr) (valid₁ : s₁.Valid) (free : s.room = room + 1)
      (passed : s.deeper.Passes s₁) :
      Retraces s₁ (fun _ _ => True) (Parser.postfixRest room e) (call (suffixes e)) :=
    (h.further (suffixes e) valid₁ (Nat.le_of_eq left_eq) passed.left_lt
      (passed.room.trans (room_deeper free))).mono fun _ _ _ _ => trivial
  cases free : s.room with
  | zero =>
      rw [Parser.postfixRest]
      refine .offset valid fun pos => .peek valid fun k next => ?_
      cases k with
      | sym x =>
          cases x with
          | dot | plusPlus | minusMinus => exact .nest_full valid free
          | _ => exact .pure valid trivial
      | _ => exact .pure valid trivial
  | succ room =>
      rw [Parser.postfixRest]
      refine .here valid fun pos => .peek valid fun k next => ?_
      cases k with
      | sym x =>
          cases x with
          | dot =>
              exact .nest valid (by omega) fun deeper =>
                (Retraces.symbol deeper next).bind fun _ s₁ valid₁ passed₁ =>
                  (Retraces.word valid₁).onward passed₁ fun fields s₂ valid₂ passed₂ =>
                    more (.select pos base fields) valid₂ free passed₂
          | plusPlus =>
              exact .nest valid (by omega) fun deeper =>
                (Retraces.symbol deeper next).bind fun _ s₁ valid₁ passed₁ =>
                  more (.step pos base true false) valid₁ free passed₁
          | minusMinus =>
              exact .nest valid (by omega) fun deeper =>
                (Retraces.symbol deeper next).bind fun _ s₁ valid₁ passed₁ =>
                  more (.step pos base false false) valid₁ free passed₁
          | _ => exact .pure valid trivial
      | _ => exact .pure valid trivial

theorem retraces_primary (valid : s.Valid) (h : Reliable call (primary.cost s)) :
    Retraces s (fun _ => s.Passes) (Parser.primary s.room) (primary.body call) := by
  rw [Parser.primary]
  refine .here valid fun pos => .peek valid fun k next => ?_
  cases k with
  | int | float =>
      exact (Retraces.advance valid next (by simp)).bind fun _ s₁ valid₁ passed₁ =>
        .pure valid₁ passed₁
  | word name =>
      refine (Retraces.advance valid next (by simp)).bind fun _ s₁ valid₁ passed₁ =>
        .consume_or valid₁ (fun s₂ valid₂ passed₂ => ?_) (.pure valid₁ passed₁)
      have passed₂ := passed₁.trans passed₂
      refine .consume_or valid₂ (fun s₃ valid₃ passed₃ => ?_) ?_
      · exact .pure valid₃ (passed₂.trans passed₃)
      · exact .remaining ((h.later arguments valid₂ passed₂ rfl).onward passed₂
          fun args s₃ valid₃ passed₃ => .pure valid₃ passed₃)
  | sym x =>
      cases x with
      | trueWord | falseWord =>
          exact (Retraces.symbol valid next).bind fun _ s₁ valid₁ passed₁ =>
            .pure valid₁ passed₁
      | lparen =>
          exact (Retraces.symbol valid next).bind fun _ s₁ valid₁ passed₁ =>
            (h.later expression valid₁ passed₁ rfl).onward passed₁ fun e s₂ valid₂ passed₂ =>
              (Retraces.expect valid₂).onward passed₂ fun _ s₃ valid₃ passed₃ =>
                .pure valid₃ passed₃
      | _ => exact .unexpected valid
  | _ => exact .unexpected valid

/-! ## Lists -/

/-- A list has room for one item, and for what is behind it when that has been read. -/
theorem exists_bound (valid : s.Valid) {bound : List Token} (enough : s.left ≤ bound.length) :
    ∃ t more, bound = t :: more ∧ ∀ {s₁ : Cursor}, s.Passes s₁ → s₁.left ≤ more.length := by
  cases bound with
  | nil => exact absurd valid.left_pos (Nat.not_lt.2 enough)
  | cons t more =>
      refine ⟨t, more, rfl, fun passed => ?_⟩
      exact Nat.le_of_lt_succ (Nat.lt_of_lt_of_le passed.left_lt enough)

section

variable {item : Parser α} {w : Walk α} {again : Walk (List α)} {bound : List Token}

/-- One pass over an item and the comma behind it; without a comma the list is closed. -/
theorem retraces_item {rest : Parser (List α)} {close : α → Parser (List α)}
    {close' : α → Walk (List α)} (first : Retraces s (fun _ => s.Passes) item w)
    (more : ∀ {s₁}, s₁.Valid → s.Passes s₁ → Retraces s₁ (fun _ => s₁.Passes) rest again)
    (closed : ∀ {s₁} a, s₁.Valid → s.Passes s₁ →
      Retraces s₁ (fun _ => s.Passes) (close a) (close' a)) :
    Retraces s (fun _ => s.Passes)
      (do let a ← item; if ← Parser.accept .comma then return a :: (← rest) else close a)
      (do let a ← w; if ← consume .comma then return a :: (← again) else close' a) := by
  refine first.bind fun a s₁ valid₁ passed₁ =>
    .consume_or valid₁ (fun s₂ valid₂ passed₂ => ?_) (closed a valid₁ passed₁)
  have passed₂ := passed₁.trans passed₂
  exact (more valid₂ passed₂).onward passed₂ fun as s₃ valid₃ passed₃ => .pure valid₃ passed₃

theorem retraces_commaList {what : String} (valid : s.Valid) (enough : s.left ≤ bound.length)
    (first : Retraces s (fun _ => s.Passes) item w)
    (more : ∀ {s₁ bound}, s₁.Valid → s.Passes s₁ → s₁.left ≤ bound.length →
      Retraces s₁ (fun _ => s₁.Passes) (Parser.commaList item what bound) again) :
    Retraces s (fun _ => s.Passes) (Parser.commaList item what bound) (do
      let a ← w
      if ← consume .comma then return a :: (← again)
      expect .rparen what
      return [a]) := by
  obtain ⟨t, bound, rfl, fits⟩ := exists_bound valid enough
  exact retraces_item first (fun valid₁ passed₁ => more valid₁ passed₁ (fits passed₁))
    fun a valid₁ passed₁ => (Retraces.expect valid₁).onward passed₁
      fun _ s₂ valid₂ passed₂ => .pure valid₂ passed₂

theorem retraces_commaChain (valid : s.Valid) (enough : s.left ≤ bound.length)
    (first : Retraces s (fun _ => s.Passes) item w)
    (more : ∀ {s₁ bound}, s₁.Valid → s.Passes s₁ → s₁.left ≤ bound.length →
      Retraces s₁ (fun _ => s₁.Passes) (Parser.commaChain item bound) again) :
    Retraces s (fun _ => s.Passes) (Parser.commaChain item bound) (do
      let a ← w
      if ← consume .comma then return a :: (← again)
      return [a]) := by
  obtain ⟨t, bound, rfl, fits⟩ := exists_bound valid enough
  exact retraces_item first (fun valid₁ passed₁ => more valid₁ passed₁ (fits passed₁))
    fun a valid₁ passed₁ => .pure valid₁ passed₁

end

theorem retraces_arguments {bound : List Token} (valid : s.Valid) (enough : s.left ≤ bound.length)
    (h : Reliable call (arguments.cost s)) :
    Retraces s (fun _ => s.Passes)
      (Parser.commaList (Parser.expression s.room) "',' or ')' in argument list" bound)
      (arguments.body call) :=
  retraces_commaList valid enough (h.first expression valid (by decide) rfl)
    fun valid₁ passed₁ enough₁ =>
      h.further arguments valid₁ enough₁ passed₁.left_lt passed₁.room

/-! ## Statements -/

section

/-! Parts of statements, where as much may be called as for an expression. -/

variable (h : Reliable call n) (valid : s.Valid) (less : expression.cost s < n)

include h valid less

theorem retraces_expressionStmt : Retraces s (fun _ => s.Passes) (Parser.expressionStmt s.room)
    (body.expressionStmt call) :=
  (h.part expression valid less rfl).bind fun _ _ valid₁ passed₁ =>
    (Retraces.expect valid₁).onward passed₁ fun _ _ valid₂ passed₂ => .pure valid₂ passed₂

theorem retraces_declarationOr : Retraces s (fun _ => s.Passes)
    (do if ← Parser.atDeclaration then Parser.declaration s.room else Parser.expressionStmt s.room)
    (body.declarationOr call) := by
  refine .atDeclaration valid fun declares => ?_
  cases declares with
  | true =>
      have tighter : declaration.cost s < expression.cost s := cost_lt_of_rank_lt (by decide)
      exact h.part declaration valid (Nat.lt_trans tighter less) rfl
  | false => exact retraces_expressionStmt h valid less

theorem retraces_forInit :
    Retraces s (fun _ => s.Passes) (Parser.forInit s.room) (body.forInit call) :=
  .consume_or valid (fun _ valid₁ passed₁ => .pure valid₁ passed₁)
    (retraces_declarationOr h valid less)

theorem retraces_unlessNext (x : Symbol) :
    Retraces s (fun _ => s.Continues) (Parser.unlessNext x s.room) (body.unlessNext call x) := by
  refine .peek valid fun k next => ?_
  split
  · exact .pure valid valid.refl
  · exact (h.part expression valid less rfl).bind fun e s₁ valid₁ passed₁ =>
      .pure valid₁ passed₁.toContinues

end

theorem retraces_statement (valid : s.Valid) (h : Reliable call (statement.cost s)) :
    Retraces s (fun _ => s.Passes) (Parser.statement s.room) (statement.body call) :=
  h.nested clause (by rw [Parser.statement]) (fun _ => rfl) valid
    (cost_lt_of_rank_lt (by decide)) rfl

theorem retraces_clause (valid : s.Valid) (h : Reliable call (clause.cost s)) :
    Retraces s (fun _ => s.Passes) (Parser.statement (s.room + 1)) (clause.body call) := by
  have simple := retraces_declarationOr h valid (Nat.lt_succ_self _)
  have value {s₁ : Cursor} (x : Symbol) (valid₁ : s₁.Valid) (passed₁ : s.Passes s₁) :
      Retraces s₁ (fun _ => s₁.Continues) (Parser.unlessNext x s.room)
        (body.unlessNext call x) := by
    rw [← passed₁.room]
    exact retraces_unlessNext h valid₁ (cost_lt_of_left_lt passed₁.left_lt clause expression) x
  have opening {s₁ : Cursor} (valid₁ : s₁.Valid) (passed₁ : s.Passes s₁) :
      Retraces s₁ (fun _ => s₁.Passes) (Parser.forInit s.room) (body.forInit call) := by
    rw [← passed₁.room]
    exact retraces_forInit h valid₁ (cost_lt_of_left_lt passed₁.left_lt clause expression)
  rw [Parser.statement]
  refine .here valid fun pos => .peek valid fun k next => ?_
  cases k with
  | sym x =>
      cases x with
      | lbrace =>
          exact (Retraces.symbol valid next).bind fun _ s₁ valid₁ passed₁ =>
            .remaining ((h.later block valid₁ passed₁ rfl).onward passed₁
              fun body s₂ valid₂ passed₂ => .pure valid₂ passed₂)
      | semi =>
          exact (Retraces.symbol valid next).bind fun _ s₁ valid₁ passed₁ =>
            .pure valid₁ passed₁
      | ifWord =>
          refine (Retraces.symbol valid next).bind fun _ s₁ valid₁ passed₁ =>
            (Retraces.expect valid₁).onward passed₁ fun _ s₂ valid₂ passed₂ =>
            (h.later expression valid₂ passed₂ rfl).onward passed₂ fun cond s₃ valid₃ passed₃ =>
            (Retraces.expect valid₃).onward passed₃ fun _ s₄ valid₄ passed₄ =>
            (h.later statement valid₄ passed₄ rfl).onward passed₄ fun yes s₅ valid₅ passed₅ =>
            .consume_or valid₅ (fun s₆ valid₆ passed₆ => ?_) (.pure valid₅ passed₅)
          have passed₆ := passed₅.trans passed₆
          exact (h.later statement valid₆ passed₆ rfl).onward passed₆
            fun no s₇ valid₇ passed₇ => .pure valid₇ passed₇
      | forWord =>
          refine (Retraces.symbol valid next).bind fun _ s₁ valid₁ passed₁ =>
            (Retraces.expect valid₁).onward passed₁ fun _ s₂ valid₂ passed₂ =>
            (opening valid₂ passed₂).onward passed₂ fun init s₃ valid₃ passed₃ =>
            (value .semi valid₃ passed₃).bind fun cond s₄ valid₄ continued₄ => ?_
          refine (Retraces.expect valid₄).onward (passed₃.continues continued₄)
            fun _ s₅ valid₅ passed₅ =>
            (value .rparen valid₅ passed₅).bind fun step s₆ valid₆ continued₆ => ?_
          exact (Retraces.expect valid₆).onward (passed₅.continues continued₆)
            fun _ s₇ valid₇ passed₇ =>
            (h.later statement valid₇ passed₇ rfl).onward passed₇
              fun body s₈ valid₈ passed₈ => .pure valid₈ passed₈
      | whileWord =>
          exact (Retraces.symbol valid next).bind fun _ s₁ valid₁ passed₁ =>
            (Retraces.expect valid₁).onward passed₁ fun _ s₂ valid₂ passed₂ =>
            (h.later expression valid₂ passed₂ rfl).onward passed₂ fun cond s₃ valid₃ passed₃ =>
            (Retraces.expect valid₃).onward passed₃ fun _ s₄ valid₄ passed₄ =>
            (h.later statement valid₄ passed₄ rfl).onward passed₄
              fun body s₅ valid₅ passed₅ => .pure valid₅ passed₅
      | doWord =>
          exact (Retraces.symbol valid next).bind fun _ s₁ valid₁ passed₁ =>
            (h.later statement valid₁ passed₁ rfl).onward passed₁ fun body s₂ valid₂ passed₂ =>
            (Retraces.expect valid₂).onward passed₂ fun _ s₃ valid₃ passed₃ =>
            (Retraces.expect valid₃).onward passed₃ fun _ s₄ valid₄ passed₄ =>
            (h.later expression valid₄ passed₄ rfl).onward passed₄ fun cond s₅ valid₅ passed₅ =>
            (Retraces.expect valid₅).onward passed₅ fun _ s₆ valid₆ passed₆ =>
            (Retraces.expect valid₆).onward passed₆ fun _ s₇ valid₇ passed₇ => .pure valid₇ passed₇
      | breakWord | continueWord =>
          exact (Retraces.symbol valid next).bind fun _ s₁ valid₁ passed₁ =>
            (Retraces.expect valid₁).onward passed₁ fun _ s₂ valid₂ passed₂ => .pure valid₂ passed₂
      | returnWord =>
          refine (Retraces.symbol valid next).bind fun _ s₁ valid₁ passed₁ =>
            (value .semi valid₁ passed₁).bind fun e s₂ valid₂ continued₂ => ?_
          exact (Retraces.expect valid₂).onward (passed₁.continues continued₂)
            fun _ s₃ valid₃ passed₃ => .pure valid₃ passed₃
      | _ => exact simple
  | _ => exact simple

theorem retraces_block {bound : List Token} (valid : s.Valid) (enough : s.left ≤ bound.length)
    (h : Reliable call (block.cost s)) :
    Retraces s (fun _ => s.Passes) (Parser.blockRest (Parser.statement s.room) bound)
      (block.body call) := by
  obtain ⟨t, bound, rfl, fits⟩ := exists_bound valid enough
  refine .consume_or valid (fun s₁ valid₁ passed₁ => .pure valid₁ passed₁) ?_
  refine .peek valid fun k next => ?_
  by_cases ended : k = .stop
  · rw [if_pos ended, if_pos ended]
    have stops : Retraces s (fun _ _ => False) (Parser.unexpected "'\x7d'")
        (Walk.unexpected (α := Unit) "'\x7d'") := .unexpected valid
    exact stops.bind fun _ _ _ no => no.elim
  · rw [if_neg ended, if_neg ended]
    refine (h.first statement valid (by decide) rfl).bind fun first s₁ valid₁ passed₁ => ?_
    exact Retraces.onward (h.further block valid₁ (fits passed₁) passed₁.left_lt passed₁.room)
      passed₁ fun more s₂ valid₂ passed₂ => .pure valid₂ passed₂

theorem retraces_declarator (valid : s.Valid) (h : Reliable call (declarators.cost s)) :
    Retraces s (fun _ => s.Passes) (Parser.declarator s.room) (body.declarator call) := by
  refine .here valid fun pos => (Retraces.word valid).bind fun name s₁ valid₁ passed₁ =>
    .consume_or valid₁ (fun s₂ valid₂ passed₂ => ?_) (.pure valid₁ passed₁)
  have passed₂ := passed₁.trans passed₂
  exact (h.later conditional valid₂ passed₂ rfl).onward passed₂
    fun value s₃ valid₃ passed₃ => .pure valid₃ passed₃

theorem retraces_declarators {bound : List Token} (valid : s.Valid)
    (enough : s.left ≤ bound.length) (h : Reliable call (declarators.cost s)) :
    Retraces s (fun _ => s.Passes) (Parser.commaChain (Parser.declarator s.room) bound)
      (declarators.body call) :=
  retraces_commaChain valid enough (retraces_declarator valid h) fun valid₁ passed₁ enough₁ =>
    h.further declarators valid₁ enough₁ passed₁.left_lt passed₁.room

theorem retraces_declaration (valid : s.Valid) (h : Reliable call (declaration.cost s)) :
    Retraces s (fun _ => s.Passes) (Parser.declaration s.room) (declaration.body call) := by
  refine .here valid fun pos =>
    (Retraces.consume valid).bind fun isConst s₁ valid₁ continued₁ =>
    (Retraces.typeName valid₁).bind fun ty s₂ valid₂ passed₂ => ?_
  have passed₂ := continued₁.passes passed₂
  exact .remaining ((h.later declarators valid₂ passed₂ rfl).onward passed₂
    fun vars s₃ valid₃ passed₃ => (Retraces.expect valid₃).onward passed₃
      fun _ s₄ valid₄ passed₄ => .pure valid₄ passed₄)

/-! ## Functions -/

theorem retraces_param (valid : s.Valid) :
    Retraces s (fun _ => s.Passes) Parser.param body.param := by
  refine (Retraces.consume valid).bind fun isStatic s₁ valid₁ continued₁ =>
    (Retraces.consume valid₁).bind fun _ s₂ valid₂ continued₂ =>
    (Retraces.typeName valid₂).bind fun ty s₃ valid₃ passed₃ => ?_
  have passed₃ := (continued₁.trans continued₂).passes passed₃
  exact .here valid₃ fun pos => (Retraces.word valid₃).onward passed₃
    fun name s₄ valid₄ passed₄ => .pure valid₄ passed₄

theorem retraces_parameters {bound : List Token} (valid : s.Valid) (enough : s.left ≤ bound.length)
    (h : Reliable call (parameters.cost s)) :
    Retraces s (fun _ => s.Passes) (Parser.commaList Parser.param "',' or ')'" bound)
      (parameters.body call) :=
  retraces_commaList valid enough (retraces_param valid) fun valid₁ passed₁ enough₁ =>
    h.further parameters valid₁ enough₁ passed₁.left_lt passed₁.room

theorem retraces_kernelTag (valid : s.Valid) :
    Retraces s (fun _ => s.Continues) Parser.kernelTag body.kernelTag := by
  refine (Retraces.consume valid).bind fun marked s₁ valid₁ continued₁ => ?_
  cases marked with
  | false => exact .pure valid₁ continued₁
  | true =>
      refine (Retraces.consume valid₁).bind fun reduces s₂ valid₂ continued₂ => ?_
      cases reduces <;> exact .pure valid₂ (continued₁.trans continued₂)

theorem retraces_params (valid : s₁.Valid) (passed : s.Passes s₁)
    (h : Reliable call (function.cost s)) :
    Retraces s₁ (fun _ => s₁.Passes) Parser.params (body.params call) := by
  have listed {s₂ : Cursor} (valid₂ : s₂.Valid) (continued₂ : s₁.Continues s₂) :
      Retraces s₂ (fun _ => s₁.Passes)
        (do
          if ← Parser.accept .rparen then return []
          Parser.commaList Parser.param "',' or ')'" (← Parser.remaining))
        (do
          if ← consume .rparen then return []
          call parameters) := by
    refine .consume_or valid₂ (fun s₃ valid₃ passed₃ => ?_) ?_
    · exact .pure valid₃ (continued₂.passes passed₃)
    · exact .remaining ((h.later parameters valid₂ (passed.continues continued₂) rfl).mono
        fun _ _ _ passed => continued₂.passes passed)
  refine .peek valid fun first next => .peekSecond valid fun second => ?_
  split
  · next void =>
    have token : first ≠ .stop := by rintro rfl; cases void
    exact (Retraces.advance valid next token).bind fun _ s₂ valid₂ passed₂ =>
      listed valid₂ passed₂.toContinues
  · exact listed valid valid.refl

theorem retraces_function (valid : s.Valid) (h : Reliable call (function.cost s)) :
    Retraces s (fun _ => s.Passes) (Parser.functionWithin s.room) (function.body call) := by
  refine .here valid fun pos => (retraces_kernelTag valid).bind fun kernel s₁ valid₁ continued₁ =>
    (Retraces.typeName valid₁).bind fun ret s₂ valid₂ passed₂ => ?_
  have passed₂ := continued₁.passes passed₂
  exact (Retraces.word valid₂).onward passed₂ fun name s₃ valid₃ passed₃ =>
    (Retraces.expect valid₃).onward passed₃ fun _ s₄ valid₄ passed₄ =>
    (retraces_params valid₄ passed₄ h).onward passed₄ fun params s₅ valid₅ passed₅ =>
    (Retraces.expect valid₅).onward passed₅ fun _ s₆ valid₆ passed₆ =>
    .remaining ((h.later block valid₆ passed₆ rfl).onward passed₆
      fun body s₇ valid₇ passed₇ => .pure valid₇ passed₇)

theorem retraces_functions {bound : List Token} (valid : s.Valid) (enough : s.left ≤ bound.length)
    (h : Reliable call (functions.cost s)) :
    Retraces s (fun _ => s.Continues) (Parser.functionsWithin s.room bound)
      (functions.body call) := by
  obtain ⟨t, bound, rfl, fits⟩ := exists_bound valid enough
  refine .peek valid fun k next => ?_
  split
  · exact .pure valid valid.refl
  · refine (h.first function valid (by decide) rfl).bind
      fun first s₁ valid₁ passed₁ => ?_
    exact Retraces.bind (h.further functions valid₁ (fits passed₁) passed₁.left_lt passed₁.room)
      fun more s₂ valid₂ continued₂ => .pure valid₂ (passed₁.toContinues.trans continued₂)

end
end Routine
end PixelKernel.Language
