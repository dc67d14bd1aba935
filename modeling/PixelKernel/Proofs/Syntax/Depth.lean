import PixelKernel.Proofs.Syntax.Literals
import Mathlib.Tactic.Ring

/-! # Depth of syntax trees

The limit on nesting bounds how deep a tree can be. An operator of a chain takes a level only until
its chain ends, and chains of all levels can stand on top of each other at every level of nesting;
so the links of chains may nest deeper than the limit, which only everything else keeps to. Depth is
counted with a weight for each link of a chain.
-/

namespace PixelKernel.Language

/-! ## Depth -/

section Trees

variable (link : Nat)

mutual

/-- Nodes on the longest way down through an expression. Binary operators, selections and steps
    behind an operand are links of chains, of which each counts `link`. -/
def Expr.depth : Expr → Nat
  | .lit .. | .var .. => 1
  | .unary _ _ e | .step _ e _ true => e.depth + 1
  | .select _ e _ | .step _ e _ false => e.depth + link
  | .binary _ _ a b => max a.depth b.depth + link
  | .assign _ _ a b => max a.depth b.depth + 1
  | .ternary _ a b c => max a.depth (max b.depth c.depth) + 1
  | .call _ _ args => Expr.depthList args + 1

def Expr.depthList : List Expr → Nat
  | [] => 0
  | e :: rest => max e.depth (Expr.depthList rest)

end

def Expr.depthOption : Option Expr → Nat
  | none => 0
  | some e => e.depth link

def Declarator.depthList : List Declarator → Nat
  | [] => 0
  | v :: rest => max (Expr.depthOption link v.init) (depthList rest)

mutual

/-- Nodes on the longest way down through a statement and its expressions. -/
def Stmt.depth : Stmt → Nat
  | .empty | .breakLoop _ | .continueLoop _ => 1
  | .expr e => e.depth link + 1
  | .block body => Stmt.depthList body + 1
  | .decl _ _ _ vars => Declarator.depthList link vars + 1
  | .ifThen cond yes => max (cond.depth link) yes.depth + 1
  | .ifElse cond yes no => max (cond.depth link) (max yes.depth no.depth) + 1
  | .forLoop init cond step body =>
    max init.depth (max (Expr.depthOption link cond) (max (Expr.depthOption link step) body.depth)) + 1
  | .whileLoop cond body | .doWhile body cond => max (cond.depth link) body.depth + 1
  | .ret _ value => Expr.depthOption link value + 1

def Stmt.depthList : List Stmt → Nat
  | [] => 0
  | s :: rest => max s.depth (Stmt.depthList rest)

end

end Trees

mutual

/-- Number of links in an expression, those on other ways down included. -/
def Expr.links : Expr → Nat
  | .lit .. | .var .. => 0
  | .unary _ _ e | .step _ e _ true => e.links
  | .select _ e _ | .step _ e _ false => e.links + 1
  | .binary _ _ a b => a.links + b.links + 1
  | .assign _ _ a b => a.links + b.links
  | .ternary _ a b c => a.links + b.links + c.links
  | .call _ _ args => Expr.linksList args

def Expr.linksList : List Expr → Nat
  | [] => 0
  | e :: rest => e.links + Expr.linksList rest

end

def Expr.linksOption : Option Expr → Nat
  | none => 0
  | some e => e.links

def Declarator.linksList : List Declarator → Nat
  | [] => 0
  | v :: rest => Expr.linksOption v.init + linksList rest

mutual

/-- Number of links in the expressions of a statement. -/
def Stmt.links : Stmt → Nat
  | .empty | .breakLoop _ | .continueLoop _ => 0
  | .expr e => e.links
  | .block body => Stmt.linksList body
  | .decl _ _ _ vars => Declarator.linksList vars
  | .ifThen cond yes => cond.links + yes.links
  | .ifElse cond yes no => cond.links + yes.links + no.links
  | .forLoop init cond step body =>
    init.links + Expr.linksOption cond + Expr.linksOption step + body.links
  | .whileLoop cond body | .doWhile body cond => cond.links + body.links
  | .ret _ value => Expr.linksOption value

def Stmt.linksList : List Stmt → Nat
  | [] => 0
  | s :: rest => s.links + Stmt.linksList rest

end

/-! ## Links make trees deeper -/

mutual

theorem Expr.depth_le : (e : Expr) → e.depth 1 ≤ e.depth 0 + e.links
  | .lit .. | .var .. => by simp only [Expr.depth, Expr.links]; omega
  | .unary _ _ e | .select _ e _ | .step _ e _ true | .step _ e _ false => by
    have := e.depth_le
    simp only [Expr.depth, Expr.links]
    omega
  | .binary _ _ a b | .assign _ _ a b => by
    have := a.depth_le
    have := b.depth_le
    simp only [Expr.depth, Expr.links]
    omega
  | .ternary _ a b c => by
    have := a.depth_le
    have := b.depth_le
    have := c.depth_le
    simp only [Expr.depth, Expr.links]
    omega
  | .call _ _ args => by
    have := Expr.depthList_le_add args
    simp only [Expr.depth, Expr.links]
    omega

theorem Expr.depthList_le_add :
    (es : List Expr) → Expr.depthList 1 es ≤ Expr.depthList 0 es + Expr.linksList es
  | [] => Nat.le_refl 0
  | e :: rest => by
    have := e.depth_le
    have := Expr.depthList_le_add rest
    simp only [Expr.depthList, Expr.linksList]
    omega

end

theorem Expr.depthOption_le (e : Option Expr) :
    Expr.depthOption 1 e ≤ Expr.depthOption 0 e + Expr.linksOption e := by
  cases e with
  | none => exact Nat.le_refl 0
  | some e => exact e.depth_le

theorem Declarator.depthList_le_add (vars : List Declarator) :
    Declarator.depthList 1 vars ≤ Declarator.depthList 0 vars + Declarator.linksList vars := by
  induction vars with
  | nil => exact Nat.le_refl 0
  | cons v rest ih =>
    have := Expr.depthOption_le v.init
    simp only [Declarator.depthList, Declarator.linksList]
    omega

mutual

theorem Stmt.depth_le : (s : Stmt) → s.depth 1 ≤ s.depth 0 + s.links
  | .empty | .breakLoop _ | .continueLoop _ => by simp only [Stmt.depth, Stmt.links]; omega
  | .expr e => by
    have := e.depth_le
    simp only [Stmt.depth, Stmt.links]
    omega
  | .block body => by
    have := Stmt.depthList_le_add body
    simp only [Stmt.depth, Stmt.links]
    omega
  | .decl _ _ _ vars => by
    have := Declarator.depthList_le_add vars
    simp only [Stmt.depth, Stmt.links]
    omega
  | .ifThen cond yes | .whileLoop cond yes | .doWhile yes cond => by
    have := cond.depth_le
    have := yes.depth_le
    simp only [Stmt.depth, Stmt.links]
    omega
  | .ifElse cond yes no => by
    have := cond.depth_le
    have := yes.depth_le
    have := no.depth_le
    simp only [Stmt.depth, Stmt.links]
    omega
  | .forLoop init cond step body => by
    have := init.depth_le
    have := Expr.depthOption_le cond
    have := Expr.depthOption_le step
    have := body.depth_le
    simp only [Stmt.depth, Stmt.links]
    omega
  | .ret _ value => by
    have := Expr.depthOption_le value
    simp only [Stmt.depth, Stmt.links]
    omega

theorem Stmt.depthList_le_add :
    (body : List Stmt) → Stmt.depthList 1 body ≤ Stmt.depthList 0 body + Stmt.linksList body
  | [] => Nat.le_refl 0
  | s :: rest => by
    have := s.depth_le
    have := Stmt.depthList_le_add rest
    simp only [Stmt.depthList, Stmt.linksList]
    omega

end

section

variable {link d : Nat}

theorem Expr.depthList_le {es : List Expr} (h : ∀ e ∈ es, e.depth link ≤ d) :
    Expr.depthList link es ≤ d := by
  induction es with
  | nil => exact Nat.zero_le d
  | cons e rest ih =>
    rw [List.forall_mem_cons] at h
    rw [Expr.depthList]
    exact Nat.max_le.2 ⟨h.1, ih h.2⟩

theorem Declarator.depthList_le {vars : List Declarator}
    (h : ∀ v ∈ vars, Expr.depthOption link v.init ≤ d) : Declarator.depthList link vars ≤ d := by
  induction vars with
  | nil => exact Nat.zero_le d
  | cons v rest ih =>
    rw [List.forall_mem_cons] at h
    rw [Declarator.depthList]
    exact Nat.max_le.2 ⟨h.1, ih h.2⟩

end

namespace Parser

/-! ## What the room allows -/

variable (link : Nat)

/-- Depth that a conditional may reach with the room. -/
def reach : (room : Nat) → Nat
  | 0 => 1
  | room + 1 => reach room + 7 * (link * (room + 1)) + 3

/-- Depth that an expression may reach with the room. There is none without any. -/
def inner : (room : Nat) → Nat
  | 0 => 0
  | room + 1 => reach link room + 1

/-- Depth that a statement may reach with the room: that of a `for` which declares something. -/
def tall : (room : Nat) → Nat
  | 0 => 0
  | room + 1 => reach link room + 2

/-- Depth that operators of the level and of tighter ones may reach with the room. -/
def height (level room : Nat) : Nat := inner link room + 1 + (level + 1) * (link * room)

variable {link} {room level : Nat}

theorem reach_succ : reach link (room + 1) = reach link room + 7 * (link * (room + 1)) + 3 := rfl

theorem inner_succ : inner link (room + 1) = reach link room + 1 := rfl

theorem two_mul_reach :
    2 * reach link room = 2 + 6 * room + 7 * (link * (room * (room + 1))) := by
  induction room with
  | zero => rfl
  | succ room ih =>
    rw [reach_succ, Nat.mul_add, Nat.mul_add, ih]
    ring

theorem inner_le_reach : inner link room ≤ reach link room := by
  cases room with
  | zero => exact Nat.zero_le _
  | succ room =>
    rw [inner_succ, reach_succ]
    omega

theorem inner_succ_le : inner link room + 1 ≤ inner link (room + 1) := by
  rw [inner_succ]
  exact Nat.succ_le_succ inner_le_reach

theorem tall_succ : tall link (room + 1) = reach link room + 2 := rfl

theorem tall_le_reach : tall link room ≤ reach link room + 1 := by
  cases room with
  | zero => exact Nat.zero_le _
  | succ room =>
    rw [tall_succ, reach_succ]
    omega

theorem height_zero : height link 0 room = inner link room + 1 + link * room := by
  rw [height, Nat.zero_add, Nat.one_mul]

theorem height_succ : height link (level + 1) room = height link level room + link * room := by
  simp only [height]
  ring

theorem height_mono : height link level room ≤ height link level (room + 1) := by
  have nested : inner link room + 1 ≤ inner link (room + 1) := inner_succ_le
  have links : (level + 1) * (link * room) ≤ (level + 1) * (link * (room + 1)) :=
    Nat.mul_le_mul_left _ (Nat.mul_le_mul_left _ (Nat.le_succ room))
  simp only [height]
  omega

/-- A conditional may have one node more than its operators. -/
theorem height_lt_reach : height link 6 (room + 1) < reach link (room + 1) := by
  rw [height, inner_succ, reach_succ]
  omega

theorem height_le_reach : height link 6 room ≤ reach link room := by
  cases room with
  | zero => exact Nat.le_refl 1
  | succ room => exact Nat.le_of_lt height_lt_reach

namespace Keeps

variable {P : Float → Prop}

theorem depth_postfixRest {d : Nat} (room : Nat) {e : Expr} (he : e.depth link ≤ d) :
    Keeps P (fun e => e.depth link ≤ d + link * room) (Parser.postfixRest room e) := by
  induction room generalizing e d with
  | zero =>
    unfold Parser.postfixRest
    refine peek.bind fun k _ => ?_
    split
    · exact outOfRoom
    · exact outOfRoom
    · exact outOfRoom
    · exact pure he
  | succ room ih =>
    unfold Parser.postfixRest
    have longer : d + link + link * room = d + link * (room + 1) := by ring
    refine here.bind fun pos _ => peek.bind fun k _ => ?_
    rw [← longer]
    split
    · exact advance.bind fun _ _ => word.bind fun _ _ => ih (Nat.add_le_add_right he link)
    · exact advance.bind fun _ _ => ih (Nat.add_le_add_right he link)
    · exact advance.bind fun _ _ => ih (Nat.add_le_add_right he link)
    · exact pure (by omega)

mutual

theorem depth_expression (room : Nat) :
    Keeps P (fun e => e.depth link ≤ inner link room) (Parser.expression room) := by
  cases room with
  | zero => rw [Parser.expression]; exact outOfRoom
  | succ room =>
    rw [Parser.expression, inner_succ]
    refine (depth_conditional room).bind fun target ht => peek.bind fun k _ => ?_
    split
    · exact pure (Nat.le_succ_of_le ht)
    · exact here.bind fun _ _ => advance.bind fun _ _ =>
        (depth_expression room).bind fun value hv =>
          pure (Nat.succ_le_succ (Nat.max_le.2 ⟨ht, hv.trans inner_le_reach⟩))
termination_by 32 * room

theorem depth_conditional (room : Nat) :
    Keeps P (fun e => e.depth link ≤ reach link room) (Parser.conditional room) := by
  rw [Parser.conditional]
  refine (depth_operation 6 room).bind fun cond hc => peek.bind fun k _ => ?_
  split
  · exact pure (hc.trans height_le_reach)
  · refine here.bind fun _ _ => advance.bind fun _ _ => (depth_expression room).bind fun yes hy =>
      expect.bind fun _ _ => ?_
    cases room with
    | zero => exact outOfRoom
    | succ room =>
      refine (depth_conditional room).bind fun no hn => pure ?_
      have hc : cond.depth link < reach link (room + 1) := Nat.lt_of_le_of_lt hc height_lt_reach
      have grows : reach link (room + 1) = reach link room + 7 * (link * (room + 1)) + 3 := rfl
      rw [inner_succ] at hy
      rw [Expr.depth]
      omega
termination_by 32 * room + 16

theorem depth_operation (level : Fin 7) (room : Nat) :
    Keeps P (fun e => e.depth link ≤ height link level room) (Parser.operation level room) := by
  obtain ⟨level, h⟩ := level
  cases level with
  | zero =>
    rw [Parser.operation]
    exact depth_unary room
  | succ level =>
    rw [Parser.operation, height_succ]
    exact (depth_operation ⟨level, by omega⟩ room).bind fun first hf =>
      depth_chain ⟨level, by omega⟩ room hf (Nat.le_refl _)
termination_by 32 * room + 2 * level.val + 3

theorem depth_chain (level : Fin 6) (room : Nat) {d : Nat} {left : Expr}
    (hl : left.depth link ≤ d) (hd : height link level room ≤ d) :
    Keeps P (fun e => e.depth link ≤ d + link * room) (Parser.chain level left room) := by
  rw [Parser.chain]
  refine peek.bind fun k _ => ?_
  split
  · exact pure (by omega)
  · refine here.bind fun _ _ => advance.bind fun _ _ =>
      (depth_operation level.castSucc room).bind fun right hr => ?_
    cases room with
    | zero => exact outOfRoom
    | succ room =>
      have longer : d + link + link * room = d + link * (room + 1) := by ring
      rw [← longer]
      have operands : max (left.depth link) (right.depth link) ≤ d := Nat.max_le.2 ⟨hl, hr.trans hd⟩
      exact depth_chain level room (Nat.add_le_add_right operands link)
        ((height_mono.trans hd).trans (Nat.le_add_right d link))
termination_by 32 * room + 2 * level.val + 4
decreasing_by all_goals grind

theorem depth_unary (room : Nat) :
    Keeps P (fun e => e.depth link ≤ height link 0 room) (Parser.unary room) := by
  rw [Parser.unary]
  refine here.bind fun pos _ => peek.bind fun k _ => ?_
  split
  · exact advance.bind fun _ _ => (depth_nestedUnary room).bind fun e he => pure he
  · exact advance.bind fun _ _ => (depth_nestedUnary room).bind fun e he => pure he
  · exact advance.bind fun _ _ => (depth_nestedUnary room).mono fun e he => Nat.le_of_succ_le he
  · exact advance.bind fun _ _ => (depth_nestedUnary room).bind fun e he => pure he
  · exact advance.bind fun _ _ => (depth_nestedUnary room).bind fun e he => pure he
  · rw [height_zero]
    exact (depth_primary room).bind fun e he => depth_postfixRest room he
termination_by 32 * room + 2

theorem depth_nestedUnary (room : Nat) :
    Keeps P (fun e => e.depth link + 1 ≤ height link 0 room) (Parser.nestedUnary room) := by
  cases room with
  | zero => rw [Parser.nestedUnary]; exact outOfRoom
  | succ room =>
    rw [Parser.nestedUnary]
    refine (depth_unary room).mono fun e he => ?_
    have nested : inner link room + 1 ≤ inner link (room + 1) := inner_succ_le
    have links : link * room ≤ link * (room + 1) := Nat.mul_le_mul_left _ (Nat.le_succ room)
    rw [height_zero] at he ⊢
    omega
termination_by 32 * room

theorem depth_primary (room : Nat) :
    Keeps P (fun e => e.depth link ≤ inner link room + 1) (Parser.primary room) := by
  rw [Parser.primary]
  refine here.bind fun pos _ => peek.bind fun k hk => ?_
  split
  · exact advance.bind fun _ _ => pure (Nat.le_add_left 1 _)
  · exact advance.bind fun _ _ => pure (Nat.le_add_left 1 _)
  · exact advance.bind fun _ _ => pure (Nat.le_add_left 1 _)
  · exact advance.bind fun _ _ => pure (Nat.le_add_left 1 _)
  · refine advance.bind fun _ _ => accept.bind fun called _ => ?_
    split
    · refine accept.bind fun closed _ => ?_
      split
      · exact pure (Nat.le_add_left 1 _)
      · exact remaining.bind fun bound _ => (commaList (depth_expression room) _ bound).bind
          fun args ha => pure (Nat.succ_le_succ (Expr.depthList_le ha))
    · exact pure (Nat.le_add_left 1 _)
  · exact advance.bind fun _ _ => (depth_expression room).bind fun e he =>
      expect.bind fun _ _ => pure (Nat.le_succ_of_le he)
  · exact unexpected
termination_by 32 * room + 1

end

/-! ## Statements -/

theorem depth_declarator (room : Nat) :
    Keeps P (fun v => Expr.depthOption link v.init ≤ reach link room) (Parser.declarator room) := by
  unfold Parser.declarator
  refine here.bind fun _ _ => word.bind fun _ _ => accept.bind fun given _ => ?_
  split
  · exact (depth_conditional room).bind fun e he => pure he
  · exact pure (Nat.zero_le _)

theorem depth_declaration (room : Nat) :
    Keeps P (fun s => s.depth link ≤ reach link room + 1) (Parser.declaration room) := by
  unfold Parser.declaration
  exact here.bind fun _ _ => accept.bind fun _ _ => typeName.bind fun _ _ =>
    remaining.bind fun bound _ => (commaChain (depth_declarator room) bound).bind fun vars hv =>
      expect.bind fun _ _ => pure (by
        rw [Stmt.depth]
        exact Nat.succ_le_succ (Declarator.depthList_le hv))

theorem depth_unlessNext {s : Symbol} (room : Nat) :
    Keeps P (fun e => Expr.depthOption link e ≤ inner link room) (Parser.unlessNext s room) := by
  unfold Parser.unlessNext
  refine peek.bind fun k _ => ?_
  split
  · exact pure (Nat.zero_le _)
  · exact (depth_expression room).bind fun e he => pure he

theorem depth_expressionStmt (room : Nat) :
    Keeps P (fun s => s.depth link ≤ inner link room + 1) (Parser.expressionStmt room) := by
  unfold Parser.expressionStmt
  exact (depth_expression room).bind fun e he => expect.bind fun _ _ => pure (by
    rw [Stmt.depth]
    exact Nat.succ_le_succ he)

theorem depth_simple (room : Nat) : Keeps P (fun s => s.depth link ≤ reach link room + 1) (do
    if ← Parser.atDeclaration then Parser.declaration room else Parser.expressionStmt room) := by
  refine atDeclaration.bind fun decl _ => ?_
  split
  · exact depth_declaration room
  · exact (depth_expressionStmt room).mono fun s hs => hs.trans (Nat.succ_le_succ inner_le_reach)

theorem depth_forInit (room : Nat) :
    Keeps P (fun s => s.depth link ≤ reach link room + 1) (Parser.forInit room) := by
  unfold Parser.forInit
  refine accept.bind fun empty _ => ?_
  split
  · exact pure (by rw [Stmt.depth]; omega)
  · exact depth_simple room

theorem depth_blockRest {d : Nat} {stmt : Parser Stmt} (h : Keeps P (fun s => s.depth link ≤ d) stmt)
    (bound : List Token) :
    Keeps P (fun body => Stmt.depthList link body ≤ d) (Parser.blockRest stmt bound) := by
  induction bound with
  | nil => exact unexpected
  | cons t bound ih =>
    unfold Parser.blockRest
    refine accept.bind fun closed _ => ?_
    split
    · exact pure (by rw [Stmt.depthList]; exact Nat.zero_le d)
    · refine peek.bind fun k _ => ?_
      split
      · exact unexpected
      · exact h.bind fun s hs => ih.bind fun rest hr => pure (by
          rw [Stmt.depthList]
          exact Nat.max_le.2 ⟨hs, hr⟩)

theorem depth_statement (room : Nat) :
    Keeps P (fun s => s.depth link ≤ tall link room) (Parser.statement room) := by
  induction room with
  | zero => exact outOfRoom
  | succ room ih =>
    have leaf : 1 ≤ reach link room + 2 := Nat.le_add_left 1 _
    have low : inner link room ≤ reach link room + 1 := Nat.le_succ_of_le inner_le_reach
    have ih : Keeps P (fun s => s.depth link ≤ reach link room + 1) (Parser.statement room) :=
      ih.mono fun s hs => hs.trans tall_le_reach
    have value : Keeps P (fun e => e.depth link ≤ inner link room) (Parser.expression room) :=
      depth_expression room
    have clause (s : Symbol) :
        Keeps P (fun e => Expr.depthOption link e ≤ inner link room) (Parser.unlessNext s room) :=
      depth_unlessNext room
    have first : Keeps P (fun s => s.depth link ≤ reach link room + 1) (Parser.forInit room) :=
      depth_forInit room
    unfold Parser.statement
    rw [tall_succ]
    refine here.bind fun pos _ => peek.bind fun k _ => ?_
    split
    · exact advance.bind fun _ _ => remaining.bind fun bound _ =>
        (depth_blockRest ih bound).bind fun body hb => pure (by rw [Stmt.depth]; omega)
    · exact advance.bind fun _ _ => pure (by rw [Stmt.depth]; exact leaf)
    · refine advance.bind fun _ _ => expect.bind fun _ _ => value.bind
        fun cond hc => expect.bind fun _ _ => ih.bind fun yes hy => accept.bind fun more _ => ?_
      split
      · exact ih.bind fun no hn => pure (by rw [Stmt.depth]; omega)
      · exact pure (by rw [Stmt.depth]; omega)
    · exact advance.bind fun _ _ => expect.bind fun _ _ => first.bind fun init hi =>
        (clause _).bind fun cond hc => expect.bind fun _ _ =>
          (clause _).bind fun step hs => expect.bind fun _ _ =>
            ih.bind fun body hb => pure (by rw [Stmt.depth]; omega)
    · exact advance.bind fun _ _ => expect.bind fun _ _ => value.bind
        fun cond hc => expect.bind fun _ _ => ih.bind fun body hb => pure (by rw [Stmt.depth]; omega)
    · exact advance.bind fun _ _ => ih.bind fun body hb => expect.bind fun _ _ =>
        expect.bind fun _ _ => value.bind fun cond hc => expect.bind fun _ _ =>
          expect.bind fun _ _ => pure (by rw [Stmt.depth]; omega)
    · exact advance.bind fun _ _ => expect.bind fun _ _ => pure (by rw [Stmt.depth]; exact leaf)
    · exact advance.bind fun _ _ => expect.bind fun _ _ => pure (by rw [Stmt.depth]; exact leaf)
    · exact advance.bind fun _ _ => (clause _).bind fun value hv =>
        expect.bind fun _ _ => pure (by rw [Stmt.depth]; omega)
    · exact (depth_simple room).mono fun s hs => Nat.le_succ_of_le hs

theorem depth_functionDef : Keeps P (fun f => Stmt.depthList link f.body ≤ tall link maxNesting)
    Parser.functionDef := by
  unfold Parser.functionDef
  exact here.bind fun _ _ => kernelTag.bind fun _ _ => typeName.bind fun _ _ =>
    word.bind fun _ _ => expect.bind fun _ _ => params.bind fun _ _ => expect.bind fun _ _ =>
      remaining.bind fun bound _ => (depth_blockRest (depth_statement _) bound).bind
        fun body hb => pure hb

theorem depth_functions (bound : List Token) :
    Keeps P (fun fs => ∀ f ∈ fs, Stmt.depthList link f.body ≤ tall link maxNesting)
      (Parser.functions bound) := by
  induction bound with
  | nil => exact pure (by simp)
  | cons t bound ih =>
    unfold Parser.functions
    refine peek.bind fun k _ => ?_
    split
    · exact pure (by simp)
    · exact depth_functionDef.bind fun f hf => ih.bind fun fs hfs =>
        pure (List.forall_mem_cons.2 ⟨hf, hfs⟩)

end Keeps
end Parser

/-- How deep a function body can be that the parser accepts. -/
structure Shallow (body : List Stmt) : Prop where
  /-- Without the links of chains it keeps to three nodes for each level of nesting, -/
  unlinked : Stmt.depthList 0 body ≤ 3 * Parser.maxNesting
  /-- so with few links it keeps to four; -/
  few : Stmt.linksList body ≤ Parser.maxNesting → Stmt.depthList 1 body ≤ 4 * Parser.maxNesting
  /-- and at each level there can be seven chains, each as long as the room that is left. -/
  whole : Stmt.depthList 1 body ≤
    3 * Parser.maxNesting + 7 * (Parser.maxNesting * (Parser.maxNesting - 1) / 2)

theorem Shallow.of_tall {body : List Stmt}
    (h : ∀ link, Stmt.depthList link body ≤ Parser.tall link Parser.maxNesting) : Shallow body := by
  have limit (link : Nat) :
      Parser.tall link Parser.maxNesting = 3 * Parser.maxNesting + link * 56896 := by
    have closed : 2 * Parser.reach link 127 = 2 + 6 * 127 + 7 * (link * (127 * (127 + 1))) :=
      Parser.two_mul_reach
    have tall : Parser.tall link Parser.maxNesting = Parser.reach link 127 + 2 := rfl
    simp only [Parser.maxNesting] at tall ⊢
    omega
  have unlinked := h 0
  have whole := h 1
  have more := Stmt.depthList_le_add body
  rw [limit] at unlinked whole
  constructor
  all_goals
    simp only [Parser.maxNesting] at unlinked whole ⊢
    omega

/-- However a text nests and chains, its functions are not deeper than the limit on nesting
    allows. -/
theorem shallow_of_parseModule {source : String} {module : List FunctionDef}
    (h : parseModule source = .ok module) : ∀ f ∈ module, Shallow f.body := by
  intro f there
  unfold parseModule at h
  cases lexed : tokens source with
  | error => rw [lexed] at h; cases h
  | ok ts =>
    rw [lexed] at h
    change (Parser.functions ts ts >>= fun r => pure r.1) = _ at h
    cases parsed : Parser.functions ts ts with
    | error => rw [parsed] at h; cases h
    | ok r =>
      rw [parsed] at h
      cases h
      have any : ∀ t ∈ ts, t.Floats fun _ => True := by
        intro t _
        unfold Token.Floats
        split <;> trivial
      have tall (link : Nat) : ∀ f ∈ r.1,
          Stmt.depthList link f.body ≤ Parser.tall link Parser.maxNesting :=
        (Parser.Keeps.depth_functions ts ts r.1 r.2 any parsed).1
      exact .of_tall fun link => tall link f there

/-- A call, a selection and a sum in each other. -/
def nestedSum : String := "float f(vec2 a)\x7breturn (a.x+g(a)).x;\x7d"

theorem nestedSum_shallow : ∃ module, parseModule nestedSum = .ok module ∧ module ≠ [] ∧
    ∀ f ∈ module, Shallow f.body := by
  have read : ((parseModule nestedSum).toOption.any fun module => !module.isEmpty) = true := by
    decide +kernel
  cases parsed : parseModule nestedSum with
  | error c => rw [parsed] at read; cases read
  | ok module =>
    refine ⟨module, rfl, ?_, shallow_of_parseModule parsed⟩
    rintro rfl
    rw [parsed] at read
    cases read

end PixelKernel.Language
