import PixelKernel.Language.Syntax.Parser
import PixelKernel.Proofs.Number.Unsigned
import PixelKernel.Proofs.Syntax.Elements

/-! # Literals of a syntax tree

Every number in a syntax tree stands for a token of the text, so what holds of the numbers
that tokens can denote holds of all literals. A parser `Keeps` a property when it passes it
from the tokens it is given to its result and to the tokens it leaves.
-/

namespace PixelKernel.Language

section Trees

variable (P : Float → Prop)

mutual

/-- `P` holds of all float literals of an expression. -/
def Expr.Floats : Expr → Prop
  | .lit _ (.float x) => P x
  | .lit _ _ | .var _ _ => True
  | .unary _ _ e | .select _ e _ | .step _ e _ _ => e.Floats
  | .binary _ _ a b | .assign _ _ a b => a.Floats ∧ b.Floats
  | .ternary _ a b c => a.Floats ∧ b.Floats ∧ c.Floats
  | .call _ _ args => Expr.FloatsList args

def Expr.FloatsList : List Expr → Prop
  | [] => True
  | e :: rest => e.Floats ∧ Expr.FloatsList rest

end

/-- `P` holds of all float literals of an expression that may be left out. -/
def Expr.FloatsOption : Option Expr → Prop
  | none => True
  | some e => e.Floats P

mutual

/-- `P` holds of all float literals of a statement. -/
def Stmt.Floats : Stmt → Prop
  | .empty | .breakLoop _ | .continueLoop _ => True
  | .expr e => e.Floats P
  | .block body => Stmt.FloatsList body
  | .decl _ _ _ vars => ∀ v ∈ vars, Expr.FloatsOption P v.init
  | .ifThen cond yes => cond.Floats P ∧ yes.Floats
  | .ifElse cond yes no => cond.Floats P ∧ yes.Floats ∧ no.Floats
  | .forLoop init cond step body =>
    init.Floats ∧ Expr.FloatsOption P cond ∧ Expr.FloatsOption P step ∧ body.Floats
  | .whileLoop cond body | .doWhile body cond => cond.Floats P ∧ body.Floats
  | .ret _ value => Expr.FloatsOption P value

def Stmt.FloatsList : List Stmt → Prop
  | [] => True
  | s :: rest => s.Floats ∧ Stmt.FloatsList rest

end

def Token.Floats (t : Token) : Prop :=
  match t.kind with
  | .float x => P x
  | _ => True

end Trees

namespace Parser

variable {α β : Type} {P : Float → Prop} {Q : α → Prop} {R : β → Prop}

/-- Of tokens whose floats satisfy `P`, the parser makes a result that satisfies `Q`, and it
    leaves only such tokens. -/
def Keeps (P : Float → Prop) (Q : α → Prop) (m : Parser α) : Prop :=
  ∀ ts a rest, (∀ t ∈ ts, t.Floats P) → m ts = .ok (a, rest) → Q a ∧ ∀ t ∈ rest, t.Floats P

namespace Keeps

theorem pure {a : α} (h : Q a) : Keeps P Q (Pure.pure a) := by
  intro ts b rest hts hm
  cases hm
  exact ⟨h, hts⟩

theorem bind {m : Parser α} {f : α → Parser β} (hm : Keeps P Q m)
    (hf : ∀ a, Q a → Keeps P R (f a)) : Keeps P R (m >>= f) := by
  intro ts b rest hts h
  change (m ts >>= fun r => f r.1 r.2) = _ at h
  cases first : m ts with
  | error e => rw [first] at h; cases h
  | ok r =>
    rw [first] at h
    obtain ⟨ha, kept⟩ := hm ts r.1 r.2 hts first
    exact hf r.1 ha r.2 b rest kept h

theorem mono {Q' : α → Prop} {m : Parser α} (hm : Keeps P Q m) (h : ∀ a, Q a → Q' a) :
    Keeps P Q' m :=
  fun ts a rest hts run => ⟨h a (hm ts a rest hts run).1, (hm ts a rest hts run).2⟩

theorem complain {cause : Cause} : Keeps P Q (Parser.complain cause) := by
  intro ts a rest _ h
  cases h

theorem unexpected {what : String} : Keeps P Q (Parser.unexpected what) := by
  intro ts a rest _ h
  cases h

theorem outOfRoom {what : String} : Keeps P Q (Parser.outOfRoom what) :=
  complain

theorem throw {c : Complaint} : Keeps P Q (throw c) := by
  intro ts a rest _ h
  cases h

/-- The next token is one of those given. -/
theorem peek : Keeps P (fun k => ∀ x, k = .float x → P x) Parser.peek := by
  intro ts a rest hts h
  cases h
  refine ⟨?_, hts⟩
  intro x hx
  cases ts with
  | nil => cases hx
  | cons t rest =>
    have := hts t (List.mem_cons_self ..)
    simp only [kindOf] at hx
    simpa only [Token.Floats, hx] using this

theorem peekSecond : Keeps P (fun _ => True) Parser.peekSecond := by
  intro ts a rest hts h
  cases h
  exact ⟨trivial, hts⟩

theorem here : Keeps P (fun _ => True) Parser.here := by
  intro ts a rest hts h
  cases h
  exact ⟨trivial, hts⟩

theorem remaining : Keeps P (fun _ => True) Parser.remaining := by
  intro ts a rest hts h
  cases h
  exact ⟨trivial, hts⟩

theorem advance : Keeps P (fun _ => True) Parser.advance := by
  intro ts a rest hts h
  cases h
  exact ⟨trivial, fun t ht => hts t (List.mem_of_mem_tail ht)⟩

theorem accept {s : Symbol} : Keeps P (fun _ => True) (Parser.accept s) := by
  unfold Parser.accept
  refine peek.bind fun k _ => ?_
  split
  · exact advance.bind fun _ _ => pure trivial
  · exact pure trivial

theorem expect {s : Symbol} {what : String} : Keeps P (fun _ => True) (Parser.expect s what) := by
  unfold Parser.expect
  refine peek.bind fun k _ => ?_
  split
  · exact advance
  · exact unexpected

theorem word {what : String} : Keeps P (fun _ => True) (Parser.word what) := by
  unfold Parser.word
  refine peek.bind fun k _ => ?_
  split
  · exact advance.bind fun _ _ => pure trivial
  · exact unexpected

theorem typeName : Keeps P (fun _ => True) Parser.typeName := by
  unfold Parser.typeName
  refine here.bind fun pos _ => word.bind fun name _ => ?_
  split
  · exact pure trivial
  · exact throw

theorem atDeclaration : Keeps P (fun _ => True) Parser.atDeclaration := by
  unfold Parser.atDeclaration
  refine peek.bind fun k _ => peekSecond.bind fun l _ => ?_
  split <;> exact pure trivial

theorem commaList {item : Parser α} (h : Keeps P Q item) (what : String) (bound : List Token) :
    Keeps P (fun as => ∀ a ∈ as, Q a) (Parser.commaList item what bound) := by
  induction bound with
  | nil => exact unexpected
  | cons t bound ih =>
    unfold Parser.commaList
    refine h.bind fun a ha => accept.bind fun more _ => ?_
    split
    · exact ih.bind fun as has => pure (List.forall_mem_cons.2 ⟨ha, has⟩)
    · exact expect.bind fun _ _ => pure (by simpa using ha)

theorem commaChain {item : Parser α} (h : Keeps P Q item) (bound : List Token) :
    Keeps P (fun as => ∀ a ∈ as, Q a) (Parser.commaChain item bound) := by
  induction bound with
  | nil => exact pure (by simp)
  | cons t bound ih =>
    unfold Parser.commaChain
    refine h.bind fun a ha => accept.bind fun more _ => ?_
    split
    · exact ih.bind fun as has => pure (List.forall_mem_cons.2 ⟨ha, has⟩)
    · exact pure (by simpa using ha)

theorem postfixRest (room : Nat) {e : Expr} (he : e.Floats P) :
    Keeps P (Expr.Floats P) (Parser.postfixRest room e) := by
  induction room generalizing e with
  | zero =>
    unfold Parser.postfixRest
    refine peek.bind fun k _ => ?_
    split
    · exact outOfRoom
    · exact outOfRoom
    · exact outOfRoom
    · exact pure he
  | succ room ih =>
    unfold Parser.postfixRest
    refine here.bind fun pos _ => peek.bind fun k _ => ?_
    split
    · exact advance.bind fun _ _ => word.bind fun _ _ => ih he
    · exact advance.bind fun _ _ => ih he
    · exact advance.bind fun _ _ => ih he
    · exact pure he

theorem floatsList_of_forall {args : List Expr} (h : ∀ e ∈ args, e.Floats P) :
    Expr.FloatsList P args := by
  induction args with
  | nil => trivial
  | cons e rest ih =>
    rw [List.forall_mem_cons] at h
    exact ⟨h.1, ih h.2⟩

mutual

theorem expression (room : Nat) : Keeps P (Expr.Floats P) (Parser.expression room) := by
  cases room with
  | zero => rw [Parser.expression]; exact outOfRoom
  | succ room =>
    rw [Parser.expression]
    refine (conditional room).bind fun target ht => peek.bind fun k _ => ?_
    split
    · exact pure ht
    · exact here.bind fun _ _ => advance.bind fun _ _ =>
        (expression room).bind fun value hv => pure (by exact ⟨ht, hv⟩)
termination_by 32 * room

theorem conditional (room : Nat) : Keeps P (Expr.Floats P) (Parser.conditional room) := by
  rw [Parser.conditional]
  refine (operation 6 room).bind fun cond hc => peek.bind fun k _ => ?_
  split
  · exact pure hc
  · refine here.bind fun _ _ => advance.bind fun _ _ => (expression room).bind fun yes hy =>
      expect.bind fun _ _ => ?_
    cases room with
    | zero => exact outOfRoom
    | succ room => exact (conditional room).bind fun no hn => pure ⟨hc, hy, hn⟩
termination_by 32 * room + 16

theorem operation (level : Fin 7) (room : Nat) :
    Keeps P (Expr.Floats P) (Parser.operation level room) := by
  obtain ⟨level, h⟩ := level
  cases level with
  | zero => rw [Parser.operation]; exact unary room
  | succ level =>
    rw [Parser.operation]
    exact (operation ⟨level, by omega⟩ room).bind fun first hf => chain ⟨level, by omega⟩ hf room
termination_by 32 * room + 2 * level.val + 3

theorem chain (level : Fin 6) {left : Expr} (hl : left.Floats P) (room : Nat) :
    Keeps P (Expr.Floats P) (Parser.chain level left room) := by
  rw [Parser.chain]
  refine peek.bind fun k _ => ?_
  split
  · exact pure hl
  · refine here.bind fun _ _ => advance.bind fun _ _ =>
      (operation level.castSucc room).bind fun right hr => ?_
    cases room with
    | zero => exact outOfRoom
    | succ room => exact chain level (by exact ⟨hl, hr⟩) room
termination_by 32 * room + 2 * level.val + 4
decreasing_by all_goals grind

theorem unary (room : Nat) : Keeps P (Expr.Floats P) (Parser.unary room) := by
  rw [Parser.unary]
  refine here.bind fun pos _ => peek.bind fun k _ => ?_
  split
  · exact advance.bind fun _ _ => (nestedUnary room).bind fun e he => pure he
  · exact advance.bind fun _ _ => (nestedUnary room).bind fun e he => pure he
  · exact advance.bind fun _ _ => nestedUnary room
  · exact advance.bind fun _ _ => (nestedUnary room).bind fun e he => pure he
  · exact advance.bind fun _ _ => (nestedUnary room).bind fun e he => pure he
  · exact (primary room).bind fun e he => postfixRest room he
termination_by 32 * room + 2

theorem nestedUnary (room : Nat) : Keeps P (Expr.Floats P) (Parser.nestedUnary room) := by
  cases room with
  | zero => rw [Parser.nestedUnary]; exact outOfRoom
  | succ room => rw [Parser.nestedUnary]; exact unary room
termination_by 32 * room

theorem primary (room : Nat) : Keeps P (Expr.Floats P) (Parser.primary room) := by
  rw [Parser.primary]
  refine here.bind fun pos _ => peek.bind fun k hk => ?_
  split
  · exact advance.bind fun _ _ => pure trivial
  · exact advance.bind fun _ _ => pure (hk _ rfl)
  · exact advance.bind fun _ _ => pure trivial
  · exact advance.bind fun _ _ => pure trivial
  · refine advance.bind fun _ _ => accept.bind fun called _ => ?_
    split
    · refine accept.bind fun closed _ => ?_
      split
      · exact pure trivial
      · exact remaining.bind fun bound _ => (commaList (expression room) _ bound).bind
          fun args ha => pure (floatsList_of_forall ha)
    · exact pure trivial
  · exact advance.bind fun _ _ => (expression room).bind fun e he =>
      expect.bind fun _ _ => pure he
  · exact unexpected
termination_by 32 * room + 1

end

theorem declarator (room : Nat) :
    Keeps P (fun v => Expr.FloatsOption P v.init) (Parser.declarator room) := by
  unfold Parser.declarator
  refine here.bind fun _ _ => word.bind fun _ _ => accept.bind fun given _ => ?_
  split
  · exact (conditional room).bind fun e he => pure he
  · exact pure trivial

theorem declaration (room : Nat) : Keeps P (Stmt.Floats P) (Parser.declaration room) := by
  unfold Parser.declaration
  exact here.bind fun _ _ => accept.bind fun _ _ => typeName.bind fun _ _ =>
    remaining.bind fun bound _ => (commaChain (declarator room) bound).bind fun vars hv =>
      expect.bind fun _ _ => pure (by simpa only [Stmt.Floats] using hv)

theorem unlessNext {s : Symbol} (room : Nat) :
    Keeps P (Expr.FloatsOption P) (Parser.unlessNext s room) := by
  unfold Parser.unlessNext
  refine peek.bind fun k _ => ?_
  split
  · exact pure trivial
  · exact (expression room).bind fun e he => pure he

theorem expressionStmt (room : Nat) : Keeps P (Stmt.Floats P) (Parser.expressionStmt room) := by
  unfold Parser.expressionStmt
  exact (expression room).bind fun e he => expect.bind fun _ _ =>
    pure (by simpa only [Stmt.Floats] using he)

theorem forInit (room : Nat) : Keeps P (Stmt.Floats P) (Parser.forInit room) := by
  unfold Parser.forInit
  refine accept.bind fun empty _ => ?_
  split
  · exact pure (by simp only [Stmt.Floats])
  · refine atDeclaration.bind fun decl _ => ?_
    split
    · exact declaration room
    · exact expressionStmt room

theorem blockRest {stmt : Parser Stmt} (h : Keeps P (Stmt.Floats P) stmt) (bound : List Token) :
    Keeps P (Stmt.FloatsList P) (Parser.blockRest stmt bound) := by
  induction bound with
  | nil => exact unexpected
  | cons t bound ih =>
    unfold Parser.blockRest
    refine accept.bind fun closed _ => ?_
    split
    · exact pure (by simp only [Stmt.FloatsList])
    · refine peek.bind fun k _ => ?_
      split
      · exact unexpected
      · exact h.bind fun s hs => ih.bind fun rest hr => pure ⟨hs, hr⟩

theorem statement (room : Nat) : Keeps P (Stmt.Floats P) (Parser.statement room) := by
  induction room with
  | zero => exact outOfRoom
  | succ room ih =>
    unfold Parser.statement
    refine here.bind fun pos _ => peek.bind fun k _ => ?_
    split
    · exact advance.bind fun _ _ => remaining.bind fun bound _ =>
        (blockRest ih bound).bind fun body hb => pure hb
    · exact advance.bind fun _ _ => pure trivial
    · refine advance.bind fun _ _ => expect.bind fun _ _ => (expression room).bind fun cond hc =>
        expect.bind fun _ _ => ih.bind fun yes hy => accept.bind fun more _ => ?_
      split
      · exact ih.bind fun no hn => pure ⟨hc, hy, hn⟩
      · exact pure ⟨hc, hy⟩
    · exact advance.bind fun _ _ => expect.bind fun _ _ => (forInit room).bind fun init hi =>
        (unlessNext room).bind fun cond hc => expect.bind fun _ _ =>
          (unlessNext room).bind fun step hs => expect.bind fun _ _ =>
            ih.bind fun body hb => pure ⟨hi, hc, hs, hb⟩
    · exact advance.bind fun _ _ => expect.bind fun _ _ => (expression room).bind fun cond hc =>
        expect.bind fun _ _ => ih.bind fun body hb => pure ⟨hc, hb⟩
    · exact advance.bind fun _ _ => ih.bind fun body hb => expect.bind fun _ _ =>
        expect.bind fun _ _ => (expression room).bind fun cond hc => expect.bind fun _ _ =>
          expect.bind fun _ _ => pure ⟨hc, hb⟩
    · exact advance.bind fun _ _ => expect.bind fun _ _ => pure trivial
    · exact advance.bind fun _ _ => expect.bind fun _ _ => pure trivial
    · exact advance.bind fun _ _ => (unlessNext room).bind fun value hv =>
        expect.bind fun _ _ => pure hv
    · refine atDeclaration.bind fun decl _ => ?_
      split
      · exact declaration room
      · exact expressionStmt room

theorem param : Keeps P (fun _ => True) Parser.param := by
  unfold Parser.param
  exact accept.bind fun _ _ => accept.bind fun _ _ => typeName.bind fun _ _ =>
    here.bind fun _ _ => word.bind fun _ _ => pure trivial

theorem params : Keeps P (fun _ => True) Parser.params := by
  unfold Parser.params
  refine peek.bind fun k _ => peekSecond.bind fun l _ => ?_
  have rest : Keeps P (fun _ => True) (do
      if ← Parser.accept .rparen then return []
      Parser.commaList Parser.param "',' or ')'" (← Parser.remaining)) := by
    refine accept.bind fun closed _ => ?_
    split
    · exact pure trivial
    · exact remaining.bind fun bound _ => (commaList param _ bound).mono fun _ _ => trivial
  split
  · exact advance.bind fun _ _ => rest
  · exact rest

theorem kernelTag : Keeps P (fun _ => True) Parser.kernelTag := by
  unfold Parser.kernelTag
  refine accept.bind fun kernel _ => ?_
  split
  · refine accept.bind fun reduce _ => ?_
    split <;> exact pure trivial
  · exact pure trivial

theorem functionDef :
    Keeps P (fun f => Stmt.FloatsList P f.body) Parser.functionDef := by
  unfold Parser.functionDef
  exact here.bind fun _ _ => kernelTag.bind fun _ _ => typeName.bind fun _ _ =>
    word.bind fun _ _ => expect.bind fun _ _ => params.bind fun _ _ => expect.bind fun _ _ =>
      remaining.bind fun bound _ => (blockRest (statement _) bound).bind fun body hb => pure hb

theorem functions (bound : List Token) :
    Keeps P (fun fs => ∀ f ∈ fs, Stmt.FloatsList P f.body) (Parser.functions bound) := by
  induction bound with
  | nil => exact pure (by simp)
  | cons t bound ih =>
    unfold Parser.functions
    refine peek.bind fun k _ => ?_
    split
    · exact pure (by simp)
    · exact functionDef.bind fun f hf => ih.bind fun fs hfs =>
        pure (List.forall_mem_cons.2 ⟨hf, hfs⟩)

end Keeps
end Parser

/-! ## Tokens of a text -/

open Unsigned (Plain)

theorem plain_of_kind {n : Numeral} {x : Float} (h : n.kind = .ok (.float x)) :
    Plain x.toModel.unpack := by
  unfold Numeral.kind at h
  split at h
  · cases h
    exact Unsigned.plain_nearest _
  · dsimp only at h
    split at h <;> cases h

theorem plain_of_numberToken {cs : List Char} {n : Nat} {x : Float}
    (h : numberToken cs = .ok (.float x, n)) : Plain x.toModel.unpack :=
  plain_of_kind (numberToken_eq_ok h).2.2

theorem ofWord_ne_float (text : String) (x : Float) : Token.Kind.ofWord text ≠ .float x := by
  unfold Token.Kind.ofWord
  split <;> exact nofun

theorem plain_of_readElement {c : Char} {cs : List Char} {e : Element} {x : Float}
    (h : readElement c cs = .ok e) (hx : e.kind = some (.float x)) : Plain x.toModel.unpack := by
  cases readElement_iff.1 h with
  | skipped => cases hx
  | token solid token found =>
    cases found with
    | number starts read =>
      cases hx
      exact plain_of_numberToken read
    | word => exact absurd (Option.some.inj hx) (ofWord_ne_float _ x)
    | pair | single => cases hx

theorem floats_tokensFrom {pos : Nat} {cs : List Char} {ts : List Token}
    (h : tokensFrom pos cs = .ok ts) : ∀ t ∈ ts, t.Floats fun x => Plain x.toModel.unpack := by
  fun_induction tokensFrom pos cs generalizing ts with
  | case1 pos =>
    cases h
    simp [Token.Floats]
  | case2 => cases h
  | case3 => cases h
  | case4 pos c cs e he more hts hk ih =>
    cases h
    exact ih hts
  | case5 pos c cs e he more hts kind hk ih =>
    cases h
    refine List.forall_mem_cons.2 ⟨?_, ih hts⟩
    unfold Token.Floats
    split
    next x hx =>
      dsimp only at hx
      subst hx
      exact plain_of_readElement he hk
    next => trivial

/-- All float literals of a module are numbers without a sign. -/
theorem floats_parseModule {source : String} {module : List FunctionDef}
    (h : parseModule source = .ok module) :
    ∀ f ∈ module, Stmt.FloatsList (fun x => Plain x.toModel.unpack) f.body := by
  unfold parseModule at h
  cases lexed : tokens source with
  | error => rw [lexed] at h; cases h
  | ok ts =>
    rw [lexed] at h
    change (Parser.functions ts ts >>= fun r => pure r.1) = _ at h
    cases parsed : Parser.functions ts ts with
    | error => rw [parsed] at h; cases h
    | ok r =>
      rw [parsed] at h
      cases h
      exact (Parser.Keeps.functions ts ts r.1 r.2 (floats_tokensFrom lexed) parsed).1

end PixelKernel.Language
