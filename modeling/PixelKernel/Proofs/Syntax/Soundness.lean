import PixelKernel.Proofs.Syntax.Lookahead

/-! # Trees that are read

Whatever a parser makes of the tokens that it takes is spelled with them. One lemma for each parser;
those of expressions go down together with the room that is left.
-/

namespace PixelKernel.Language.Parser

variable {α β : Type}

/-- What the parser makes of the tokens, if it makes anything, satisfies `Q` with what it leaves. -/
structure Ensures (m : Parser α) (ts : List Token) (Q : α → List Token → Prop) : Prop where
  of_ok : ∀ a rest, m ts = .ok (a, rest) → Q a rest

/-- The tokens in front of those that are left spell the result. -/
def Takes (spelled : α → List Token → Prop) (ts : List Token) (a : α) (rest : List Token) : Prop :=
  ∃ front, ts = front ++ rest ∧ spelled a front

theorem exists_of_kindOf {ts : List Token} {k : Token.Kind} (h : kindOf ts = k)
    (token : k ≠ .stop) : ∃ t rest, ts = t :: rest ∧ t.kind = k := by
  cases ts with
  | nil => exact absurd h.symm token
  | cons t rest => exact ⟨t, rest, rfl, h⟩

namespace Ensures

variable {ts : List Token} {Q : α → List Token → Prop} {R : β → List Token → Prop}

/-! ## Rules -/

theorem pure {a : α} (h : Q a ts) : Ensures (Pure.pure a) ts Q := by
  constructor
  intro b rest run
  cases run
  exact h

theorem bind {m : Parser α} {f : α → Parser β} (hm : Ensures m ts Q)
    (hf : ∀ a rest, Q a rest → Ensures (f a) rest R) : Ensures (m >>= f) ts R := by
  constructor
  intro b rest run
  change (m ts >>= fun r => f r.1 r.2) = _ at run
  cases first : m ts with
  | error c => rw [first] at run; cases run
  | ok r =>
      rw [first] at run
      exact (hf r.1 r.2 (hm.of_ok r.1 r.2 first)).of_ok b rest run

theorem mono {Q' : α → List Token → Prop} {m : Parser α} (hm : Ensures m ts Q)
    (h : ∀ a rest, Q a rest → Q' a rest) : Ensures m ts Q' :=
  ⟨fun a rest run => h a rest (hm.of_ok a rest run)⟩

theorem unexpected {what : String} : Ensures (Parser.unexpected what) ts Q := ⟨nofun⟩

theorem outOfRoom {what : String} : Ensures (Parser.outOfRoom what) ts Q := ⟨nofun⟩

theorem peek {f : Token.Kind → Parser β} (h : Ensures (f (kindOf ts)) ts R) :
    Ensures (Parser.peek >>= f) ts R := ⟨h.of_ok⟩

theorem peekSecond {f : Token.Kind → Parser β} (h : Ensures (f (secondOf ts)) ts R) :
    Ensures (Parser.peekSecond >>= f) ts R := ⟨h.of_ok⟩

theorem here {f : Nat → Parser β} (h : Ensures (f (posOf ts)) ts R) :
    Ensures (Parser.here >>= f) ts R := ⟨h.of_ok⟩

theorem remaining {f : List Token → Parser β} (h : Ensures (f ts) ts R) :
    Ensures (Parser.remaining >>= f) ts R := ⟨h.of_ok⟩

theorem advance {t : Token} {f : Unit → Parser β} (h : Ensures (f ()) ts R) :
    Ensures (Parser.advance >>= f) (t :: ts) R := ⟨h.of_ok⟩

theorem accept {s : Symbol} : Ensures (Parser.accept s) ts fun b rest =>
    (b = true ∧ ∃ t : Token, t.Is s ∧ ts = t :: rest) ∨
      (b = false ∧ kindOf ts ≠ .sym s ∧ ts = rest) := by
  unfold Parser.accept
  apply peek
  split
  next h =>
      obtain ⟨t, rest, rfl, kind⟩ := exists_of_kindOf h nofun
      exact advance (pure (.inl ⟨rfl, t, kind, rfl⟩))
  next h => exact pure (.inr ⟨rfl, h, rfl⟩)

theorem optionally {s : Symbol} : Ensures (Parser.accept s) ts (Takes (Optionally s) ts) := by
  apply accept.mono
  rintro _ rest (⟨rfl, t, symbol, rfl⟩ | ⟨rfl, -, rfl⟩)
  · exact ⟨[t], rfl, .present symbol⟩
  · exact ⟨[], rfl, .absent⟩

theorem expect {s : Symbol} {what : String} :
    Ensures (Parser.expect s what) ts fun _ rest => ∃ t : Token, t.Is s ∧ ts = t :: rest := by
  unfold Parser.expect
  apply peek
  split
  next h =>
      obtain ⟨t, rest, rfl, kind⟩ := exists_of_kindOf h nofun
      exact advance (pure ⟨t, kind, rfl⟩)
  next => exact unexpected

theorem word {what : String} :
    Ensures (Parser.word what) ts fun name rest => ∃ t : Token, t.IsWord name ∧ ts = t :: rest := by
  unfold Parser.word
  apply peek
  split
  next h =>
      obtain ⟨t, rest, rfl, kind⟩ := exists_of_kindOf h nofun
      exact advance (pure ⟨t, kind, rfl⟩)
  next => exact unexpected

theorem typeName :
    Ensures Parser.typeName ts fun ty rest => ∃ t : Token, t.IsType ty ∧ ts = t :: rest := by
  unfold Parser.typeName
  apply here
  apply word.bind
  rintro name rest ⟨t, word, rfl⟩
  split
  next h => exact pure ⟨t, ⟨name, word, h⟩, rfl⟩
  next => exact ⟨nofun⟩

/-! ## Lists -/

theorem commaList {item : Parser α} {spelled : α → List Token → Prop}
    (h : ∀ ts, Ensures item ts (Takes spelled ts)) (what : String) (bound : List Token) :
    Ensures (Parser.commaList item what bound) ts (Takes (fun as front =>
      ∃ list closes, front = list ++ [closes] ∧ Separated spelled as list ∧ closes.Is .rparen) ts) := by
  induction bound generalizing ts with
  | nil => exact unexpected
  | cons _ bound ih =>
      unfold Parser.commaList
      apply (h ts).bind
      rintro a _ ⟨front, rfl, first⟩
      apply accept.bind
      rintro _ _ (⟨rfl, comma, comma_, rfl⟩ | ⟨rfl, -, rfl⟩)
      · apply ih.bind
        rintro as rest ⟨_, rfl, list, closes, rfl, later, closes_⟩
        exact pure ⟨_, by simp, _, _, (List.append_assoc ..).symm, .cons first comma_ later, closes_⟩
      · apply expect.bind
        rintro _ rest ⟨closes, closes_, rfl⟩
        exact pure ⟨_, by simp, front, closes, rfl, .last first, closes_⟩

/-- A list that runs out of its bound has left no tokens. -/
theorem commaChain {item : Parser α} {spelled : α → List Token → Prop}
    (h : ∀ ts, Ensures item ts (Takes spelled ts)) (bound : List Token)
    (enough : ts.length ≤ bound.length) : Ensures (Parser.commaChain item bound) ts fun as rest =>
      rest = [] ∨ Takes (Separated spelled) ts as rest := by
  induction bound generalizing ts with
  | nil => exact pure (.inl (List.length_eq_zero_iff.1 (Nat.le_zero.1 enough)))
  | cons _ bound ih =>
      unfold Parser.commaChain
      apply (h ts).bind
      rintro a _ ⟨front, rfl, first⟩
      apply accept.bind
      rintro _ more (⟨rfl, comma, comma_, rfl⟩ | ⟨rfl, -, rfl⟩)
      · have fewer : more.length ≤ bound.length := by
          simp only [List.length_append, List.length_cons] at enough
          omega
        apply (ih fewer).bind
        rintro as rest (rfl | ⟨list, rfl, later⟩)
        · exact pure (.inl rfl)
        · exact pure (.inr ⟨_, by simp, .cons first comma_ later⟩)
      · exact pure (.inr ⟨front, rfl, .last first⟩)

/-! ## Expressions -/

theorem postfixRest (room : Nat) {e : Expr} :
    Ensures (Parser.postfixRest room e) ts (Takes (fun e' front => Phrase.Suffixes e front e') ts) := by
  induction room generalizing e ts with
  | zero =>
      unfold Parser.postfixRest
      apply peek
      split
      · exact outOfRoom
      · exact outOfRoom
      · exact outOfRoom
      · exact pure ⟨[], rfl, .done⟩
  | succ room ih =>
      unfold Parser.postfixRest
      apply here
      apply peek
      split
      next h =>
          obtain ⟨dot, _, rfl, dot_⟩ := exists_of_kindOf h nofun
          apply advance
          apply word.bind
          rintro fields _ ⟨t, word, rfl⟩
          apply ih.mono
          rintro e' rest ⟨front, rfl, more⟩
          exact ⟨dot :: t :: front, rfl, .select dot_ word more⟩
      next h =>
          obtain ⟨t, _, rfl, step⟩ := exists_of_kindOf h nofun
          apply advance
          apply ih.mono
          rintro e' rest ⟨front, rfl, more⟩
          exact ⟨t :: front, rfl, .step (show t.IsStep true from step) more⟩
      next h =>
          obtain ⟨t, _, rfl, step⟩ := exists_of_kindOf h nofun
          apply advance
          apply ih.mono
          rintro e' rest ⟨front, rfl, more⟩
          exact ⟨t :: front, rfl, .step (show t.IsStep false from step) more⟩
      next => exact pure ⟨[], rfl, .done⟩

mutual

theorem expression (room : Nat) (ts : List Token) :
    Ensures (Parser.expression room) ts (Takes (fun e => (Phrase.expression e).Spelled) ts) := by
  cases room with
  | zero => rw [Parser.expression]; exact outOfRoom
  | succ room =>
      rw [Parser.expression]
      apply (conditional room ts).bind
      rintro target _ ⟨front, rfl, target_⟩
      apply peek
      split
      next => exact pure ⟨front, rfl, .ofConditional target_⟩
      next op h =>
          obtain ⟨s, kind, spelled⟩ := assignOp?_iff.1 h
          obtain ⟨t, _, rfl, equals⟩ := exists_of_kindOf kind nofun
          apply here
          apply advance
          apply (expression room _).bind
          rintro value rest ⟨back, rfl, value_⟩
          exact pure ⟨_, by simp, .assign target_ ⟨s, equals, spelled⟩ value_⟩
termination_by 32 * room

theorem conditional (room : Nat) (ts : List Token) :
    Ensures (Parser.conditional room) ts (Takes (fun e => (Phrase.conditional e).Spelled) ts) := by
  rw [Parser.conditional]
  apply (operation 6 room ts).bind
  rintro cond _ ⟨front, rfl, cond_⟩
  apply peek
  split
  next => exact pure ⟨front, rfl, .ofOperation cond_⟩
  next h =>
      obtain ⟨q, _, rfl, asks⟩ := exists_of_kindOf (Decidable.not_not.1 h) nofun
      apply here
      apply advance
      apply (expression room _).bind
      rintro yes _ ⟨middle, rfl, yes_⟩
      apply expect.bind
      rintro _ _ ⟨colon, divides, rfl⟩
      cases room with
      | zero => exact outOfRoom
      | succ room =>
          apply (conditional room _).bind
          rintro no rest ⟨back, rfl, no_⟩
          exact pure ⟨_, by simp, .ternary cond_ asks yes_ divides no_⟩
termination_by 32 * room + 16

theorem operation (level : Fin 7) (room : Nat) (ts : List Token) :
    Ensures (Parser.operation level room) ts
      (Takes (fun e => (Phrase.operation level e).Spelled) ts) := by
  obtain ⟨level, h⟩ := level
  cases level with
  | zero =>
      rw [Parser.operation]
      apply (unary room ts).mono
      rintro e rest ⟨front, rfl, plain⟩
      exact ⟨front, rfl, .ofUnary plain⟩
  | succ level =>
      rw [Parser.operation]
      apply (operation ⟨level, by omega⟩ room ts).bind
      rintro first _ ⟨front, rfl, first_⟩
      apply (chain ⟨level, by omega⟩ first room _).mono
      rintro e rest ⟨back, rfl, more⟩
      exact ⟨front ++ back, by simp, Phrase.operation_succ_iff.2 ⟨first, front, back, rfl, first_, more⟩⟩
termination_by 32 * room + 2 * level.val + 3

theorem chain (level : Fin 6) (left : Expr) (room : Nat) (ts : List Token) :
    Ensures (Parser.chain level left room) ts
      (Takes (fun e front => Phrase.Chain level left front e) ts) := by
  rw [Parser.chain]
  apply peek
  split
  next => exact pure ⟨[], rfl, .done⟩
  next op h =>
      obtain ⟨⟨s, kind, spelled⟩, own⟩ := BinaryOp.ofSymbol?_iff.1 h
      obtain ⟨t, _, rfl, operator⟩ := exists_of_kindOf kind nofun
      apply here
      apply advance
      apply (operation level.castSucc room _).bind
      rintro right _ ⟨front, rfl, right_⟩
      cases room with
      | zero => exact outOfRoom
      | succ room =>
          apply (chain level _ room _).mono
          rintro e rest ⟨back, rfl, more⟩
          exact ⟨_, by simp, .operator ⟨s, operator, spelled⟩ own right_ more⟩
termination_by 32 * room + 2 * level.val + 4
decreasing_by all_goals grind

theorem unary (room : Nat) (ts : List Token) :
    Ensures (Parser.unary room) ts (Takes (fun e => (Phrase.unary e).Spelled) ts) := by
  rw [Parser.unary]
  apply here
  apply peek
  split
  next h =>
      obtain ⟨t, _, rfl, minus⟩ := exists_of_kindOf h nofun
      apply advance
      apply (nestedUnary room _).bind
      rintro e rest ⟨front, rfl, operand⟩
      exact pure ⟨t :: front, rfl, .neg minus operand⟩
  next h =>
      obtain ⟨t, _, rfl, bang⟩ := exists_of_kindOf h nofun
      apply advance
      apply (nestedUnary room _).bind
      rintro e rest ⟨front, rfl, operand⟩
      exact pure ⟨t :: front, rfl, .not bang operand⟩
  next h =>
      obtain ⟨t, _, rfl, plus⟩ := exists_of_kindOf h nofun
      apply advance
      apply (nestedUnary room _).mono
      rintro e rest ⟨front, rfl, operand⟩
      exact ⟨t :: front, rfl, .plus plus operand⟩
  next h =>
      obtain ⟨t, _, rfl, step⟩ := exists_of_kindOf h nofun
      apply advance
      apply (nestedUnary room _).bind
      rintro e rest ⟨front, rfl, target⟩
      exact pure ⟨t :: front, rfl, .stepBefore (show t.IsStep true from step) target⟩
  next h =>
      obtain ⟨t, _, rfl, step⟩ := exists_of_kindOf h nofun
      apply advance
      apply (nestedUnary room _).bind
      rintro e rest ⟨front, rfl, target⟩
      exact pure ⟨t :: front, rfl, .stepBefore (show t.IsStep false from step) target⟩
  next =>
      apply (primary room ts).bind
      rintro a _ ⟨front, rfl, plain⟩
      apply (postfixRest room).mono
      rintro e rest ⟨back, rfl, suffixes⟩
      exact ⟨front ++ back, by simp, .ofSuffixed (suffixes.spelled (.ofPrimary plain))⟩
termination_by 32 * room + 2

theorem nestedUnary (room : Nat) (ts : List Token) :
    Ensures (Parser.nestedUnary room) ts (Takes (fun e => (Phrase.unary e).Spelled) ts) := by
  cases room with
  | zero => rw [Parser.nestedUnary]; exact outOfRoom
  | succ room => rw [Parser.nestedUnary]; exact unary room ts
termination_by 32 * room

theorem primary (room : Nat) (ts : List Token) :
    Ensures (Parser.primary room) ts (Takes (fun e => (Phrase.primary e).Spelled) ts) := by
  rw [Parser.primary]
  apply here
  apply peek
  split
  next h =>
      obtain ⟨t, _, rfl, kind⟩ := exists_of_kindOf h nofun
      exact advance (pure ⟨[t], rfl, .int kind⟩)
  next h =>
      obtain ⟨t, _, rfl, kind⟩ := exists_of_kindOf h nofun
      exact advance (pure ⟨[t], rfl, .float kind⟩)
  next h =>
      obtain ⟨t, _, rfl, kind⟩ := exists_of_kindOf h nofun
      exact advance (pure ⟨[t], rfl, .trueWord kind⟩)
  next h =>
      obtain ⟨t, _, rfl, kind⟩ := exists_of_kindOf h nofun
      exact advance (pure ⟨[t], rfl, .falseWord kind⟩)
  next h =>
      obtain ⟨t, _, rfl, word⟩ := exists_of_kindOf h nofun
      apply advance
      apply accept.bind
      rintro _ _ (⟨rfl, l, opens, rfl⟩ | ⟨rfl, -, rfl⟩)
      · apply accept.bind
        rintro _ _ (⟨rfl, r, closes, rfl⟩ | ⟨rfl, -, rfl⟩)
        · exact pure ⟨[t, l, r], rfl, .callNone word opens closes⟩
        · apply remaining
          apply (commaList (expression room) _ _).bind
          rintro args rest ⟨_, rfl, list, r, rfl, args_, closes⟩
          exact pure ⟨t :: l :: (list ++ [r]), rfl,
            .call word opens (Phrase.arguments_iff.2 args_) closes⟩
      · exact pure ⟨[t], rfl, .var word⟩
  next h =>
      obtain ⟨l, _, rfl, opens⟩ := exists_of_kindOf h nofun
      apply advance
      apply (expression room _).bind
      rintro e _ ⟨front, rfl, inner⟩
      apply expect.bind
      rintro _ rest ⟨r, closes, rfl⟩
      exact pure ⟨l :: (front ++ [r]), by simp, .parens opens inner closes⟩
  next => exact unexpected
termination_by 32 * room + 1

end

theorem parenthesised {room : Nat} {what what' : String} {f : Expr → Parser β}
    (h : ∀ {l r c front rest}, l.Is .lparen → (Phrase.expression c).Spelled front →
      r.Is .rparen → ts = l :: (front ++ r :: rest) → Ensures (f c) rest R) : Ensures (do
    Parser.expect .lparen what
    let c ← Parser.expression room
    Parser.expect .rparen what'
    f c) ts R := by
  apply expect.bind
  rintro _ _ ⟨l, opens, rfl⟩
  apply (expression room _).bind
  rintro c _ ⟨front, rfl, inner⟩
  apply expect.bind
  rintro _ rest ⟨r, closes, rfl⟩
  exact h opens inner closes rfl

/-! ## Statements -/

theorem declarator (room : Nat) (ts : List Token) :
    Ensures (Parser.declarator room) ts (Takes Declarator.Spelled ts) := by
  unfold Parser.declarator
  apply here
  apply word.bind
  rintro name _ ⟨t, word, rfl⟩
  apply accept.bind
  rintro _ _ (⟨rfl, equals, equals_, rfl⟩ | ⟨rfl, -, rfl⟩)
  · apply (conditional room _).bind
    rintro e rest ⟨front, rfl, value⟩
    exact pure ⟨t :: equals :: front, rfl, .initialised word equals_ value⟩
  · exact pure ⟨[t], rfl, .plain word⟩

theorem declaration (room : Nat) (ts : List Token) :
    Ensures (Parser.declaration room) ts (Takes Stmt.Simple ts) := by
  unfold Parser.declaration
  apply here
  apply optionally.bind
  rintro isConst _ ⟨const, rfl, const_⟩
  apply typeName.bind
  rintro ty _ ⟨t, type, rfl⟩
  apply remaining
  apply (commaChain (declarator room) _ (Nat.le_refl _)).bind
  rintro vars _ (rfl | ⟨list, rfl, list_⟩)
  · apply expect.bind
    rintro _ _ ⟨_, _, impossible⟩
    cases impossible
  · apply expect.bind
    rintro _ rest ⟨semi, ends, rfl⟩
    rw [posOf_append]
    exact pure ⟨_, by simp, .decl const_ type list_ ends⟩

theorem unlessNext {s : Symbol} (room : Nat) :
    Ensures (Parser.unlessNext s room) ts (Takes Phrase.Maybe ts) := by
  unfold Parser.unlessNext
  apply peek
  split
  · exact pure ⟨[], rfl, .none⟩
  · apply (expression room ts).bind
    rintro e rest ⟨front, rfl, value⟩
    exact pure ⟨front, rfl, .some value⟩

theorem expressionStmt (room : Nat) (ts : List Token) :
    Ensures (Parser.expressionStmt room) ts (Takes Stmt.Simple ts) := by
  unfold Parser.expressionStmt
  apply (expression room ts).bind
  rintro e _ ⟨front, rfl, value⟩
  apply expect.bind
  rintro _ rest ⟨semi, ends, rfl⟩
  exact pure ⟨_, by simp, .expr value ends⟩

theorem atDeclaration {f : Bool → Parser β} (h : ∀ b, Ensures (f b) ts R) :
    Ensures (Parser.atDeclaration >>= f) ts R := by
  constructor
  intro a rest run
  change (Parser.atDeclaration ts >>= fun r => f r.1 r.2) = _ at run
  rw [atDeclaration_eq] at run
  exact (h _).of_ok a rest run

theorem forInit (room : Nat) (ts : List Token) :
    Ensures (Parser.forInit room) ts (Takes Stmt.Initial ts) := by
  unfold Parser.forInit
  apply accept.bind
  rintro _ _ (⟨rfl, semi, ends, rfl⟩ | ⟨rfl, -, rfl⟩)
  · exact pure ⟨[semi], rfl, .none ends⟩
  · apply atDeclaration
    intro b
    split
    · apply (declaration room _).mono
      rintro s rest ⟨front, rfl, simple⟩
      exact ⟨front, rfl, .some simple⟩
    · apply (expressionStmt room _).mono
      rintro s rest ⟨front, rfl, simple⟩
      exact ⟨front, rfl, .some simple⟩

theorem blockRest {stmt : Parser Stmt}
    (h : ∀ ts, Ensures stmt ts (Takes (fun s => (Clause.statement s).Spelled) ts))
    (bound : List Token) : Ensures (Parser.blockRest stmt bound) ts (Takes (fun ss front =>
      ∃ list closes, front = list ++ [closes] ∧ (Clause.statements ss).Spelled list ∧
        closes.Is .rbrace) ts) := by
  induction bound generalizing ts with
  | nil => exact unexpected
  | cons _ bound ih =>
      unfold Parser.blockRest
      apply accept.bind
      rintro _ _ (⟨rfl, closes, closes_, rfl⟩ | ⟨rfl, -, rfl⟩)
      · exact pure ⟨[closes], rfl, [], closes, rfl, .nil, closes_⟩
      · apply peek
        split
        · exact unexpected
        · apply (h _).bind
          rintro s _ ⟨front, rfl, first⟩
          apply ih.bind
          rintro ss rest ⟨_, rfl, list, closes, rfl, later, closes_⟩
          exact pure ⟨_, by simp, _, closes, (List.append_assoc ..).symm, .cons first later, closes_⟩

/-- A statement that could still get an `else` is read up to where there is none. -/
theorem statement (room : Nat) (ts : List Token) : Ensures (Parser.statement room) ts fun s rest =>
    Takes (fun s => (Clause.statement s).Spelled) ts s rest ∧
      (s.isOpen = true → kindOf rest ≠ .sym .elseWord) := by
  induction room generalizing ts with
  | zero => exact outOfRoom
  | succ room ih =>
      unfold Parser.statement
      apply here
      apply peek
      split
      next h =>
          obtain ⟨l, _, rfl, opens⟩ := exists_of_kindOf h nofun
          apply advance
          apply remaining
          apply (blockRest (fun ts => (ih ts).mono fun s rest h => h.1) _).bind
          rintro ss rest ⟨_, rfl, list, r, rfl, body, closes⟩
          exact pure ⟨⟨l :: (list ++ [r]), rfl, .block opens body closes⟩, nofun⟩
      next h =>
          obtain ⟨semi, _, rfl, ends⟩ := exists_of_kindOf h nofun
          exact advance (pure ⟨⟨[semi], rfl, .empty ends⟩, nofun⟩)
      next h =>
          obtain ⟨t, _, rfl, word⟩ := exists_of_kindOf h nofun
          apply advance
          apply parenthesised
          rintro l r c front _ opens cond closes rfl
          apply (ih _).bind
          rintro s _ ⟨⟨middle, rfl, yes⟩, ended⟩
          apply accept.bind
          rintro _ _ (⟨rfl, t', word', rfl⟩ | ⟨rfl, last, rfl⟩)
          · have closed : s.isOpen = false := Bool.eq_false_iff.2 fun h => ended h word'
            apply (ih _).bind
            rintro s' rest ⟨⟨back, rfl, no⟩, ended'⟩
            exact pure ⟨⟨_, by simp, .ifElse word opens cond closes yes closed word' no⟩, ended'⟩
          · exact pure ⟨⟨_, by simp, .ifThen word opens cond closes yes⟩, fun _ => last⟩
      next h =>
          obtain ⟨t, _, rfl, word⟩ := exists_of_kindOf h nofun
          apply advance
          apply expect.bind
          rintro _ _ ⟨l, opens, rfl⟩
          apply (forInit room _).bind
          rintro init _ ⟨first, rfl, initial⟩
          apply (unlessNext room).bind
          rintro c _ ⟨second, rfl, cond⟩
          apply expect.bind
          rintro _ _ ⟨semi, divides, rfl⟩
          apply (unlessNext room).bind
          rintro step _ ⟨third, rfl, last⟩
          apply expect.bind
          rintro _ _ ⟨r, closes, rfl⟩
          apply (ih _).bind
          rintro s rest ⟨⟨back, rfl, body⟩, ended⟩
          exact pure ⟨⟨_, by simp, .forLoop word opens initial cond divides last closes body⟩, ended⟩
      next h =>
          obtain ⟨t, _, rfl, word⟩ := exists_of_kindOf h nofun
          apply advance
          apply parenthesised
          rintro l r c front _ opens cond closes rfl
          apply (ih _).bind
          rintro s rest ⟨⟨back, rfl, body⟩, ended⟩
          exact pure ⟨⟨_, by simp, .whileLoop word opens cond closes body⟩, ended⟩
      next h =>
          obtain ⟨t, _, rfl, word⟩ := exists_of_kindOf h nofun
          apply advance
          apply (ih _).bind
          rintro s _ ⟨⟨front, rfl, body⟩, -⟩
          apply expect.bind
          rintro _ _ ⟨t', word', rfl⟩
          apply parenthesised
          rintro l r c back _ opens cond closes rfl
          apply expect.bind
          rintro _ rest ⟨semi, ends, rfl⟩
          exact pure ⟨⟨_, by simp, .doWhile word body word' opens cond closes ends⟩, nofun⟩
      next h =>
          obtain ⟨t, _, rfl, word⟩ := exists_of_kindOf h nofun
          apply advance
          apply expect.bind
          rintro _ rest ⟨semi, ends, rfl⟩
          exact pure ⟨⟨[t, semi], rfl, .breakLoop word ends⟩, nofun⟩
      next h =>
          obtain ⟨t, _, rfl, word⟩ := exists_of_kindOf h nofun
          apply advance
          apply expect.bind
          rintro _ rest ⟨semi, ends, rfl⟩
          exact pure ⟨⟨[t, semi], rfl, .continueLoop word ends⟩, nofun⟩
      next h =>
          obtain ⟨t, _, rfl, word⟩ := exists_of_kindOf h nofun
          apply advance
          apply (unlessNext room).bind
          rintro v _ ⟨front, rfl, value⟩
          apply expect.bind
          rintro _ rest ⟨semi, ends, rfl⟩
          exact pure ⟨⟨_, by simp, .ret word value ends⟩, nofun⟩
      next =>
          have simple {s rest} (h : Takes Stmt.Simple ts s rest) :
              Takes (fun s => (Clause.statement s).Spelled) ts s rest ∧
                (s.isOpen = true → kindOf rest ≠ .sym .elseWord) := by
            obtain ⟨front, rfl, simple⟩ := h
            refine ⟨⟨front, rfl, .simple simple⟩, ?_⟩
            cases simple <;> exact nofun
          apply atDeclaration
          intro b
          split
          · exact (declaration room ts).mono fun s rest h => simple h
          · exact (expressionStmt room ts).mono fun s rest h => simple h

/-! ## Functions -/

theorem param (ts : List Token) : Ensures Parser.param ts (Takes Param.Spelled ts) := by
  unfold Parser.param
  apply optionally.bind
  rintro isStatic _ ⟨static, rfl, static_⟩
  apply optionally.bind
  rintro isConst _ ⟨const, rfl, const_⟩
  apply typeName.bind
  rintro ty _ ⟨t, type, rfl⟩
  apply here
  apply word.bind
  rintro name rest ⟨t', word, rfl⟩
  exact pure ⟨_, by simp, .mk static_ const_ type word⟩

theorem params : Ensures Parser.params ts (Takes (fun ps front =>
    ∃ list closes, front = list ++ [closes] ∧ Param.Between ps list ∧ closes.Is .rparen) ts) := by
  unfold Parser.params
  apply peek
  apply peekSecond
  split
  next h =>
      simp only [Bool.and_eq_true, decide_eq_true_eq] at h
      obtain ⟨t, more, rfl, word⟩ := exists_of_kindOf h.1 nofun
      apply advance
      apply accept.bind
      rintro _ _ (⟨rfl, r, closes, rfl⟩ | ⟨rfl, other, rfl⟩)
      · exact pure ⟨[t, r], rfl, [t], r, rfl, .void word, closes⟩
      · cases more with
        | nil => cases word.symm.trans h.2
        | cons => exact absurd h.2 other
  next =>
      apply accept.bind
      rintro _ _ (⟨rfl, r, closes, rfl⟩ | ⟨rfl, -, rfl⟩)
      · exact pure ⟨[r], rfl, [], r, rfl, .none, closes⟩
      · apply remaining
        apply (commaList param _ _).mono
        rintro ps rest ⟨_, rfl, list, r, rfl, list_, closes⟩
        exact ⟨_, rfl, list, r, rfl, .some list_, closes⟩

theorem kernelTag : Ensures Parser.kernelTag ts (Takes Tag ts) := by
  unfold Parser.kernelTag
  apply accept.bind
  rintro _ _ (⟨rfl, t, kernel, rfl⟩ | ⟨rfl, -, rfl⟩)
  · apply accept.bind
    rintro _ _ (⟨rfl, t', reduce, rfl⟩ | ⟨rfl, -, rfl⟩)
    · exact pure ⟨[t, t'], rfl, .reduce kernel reduce⟩
    · exact pure ⟨[t], rfl, .normal kernel⟩
  · exact pure ⟨[], rfl, .none⟩

theorem functionDef (ts : List Token) :
    Ensures Parser.functionDef ts (Takes FunctionDef.Spelled ts) := by
  unfold Parser.functionDef
  apply here
  apply kernelTag.bind
  rintro kernel _ ⟨tag, rfl, tag_⟩
  apply typeName.bind
  rintro ret _ ⟨t, type, rfl⟩
  apply word.bind
  rintro name _ ⟨t', word, rfl⟩
  apply expect.bind
  rintro _ _ ⟨l, opens, rfl⟩
  apply params.bind
  rintro ps _ ⟨_, rfl, list, r, rfl, params_, closes⟩
  apply expect.bind
  rintro _ _ ⟨l', begins, rfl⟩
  apply remaining
  apply (blockRest (fun ts => (statement _ ts).mono fun s rest h => h.1) _).bind
  rintro body rest ⟨_, rfl, ts', r', rfl, body_, ends⟩
  rw [posOf_append]
  exact pure ⟨_, by simp, .mk tag_ type word opens params_ closes begins body_ ends⟩

theorem functions (bound : List Token) (enough : ts.length ≤ bound.length) :
    Ensures (Parser.functions bound) ts fun fs rest =>
      Takes IsModule ts fs rest ∧ kindOf rest = .stop := by
  induction bound generalizing ts with
  | nil =>
      cases List.length_eq_zero_iff.1 (Nat.le_zero.1 enough)
      exact pure ⟨⟨[], rfl, .nil⟩, rfl⟩
  | cons _ bound ih =>
      unfold Parser.functions
      apply peek
      split
      next h => exact pure ⟨⟨[], rfl, .nil⟩, h⟩
      next =>
          apply (functionDef ts).bind
          rintro f more ⟨front, rfl, first⟩
          have fewer : more.length ≤ bound.length := by
            have := List.length_pos_iff.2 first.ne_nil
            simp only [List.length_append, List.length_cons] at enough
            omega
          apply (ih fewer).bind
          rintro fs rest ⟨⟨back, rfl, later⟩, ended⟩
          exact pure ⟨⟨front ++ back, by simp, .cons first later⟩, ended⟩

end Ensures
end PixelKernel.Language.Parser
