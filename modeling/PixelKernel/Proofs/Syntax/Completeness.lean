import PixelKernel.Proofs.Syntax.Lookahead

/-! # What is spelled is read

Tokens that spell a tree are read as that tree, unless it is nested too deeply, when they are
followed by a token that the tree could not go on with. Proofs go down in the room, as the parsers do,
and at each step take the spelling apart.
-/

namespace PixelKernel.Language

/-- The complaint about too many levels of nesting. -/
def Complaint.TooDeep (c : Complaint) : Prop := ∃ what, c.cause = .tooDeep what Parser.maxNesting

namespace Parser

variable {α β : Type}

/-- The parser makes `a` of the tokens and leaves the rest, or the nesting is too deep. -/
structure Reads (m : Parser α) (ts : List Token) (a : α) (rest : List Token) : Prop where
  run : m ts = .ok (a, rest) ∨ ∃ c : Complaint, m ts = .error c ∧ c.TooDeep

namespace Reads

variable {ts rest : List Token} {a : α} {b : β}

/-! ## Rules -/

theorem pure : Reads (Pure.pure a) ts a ts := ⟨.inl rfl⟩

theorem bind {m : Parser α} {f : α → Parser β} {mid : List Token} (hm : Reads m ts a mid)
    (hf : Reads (f a) mid b rest) : Reads (m >>= f) ts b rest := by
  constructor
  change (m ts >>= fun r => f r.1 r.2) = _ ∨ ∃ c, (m ts >>= fun r => f r.1 r.2) = _ ∧ _
  obtain first | ⟨c, first, deep⟩ := hm.run
  · rw [first]
    exact hf.run
  · rw [first]
    exact .inr ⟨c, rfl, deep⟩

theorem outOfRoom {what : String} : Reads (Parser.outOfRoom what) ts a rest :=
  ⟨.inr ⟨_, rfl, what, rfl⟩⟩

theorem peek {k : Token.Kind} {f : Token.Kind → Parser β} (kind : kindOf ts = k)
    (h : Reads (f k) ts b rest) : Reads (Parser.peek >>= f) ts b rest := by
  subst kind
  exact ⟨h.run⟩

theorem next {t : Token} {k : Token.Kind} {f : Token.Kind → Parser β} (kind : t.kind = k)
    (h : Reads (f k) (t :: ts) b rest) : Reads (Parser.peek >>= f) (t :: ts) b rest := by
  subst kind
  exact ⟨h.run⟩

theorem atDeclaration {declares : Bool} {f : Bool → Parser β}
    (found : (kindOf ts).declares (secondOf ts) = declares) (h : Reads (f declares) ts b rest) :
    Reads (Parser.atDeclaration >>= f) ts b rest := by
  subst found
  exact bind ⟨.inl (atDeclaration_eq ts)⟩ h

theorem peekSecond {f : Token.Kind → Parser β} (h : Reads (f (secondOf ts)) ts b rest) :
    Reads (Parser.peekSecond >>= f) ts b rest := ⟨h.run⟩

theorem here {f : Nat → Parser β} (h : Reads (f (posOf ts)) ts b rest) :
    Reads (Parser.here >>= f) ts b rest := ⟨h.run⟩

theorem remaining {f : List Token → Parser β} (h : Reads (f ts) ts b rest) :
    Reads (Parser.remaining >>= f) ts b rest := ⟨h.run⟩

theorem advance {t : Token} {f : Unit → Parser β} (h : Reads (f ()) ts b rest) :
    Reads (Parser.advance >>= f) (t :: ts) b rest := ⟨h.run⟩

theorem accept {t : Token} {s : Symbol} {f : Bool → Parser β} (symbol : t.Is s)
    (h : Reads (f true) ts b rest) : Reads (Parser.accept s >>= f) (t :: ts) b rest := by
  have taken : Reads (Parser.accept s) (t :: ts) true ts := by
    unfold Parser.accept
    apply next symbol
    rw [if_pos rfl]
    exact advance pure
  exact taken.bind h

theorem refuse {s : Symbol} {f : Bool → Parser β} (other : kindOf ts ≠ .sym s)
    (h : Reads (f false) ts b rest) : Reads (Parser.accept s >>= f) ts b rest := by
  have left : Reads (Parser.accept s) ts false ts := by
    unfold Parser.accept
    apply peek rfl
    rw [if_neg other]
    exact pure
  exact left.bind h

theorem optionally {s : Symbol} {is : Bool} {front : List Token} {f : Bool → Parser β}
    (h : Optionally s is front) (other : kindOf ts ≠ .sym s) (more : Reads (f is) ts b rest) :
    Reads (Parser.accept s >>= f) (front ++ ts) b rest := by
  cases h with
  | absent => exact refuse other more
  | present symbol => exact accept symbol more

theorem expect {t : Token} {s : Symbol} {what : String} (symbol : t.Is s) :
    Reads (Parser.expect s what) (t :: ts) () ts := by
  unfold Parser.expect
  apply next symbol
  rw [if_pos rfl]
  exact ⟨.inl rfl⟩

theorem word {t : Token} {name what : String} (word : t.IsWord name) :
    Reads (Parser.word what) (t :: ts) name ts := by
  unfold Parser.word
  apply next word
  exact advance pure

theorem typeName {t : Token} {ty : Ty} (type : t.IsType ty) :
    Reads Parser.typeName (t :: ts) ty ts := by
  obtain ⟨name, word_, found⟩ := type
  unfold Parser.typeName
  apply here
  apply (word word_).bind
  rw [found]
  exact pure

/-! ## Lists -/

/-- The item is read in front of a comma, and in front of the symbol that ends its list. -/
def Listed (item : Parser α) (spelled : α → List Token → Prop) (ends : Symbol) : Prop :=
  ∀ {a ts t rest}, spelled a ts → t.Is .comma ∨ t.Is ends → Reads item (ts ++ t :: rest) a (t :: rest)

theorem commaList {item : Parser α} {spelled : α → List Token → Prop} {as : List α} {t : Token}
    {what : String} {bound : List Token} (items : Listed item spelled .rparen)
    (list : Separated spelled as ts) (ends : t.Is .rparen) (enough : as.length ≤ bound.length) :
    Reads (Parser.commaList item what bound) (ts ++ t :: rest) as rest := by
  induction list generalizing bound with
  | last only =>
      cases bound with
      | nil => cases enough
      | cons =>
          apply (items only (.inr ends)).bind
          apply refuse fun comma => by cases ends.symm.trans comma
          apply (expect ends).bind
          exact pure
  | cons first comma_ later ih =>
      cases bound with
      | nil => cases enough
      | cons =>
          rw [List.append_assoc]
          apply (items first (.inl comma_)).bind
          apply accept comma_
          apply (ih (Nat.le_of_succ_le_succ enough)).bind
          exact pure

theorem commaChain {item : Parser α} {spelled : α → List Token → Prop} {as : List α} {t : Token}
    {bound : List Token} (items : Listed item spelled .semi)
    (list : Separated spelled as ts) (ends : t.Is .semi) (enough : as.length ≤ bound.length) :
    Reads (Parser.commaChain item bound) (ts ++ t :: rest) as (t :: rest) := by
  induction list generalizing bound with
  | last only =>
      cases bound with
      | nil => cases enough
      | cons =>
          apply (items only (.inr ends)).bind
          apply refuse fun comma => by cases ends.symm.trans comma
          exact pure
  | cons first comma_ later ih =>
      cases bound with
      | nil => cases enough
      | cons =>
          rw [List.append_assoc]
          apply (items first (.inl comma_)).bind
          apply accept comma_
          apply (ih (Nat.le_of_succ_le_succ enough)).bind
          exact pure

/-! ## Expressions -/

theorem postfixRest {a e : Expr} (h : Phrase.Suffixes a ts e) (after : 1 < (kindOf rest).rank)
    (room : Nat) : Reads (Parser.postfixRest room a) (ts ++ rest) e rest := by
  induction h generalizing room with
  | done =>
      rw [List.nil_append]
      cases room with
      | zero | succ =>
          unfold Parser.postfixRest
          try apply here
          apply peek rfl
          split
          case h_4 => exact pure
          all_goals next more => rw [more] at after; exact absurd after (by decide)
  | select dot word_ _ ih =>
      cases room with
      | zero => exact next dot outOfRoom
      | succ room =>
          apply here
          apply next dot
          apply advance
          apply (word word_).bind
          exact ih room
  | @step _ _ _ increment _ step _ ih =>
      cases room with
      | zero =>
          cases increment with
          | true | false => exact next step outOfRoom
      | succ room =>
          apply here
          cases increment with
          | true | false =>
              apply next step
              apply advance
              exact ih room

mutual

theorem expression {e : Expr} {ts rest : List Token} (h : (Phrase.expression e).Spelled ts)
    (after : 9 < (kindOf rest).rank) (room : Nat) :
    Reads (Parser.expression room) (ts ++ rest) e rest := by
  cases room with
  | zero => rw [Parser.expression]; exact outOfRoom
  | succ room =>
      rw [Parser.expression]
      cases h with
      | ofConditional plain =>
          apply (conditional plain (Nat.lt_of_succ_lt after) room).bind
          apply peek rfl
          split
          next => exact pure
          next op assigns => exact absurd (Token.rank_of_assignOp? assigns) (Nat.ne_of_gt after)
      | assign target equals value =>
          rw [List.append_assoc]
          apply (conditional target (equals.follow _) room).bind
          apply next rfl
          rw [equals.assignOp?]
          apply here
          apply advance
          apply (expression value after room).bind
          exact pure
termination_by 32 * room

theorem conditional {e : Expr} {ts rest : List Token} (h : (Phrase.conditional e).Spelled ts)
    (after : 8 < (kindOf rest).rank) (room : Nat) :
    Reads (Parser.conditional room) (ts ++ rest) e rest := by
  rw [Parser.conditional]
  cases h with
  | ofOperation plain =>
      apply (operation 6 room plain (Nat.lt_of_succ_lt after)).bind
      apply peek rfl
      rw [if_pos (Token.Kind.ne_of_rank after rfl)]
      exact pure
  | ternary cond asks yes divides no =>
      simp only [List.append_assoc, List.cons_append]
      apply (operation 6 room cond (asks.follow (by decide) _)).bind
      apply next asks
      rw [if_neg (by simp)]
      apply here
      apply advance
      apply (expression yes (divides.follow (by decide) _) room).bind
      apply (expect divides).bind
      cases room with
      | zero => exact outOfRoom
      | succ room =>
          apply (conditional no after room).bind
          exact pure
termination_by 32 * room + 16

theorem operation {e : Expr} {ts rest : List Token} (level : Fin 7) (room : Nat) :
    (Phrase.operation level e).Spelled ts → level + 1 < (kindOf rest).rank →
      Reads (Parser.operation level room) (ts ++ rest) e rest := by
  obtain ⟨level, bound⟩ := level
  intro h after
  cases level with
  | zero =>
      rw [Parser.operation]
      cases h with
      | ofUnary plain => exact unary plain after room
  | succ level =>
      rw [Parser.operation]
      obtain ⟨a, front, back, rfl, first, more⟩ := Phrase.operation_succ_iff.1 h
      rw [List.append_assoc]
      apply (operation ⟨level, by omega⟩ room first (more.follow after)).bind
      exact chain ⟨level, by omega⟩ more after room
termination_by 32 * room + 2 * level.val + 3

theorem chain {a e : Expr} {ts rest : List Token} (level : Fin 6) (h : Phrase.Chain level a ts e)
    (after : level + 2 < (kindOf rest).rank) (room : Nat) :
    Reads (Parser.chain level a room) (ts ++ rest) e rest := by
  rw [Parser.chain]
  cases h with
  | done =>
      apply peek rfl
      split
      next => exact pure
      next op operator => exact absurd (Token.rank_of_ofSymbol? operator) (Nat.ne_of_gt after)
  | operator operator own right more =>
      rw [List.cons_append, List.append_assoc]
      apply next rfl
      rw [operator.ofSymbol? own]
      apply here
      apply advance
      apply (operation level.castSucc room right (more.follow after)).bind
      cases room with
      | zero => exact outOfRoom
      | succ room => exact chain level more after room
termination_by 32 * room + 2 * level.val + 4
decreasing_by all_goals grind

theorem unary {e : Expr} {ts rest : List Token} (h : (Phrase.unary e).Spelled ts) (after : 1 < (kindOf rest).rank)
    (room : Nat) : Reads (Parser.unary room) (ts ++ rest) e rest := by
  rw [Parser.unary]
  apply here
  cases h with
  | ofSuffixed plain =>
      have atom := plain.isAtom ⟨_, .inr rfl⟩
      rw [← Phrase.kindOf_append plain.ne_nil rest] at atom
      obtain ⟨a, front, back, rfl, first, more⟩ := Phrase.suffixed_iff.1 plain
      apply peek rfl
      split
      case h_6 =>
          rw [List.append_assoc]
          apply (primary first (more.follow after) room).bind
          exact postfixRest more after room
      all_goals next sign => rw [sign] at atom; cases atom
  | neg sign operand =>
      apply next sign
      apply advance
      apply (nestedUnary operand after room).bind
      exact pure
  | not sign operand =>
      apply next sign
      apply advance
      apply (nestedUnary operand after room).bind
      exact pure
  | plus sign operand =>
      apply next sign
      apply advance
      exact nestedUnary operand after room
  | @stepBefore _ _ _ increment step target =>
      cases increment with
      | true | false =>
          apply next step
          apply advance
          apply (nestedUnary target after room).bind
          exact pure
termination_by 32 * room + 2

theorem nestedUnary {e : Expr} {ts rest : List Token} (h : (Phrase.unary e).Spelled ts) (after : 1 < (kindOf rest).rank)
    (room : Nat) : Reads (Parser.nestedUnary room) (ts ++ rest) e rest := by
  cases room with
  | zero => rw [Parser.nestedUnary]; exact outOfRoom
  | succ room => rw [Parser.nestedUnary]; exact unary h after room
termination_by 32 * room

theorem primary {e : Expr} {ts rest : List Token} (h : (Phrase.primary e).Spelled ts) (after : 0 < (kindOf rest).rank)
    (room : Nat) : Reads (Parser.primary room) (ts ++ rest) e rest := by
  rw [Parser.primary]
  apply here
  cases h with
  | int kind | float kind | trueWord kind | falseWord kind =>
      apply next kind
      exact advance pure
  | var word =>
      apply next word
      apply advance
      apply refuse (Token.Kind.ne_of_rank after rfl)
      exact pure
  | callNone word opens closes =>
      apply next word
      apply advance
      apply accept opens
      exact accept closes pure
  | call word opens args closes =>
      simp only [List.cons_append, List.append_assoc]
      apply next word
      apply advance
      apply accept opens
      apply refuse (args.kindOf_ne (by decide) _)
      apply remaining
      have list := Phrase.arguments_iff.1 args
      apply (commaList _ list closes (list.length_le ..)).bind
      · exact pure
      · intro e ts t rest plain ends
        exact expression plain (ends.elim (·.follow (by decide) _) (·.follow (by decide) _)) room
  | parens opens inner closes =>
      simp only [List.cons_append, List.append_assoc]
      apply next opens
      apply advance
      apply (expression inner (closes.follow (by decide) _) room).bind
      apply (expect closes).bind
      exact pure
termination_by 32 * room + 1

end

theorem parenthesised {l r : Token} {c : Expr} {more : List Token} {room : Nat}
    {what what' : String} {f : Expr → Parser β} (opens : l.Is .lparen)
    (inner : (Phrase.expression c).Spelled ts) (closes : r.Is .rparen)
    (h : Reads (f c) more b rest) : Reads (do
    Parser.expect .lparen what
    let c ← Parser.expression room
    Parser.expect .rparen what'
    f c) (l :: (ts ++ r :: more)) b rest := by
  apply (expect opens).bind
  apply (expression inner (closes.follow (by decide) _) room).bind
  apply (expect closes).bind
  exact h

/-! ## Statements -/

theorem declarator {v : Declarator} (h : v.Spelled ts) {t : Token}
    (ends : t.Is .comma ∨ t.Is .semi) (room : Nat) :
    Reads (Parser.declarator room) (ts ++ t :: rest) v (t :: rest) := by
  unfold Parser.declarator
  apply here
  cases h with
  | plain name =>
      apply (word name).bind
      apply refuse
      · intro assigns
        cases ends with
        | inl symbol | inr symbol => cases symbol.symm.trans assigns
      · exact pure
  | initialised name equals value =>
      apply (word name).bind
      apply accept equals
      apply (conditional value (ends.elim (·.follow (by decide) _) (·.follow (by decide) _)) room).bind
      exact pure

theorem declaration {pos : Nat} {ty : Ty} {isConst : Bool} {vars : List Declarator}
    (h : (Stmt.decl pos ty isConst vars).Simple ts) (room : Nat) :
    Reads (Parser.declaration room) (ts ++ rest) (.decl pos ty isConst vars) rest := by
  cases h with
  | decl const_ type list ends =>
      simp only [List.append_assoc, List.cons_append, List.nil_append]
      unfold Parser.declaration
      apply here
      apply optionally const_ (type.kindOf_ne _)
      apply (typeName type).bind
      apply remaining
      apply (commaChain (fun h ends => declarator h ends room) list ends (list.length_le ..)).bind
      apply (expect ends).bind
      rw [posOf_append]
      exact pure

theorem expressionStmt {e : Expr} (h : (Stmt.expr e).Simple ts) (room : Nat) :
    Reads (Parser.expressionStmt room) (ts ++ rest) (.expr e) rest := by
  cases h with
  | expr value ends =>
      rw [List.append_assoc]
      apply (expression value (ends.follow (by decide) _) room).bind
      apply (expect ends).bind
      exact pure

theorem simple {s : Stmt} (h : s.Simple ts) (room : Nat) : Reads (do
    if ← Parser.atDeclaration then Parser.declaration room else Parser.expressionStmt room)
    (ts ++ rest) s rest := by
  cases h with
  | decl const_ type list ends =>
      have h := Stmt.Simple.decl const_ type list ends
      apply atDeclaration (h.declares rest)
      exact declaration h room
  | expr value ends =>
      have h := Stmt.Simple.expr value ends
      have other := value.not_declares ends.isWord rest
      rw [List.append_cons] at other
      apply atDeclaration other
      exact expressionStmt h room

theorem forInit {s : Stmt} (h : s.Initial ts) (room : Nat) :
    Reads (Parser.forInit room) (ts ++ rest) s rest := by
  cases h with
  | none ends => exact accept ends pure
  | some simple_ => exact refuse (simple_.kindOf_ne (by decide) _) (simple simple_ room)

theorem unlessNext {s : Symbol} {v : Option Expr} {t : Token} (h : Phrase.Maybe v ts) (ends : t.Is s)
    (other : (Token.Kind.sym s).isAtom = false ∧ (Token.Kind.sym s).isSign = false)
    (low : 9 < (Token.Kind.sym s).rank) (room : Nat) :
    Reads (Parser.unlessNext s room) (ts ++ t :: rest) v (t :: rest) := by
  unfold Parser.unlessNext
  cases h with
  | none =>
      apply next ends
      rw [if_pos rfl]
      exact pure
  | some value =>
      apply peek rfl
      rw [if_neg (value.kindOf_ne other _)]
      apply (expression value (ends.follow low _) room).bind
      exact pure

theorem blockRest {stmt : Parser Stmt} {ss : List Stmt} {t : Token} {bound : List Token}
    (stmts : ∀ {s ts rest}, (Clause.statement s).Spelled ts → kindOf rest ≠ .sym .elseWord →
      Reads stmt (ts ++ rest) s rest)
    (h : (Clause.statements ss).Spelled ts) (closes : t.Is .rbrace)
    (enough : ss.length < bound.length) :
    Reads (Parser.blockRest stmt bound) (ts ++ t :: rest) ss rest := by
  induction bound generalizing ss ts with
  | nil => cases enough
  | cons _ bound ih =>
      cases h with
      | nil => exact accept closes pure
      | @cons s ss front back first later =>
          rw [List.append_assoc]
          apply refuse (first.kindOf_ne (.inr (.inl rfl)) _)
          apply peek rfl
          rw [if_neg (first.kindOf_ne (.inr (.inr rfl)) _)]
          apply (stmts first _).bind
          · apply (ih later (Nat.lt_of_succ_lt_succ enough)).bind
            exact pure
          · cases later with
            | nil => exact fun h => by cases closes.symm.trans h
            | cons second =>
                rw [List.append_assoc]
                exact second.kindOf_ne (.inl rfl) _

/-- An `if` that could still get an `else` must not be followed by one. -/
theorem statement {s : Stmt} (h : (Clause.statement s).Spelled ts)
    (ended : s.isOpen = true → kindOf rest ≠ .sym .elseWord) (room : Nat) :
    Reads (Parser.statement room) (ts ++ rest) s rest := by
  induction room generalizing s ts rest with
  | zero => exact outOfRoom
  | succ room ih =>
      unfold Parser.statement
      apply here
      cases h with
      | simple simple_ =>
          apply peek rfl
          split
          case h_10 => exact simple simple_ room
          all_goals next begins => exact absurd begins (simple_.kindOf_ne (by decide) _)
      | empty ends =>
          apply next ends
          exact advance pure
      | block opens body closes =>
          simp only [List.append_assoc, List.cons_append, List.nil_append]
          apply next opens
          apply advance
          apply remaining
          apply (blockRest (fun h last => ih h fun _ => last) body closes _).bind
          · exact pure
          · have := body.length_le
            simp only [List.length_append, List.length_cons]
            omega
      | ifThen word_ opens cond closes yes =>
          simp only [List.append_assoc, List.cons_append]
          apply next word_
          apply advance
          apply parenthesised opens cond closes
          apply (ih yes fun _ => ended rfl).bind
          apply refuse (ended rfl)
          exact pure
      | ifElse word_ opens cond closes yes closed other no =>
          simp only [List.append_assoc, List.cons_append]
          apply next word_
          apply advance
          apply parenthesised opens cond closes
          apply (ih yes fun isOpen => by rw [closed] at isOpen; cases isOpen).bind
          apply accept other
          apply (ih no ended).bind
          exact pure
      | forLoop word_ opens initial cond divides last closes body =>
          simp only [List.append_assoc, List.cons_append]
          apply next word_
          apply advance
          apply (expect opens).bind
          apply (forInit initial room).bind
          apply (unlessNext cond divides (by decide) (by decide) room).bind
          apply (expect divides).bind
          apply (unlessNext last closes (by decide) (by decide) room).bind
          apply (expect closes).bind
          apply (ih body ended).bind
          exact pure
      | whileLoop word_ opens cond closes body =>
          simp only [List.append_assoc, List.cons_append]
          apply next word_
          apply advance
          apply parenthesised opens cond closes
          apply (ih body ended).bind
          exact pure
      | doWhile word_ body again opens cond closes ends =>
          simp only [List.append_assoc, List.cons_append, List.nil_append]
          apply next word_
          apply advance
          apply (ih body fun _ h => by cases again.symm.trans h).bind
          apply (expect again).bind
          apply parenthesised opens cond closes
          apply (expect ends).bind
          exact pure
      | breakLoop word_ ends | continueLoop word_ ends =>
          apply next word_
          apply advance
          apply (expect ends).bind
          exact pure
      | ret word_ value ends =>
          simp only [List.append_assoc, List.cons_append, List.nil_append]
          apply next word_
          apply advance
          apply (unlessNext value ends (by decide) (by decide) room).bind
          apply (expect ends).bind
          exact pure

/-! ## Functions -/

theorem param {p : Param} (h : p.Spelled ts) : Reads Parser.param (ts ++ rest) p rest := by
  obtain ⟨static_, const_, type, name⟩ := h
  simp only [List.append_assoc, List.cons_append, List.nil_append]
  unfold Parser.param
  apply optionally static_
  · cases const_ with
    | present symbol => exact fun h => by cases symbol.symm.trans h
    | absent => exact type.kindOf_ne _
  · apply optionally const_ (type.kindOf_ne _)
    apply (typeName type).bind
    apply here
    apply (word name).bind
    exact pure

theorem params {ps : List Param} {t : Token} (h : Param.Between ps ts) (closes : t.Is .rparen) :
    Reads Parser.params (ts ++ t :: rest) ps rest := by
  unfold Parser.params
  cases h with
  | none =>
      apply next closes
      apply peekSecond
      exact accept closes pure
  | void void =>
      apply next void
      apply peekSecond
      rw [if_pos (by simp [show secondOf (_ :: t :: rest) = _ from closes])]
      apply advance
      exact accept closes pure
  | some list =>
      obtain ⟨p, front, back, first, rfl⟩ := list.exists_first
      apply peek rfl
      apply peekSecond
      rw [if_neg (by rw [List.append_assoc]; simpa using first.not_void _)]
      apply refuse (by rw [List.append_assoc]; exact first.kindOf_ne _)
      apply remaining
      exact commaList (fun h _ => param h) list closes (list.length_le ..)

theorem kernelTag {kernel : Option Target} {tag : List Token} {t : Token} (h : Tag kernel tag)
    (name : t.kind.isWord = true) : Reads Parser.kernelTag (tag ++ t :: rest) kernel (t :: rest) := by
  have other (s : Symbol) : kindOf (t :: rest) ≠ .sym s := Token.Kind.ne_of_isWord name
  cases h with
  | none => exact refuse (other _) pure
  | normal kernel => exact accept kernel (refuse (other _) pure)
  | reduce kernel reduce => exact accept kernel (accept reduce pure)

theorem functionDef {f : FunctionDef} (h : f.Spelled ts) :
    Reads Parser.functionDef (ts ++ rest) f rest := by
  obtain ⟨tag, type, name, opens, params_, closes, begins, body, ends⟩ := h
  simp only [List.append_assoc, List.cons_append, List.nil_append]
  unfold Parser.functionDef
  apply here
  apply (kernelTag tag type.isWord).bind
  apply (typeName type).bind
  apply (word name).bind
  apply (expect opens).bind
  apply (params params_ closes).bind
  apply (expect begins).bind
  apply remaining
  apply (blockRest (fun h last => statement h (fun _ => last) _) body ends _).bind
  · rw [posOf_append]
    exact pure
  · have := body.length_le
    simp only [List.length_append, List.length_cons]
    omega

theorem functions {fs : List FunctionDef} (h : IsModule fs ts) {bound : List Token}
    (enough : fs.length ≤ bound.length) (ends : kindOf rest = .stop) :
    Reads (Parser.functions bound) (ts ++ rest) fs rest := by
  induction bound generalizing ts fs with
  | nil =>
      cases List.length_eq_zero_iff.1 (Nat.le_zero.1 enough)
      cases h
      exact pure
  | cons _ bound ih =>
      unfold Parser.functions
      cases h with
      | nil =>
          apply peek ends
          exact pure
      | cons first later =>
          rw [List.append_assoc]
          apply peek rfl
          rw [if_neg (first.kindOf_ne _)]
          apply (functionDef first).bind
          apply (ih later (Nat.le_of_succ_le_succ enough)).bind
          exact pure

end Reads
end Parser
end PixelKernel.Language
