import PixelKernel.Proofs.Syntax.Grammar

/-! # What the next tokens tell

A parser decides by the next token, and in one place by the next two. The first token of a phrase
tells what kind of phrase begins; the token behind it tells where the phrase ends.
-/

namespace PixelKernel.Language

open PixelKernel.Language.Parser (kindOf)

/-! ## Spellings -/

def Symbol.all : List Symbol :=
  Symbol.keywords ++ [.lparen, .rparen, .lbrace, .rbrace, .comma, .semi, .dot, .plus, .minus, .star,
    .slash, .plusPlus, .minusMinus, .assign, .plusAssign, .minusAssign, .starAssign, .slashAssign,
    .bang, .eqEq, .ne, .lt, .le, .gt, .ge, .andAnd, .orOr, .question, .colon]

theorem Symbol.find?_all (s : Symbol) : Symbol.all.find? (·.spelling == s.spelling) = some s := by
  cases s <;> rfl

/-- No two symbols are spelled alike. -/
theorem Symbol.spelling_inj {s s' : Symbol} (h : s.spelling = s'.spelling) : s = s' := by
  have found := Symbol.find?_all s
  rw [h, Symbol.find?_all s'] at found
  exact (Option.some.inj found).symm

/-- The table of binary operators is that of their spellings and levels. -/
theorem BinaryOp.ofSymbol?_iff {level : Nat} {k : Token.Kind} {op : BinaryOp} :
    ofSymbol? (level + 1) k = some op ↔
      (∃ s, k = .sym s ∧ s.spelling = op.spelling) ∧ op.level = level + 1 := by
  constructor
  · intro h
    unfold ofSymbol? at h
    split at h
    all_goals cases h
    all_goals refine ⟨⟨_, rfl, rfl⟩, ?_⟩
    all_goals next own => exact own.symm
  · rintro ⟨⟨s, rfl, spelled⟩, own⟩
    rw [← own]
    have symbol (s' : Symbol) (alike : s'.spelling = op.spelling) : s = s' :=
      Symbol.spelling_inj (spelled.trans alike.symm)
    cases op with
    | arith op => cases op with
      | mul => rw [symbol .star rfl]; rfl
      | div => rw [symbol .slash rfl]; rfl
      | add => rw [symbol .plus rfl]; rfl
      | sub => rw [symbol .minus rfl]; rfl
    | order op => cases op with
      | eq => rw [symbol .eqEq rfl]; rfl
      | ne => rw [symbol .ne rfl]; rfl
      | lt => rw [symbol .lt rfl]; rfl
      | le => rw [symbol .le rfl]; rfl
      | gt => rw [symbol .gt rfl]; rfl
      | ge => rw [symbol .ge rfl]; rfl
    | logic op => cases op with
      | and => rw [symbol .andAnd rfl]; rfl
      | or => rw [symbol .orOr rfl]; rfl

theorem assignOp?_iff {k : Token.Kind} {op : Option ArithOp} : assignOp? k = some op ↔
    ∃ s, k = .sym s ∧ s.spelling = (op.map ArithOp.spelling).getD "" ++ "=" := by
  constructor
  · intro h
    unfold assignOp? at h
    split at h
    all_goals cases h
    all_goals exact ⟨_, rfl, rfl⟩
  · rintro ⟨s, rfl, spelled⟩
    have symbol (s' : Symbol) (alike : s'.spelling = (op.map ArithOp.spelling).getD "" ++ "=") :
        s = s' := Symbol.spelling_inj (spelled.trans alike.symm)
    cases op with
    | none => rw [symbol .assign rfl]; rfl
    | some op => cases op with
      | mul => rw [symbol .starAssign rfl]; rfl
      | div => rw [symbol .slashAssign rfl]; rfl
      | add => rw [symbol .plusAssign rfl]; rfl
      | sub => rw [symbol .minusAssign rfl]; rfl

/-! ## Where a phrase ends -/

/-- The tightest phrase that the token goes on with, when it stands behind one. -/
def Token.Kind.rank : Token.Kind → Nat
  | .sym .lparen => 0
  | .sym .dot | .sym .plusPlus | .sym .minusMinus => 1
  | .sym .star | .sym .slash => 2
  | .sym .plus | .sym .minus => 3
  | .sym .lt | .sym .le | .sym .gt | .sym .ge => 4
  | .sym .eqEq | .sym .ne => 5
  | .sym .andAnd => 6
  | .sym .orOr => 7
  | .sym .question => 8
  | .sym .assign | .sym .plusAssign | .sym .minusAssign | .sym .starAssign | .sym .slashAssign => 9
  | _ => 10

namespace Token

variable {t : Token} {k : Kind}

theorem rank_of_ofSymbol? {level : Nat} {op : BinaryOp}
    (h : BinaryOp.ofSymbol? level k = some op) : k.rank = level + 1 := by
  unfold BinaryOp.ofSymbol? at h
  split at h
  all_goals first | rfl | cases h

theorem rank_of_assignOp? {op : Option ArithOp} (h : assignOp? k = some op) : k.rank = 9 := by
  unfold assignOp? at h
  split at h
  all_goals first | rfl | cases h

theorem IsOperator.ofSymbol? {level : Nat} {op : BinaryOp} (h : t.IsOperator op)
    (own : op.level = level + 1) : BinaryOp.ofSymbol? (level + 1) t.kind = some op :=
  BinaryOp.ofSymbol?_iff.2 ⟨h, own⟩

theorem IsOperator.rank {op : BinaryOp} (h : t.IsOperator op) : t.kind.rank = op.level + 1 := by
  obtain ⟨level, own⟩ : ∃ level, op.level = level + 1 :=
    Nat.exists_eq_add_one.2 (by unfold BinaryOp.level; split <;> decide)
  rw [rank_of_ofSymbol? (h.ofSymbol? own), own]

theorem IsAssignment.assignOp? {op : Option ArithOp} (h : t.IsAssignment op) :
    assignOp? t.kind = some op := assignOp?_iff.2 h

theorem IsAssignment.rank {op : Option ArithOp} (h : t.IsAssignment op) : t.kind.rank = 9 :=
  rank_of_assignOp? h.assignOp?

theorem IsStep.rank {increment : Bool} (h : t.IsStep increment) : t.kind.rank = 1 := by
  unfold IsStep Is at h
  rw [h]
  cases increment <;> rfl

end Token

/-! ## Where a phrase begins -/

/-- The first token of what has no operator before it. -/
def Token.Kind.isAtom : Token.Kind → Bool
  | .int _ | .float _ | .word _ | .sym .trueWord | .sym .falseWord | .sym .lparen => true
  | _ => false

/-- An operator that stands before its operand. -/
def Token.Kind.isSign : Token.Kind → Bool
  | .sym .minus | .sym .bang | .sym .plus | .sym .plusPlus | .sym .minusMinus => true
  | _ => false

def Token.Kind.isWord : Token.Kind → Bool
  | .word _ => true
  | _ => false

theorem Token.Is.isWord {t : Token} {s : Symbol} (h : t.Is s) : t.kind.isWord = false := by
  rw [h]
  rfl

theorem Token.IsStep.isWord {t : Token} {increment : Bool} (h : t.IsStep increment) :
    t.kind.isWord = false := Is.isWord h

/-! ## Two tokens -/

/-- Kind of the token after the next one; the last token is not left behind. -/
def Parser.secondOf : List Token → Token.Kind
  | _ :: t :: _ => t.kind
  | ts => kindOf ts

theorem Parser.secondOf_append {ts : List Token} (some_ : ts ≠ []) (t : Token) (rest : List Token) :
    secondOf (ts ++ t :: rest) = kindOf (ts ++ t :: rest).tail := by
  obtain ⟨first, more, rfl⟩ := List.exists_cons_of_ne_nil some_
  cases more <;> rfl

theorem Parser.posOf_append (ts : List Token) (t : Token) (rest : List Token) :
    posOf (ts ++ t :: rest) = posOf (ts ++ [t]) := by
  cases ts <;> rfl

open PixelKernel.Language.Parser (secondOf secondOf_append)

/-- How a declaration begins. -/
def Token.Kind.declares : Token.Kind → Token.Kind → Bool
  | .sym .constWord, _ => true
  | .word name, .word _ => (Ty.ofName? name).isSome
  | _, _ => false

theorem Parser.atDeclaration_eq (ts : List Token) :
    Parser.atDeclaration ts = .ok ((kindOf ts).declares (secondOf ts), ts) := by
  change (match kindOf ts, secondOf ts with
    | .sym .constWord, _ => (pure true : Parser Bool)
    | .word name, .word _ => pure (Ty.ofName? name).isSome
    | _, _ => pure false) ts = _
  generalize kindOf ts = first
  generalize secondOf ts = second
  unfold Token.Kind.declares
  split <;> rfl

/-- Two words do not stand side by side at the beginning. -/
def Single (ts : List Token) : Prop := (kindOf ts).isWord = true → (kindOf ts.tail).isWord = false

namespace Phrase

theorem Spelled.ne_nil {p : Phrase} {ts : List Token} (h : p.Spelled ts) : ts ≠ [] := by
  induction h with
  | select | stepAfter | binary | ternary | assign | argument => simp
  | ofPrimary _ ih | ofSuffixed _ ih | ofUnary _ ih | tighter _ ih | ofOperation _ ih
  | ofConditional _ ih | lastArgument _ ih => exact ih
  | _ => exact List.cons_ne_nil _ _

theorem kindOf_append {ts : List Token} (some_ : ts ≠ []) (rest : List Token) :
    kindOf (ts ++ rest) = kindOf ts := by
  obtain ⟨t, more, rfl⟩ := List.exists_cons_of_ne_nil some_
  rfl

theorem kindOf_cons {P : Token.Kind → Bool} {t : Token} {k : Token.Kind} (kind : t.kind = k)
    (h : P k = true) (ts : List Token) : P (kindOf (t :: ts)) = true := by
  subst kind
  exact h

/-- Nothing stands before what is selected from, or counted. -/
theorem Spelled.isAtom {p : Phrase} {ts : List Token} (h : p.Spelled ts) :
    (∃ e, p = primary e ∨ p = suffixed e) → (kindOf ts).isAtom = true := by
  intro plain
  induction h with
  | int kind | float kind | trueWord kind | falseWord kind | var kind | callNone kind | call kind
  | parens kind => exact kindOf_cons kind rfl _
  | ofPrimary _ ih => exact ih ⟨_, .inl rfl⟩
  | select base _ _ ih => rw [kindOf_append base.ne_nil]; exact ih ⟨_, .inr rfl⟩
  | stepAfter target _ ih => rw [kindOf_append target.ne_nil]; exact ih ⟨_, .inr rfl⟩
  | _ => simp at plain

theorem Spelled.isAtom_or_isSign {p : Phrase} {ts : List Token} (h : p.Spelled ts) :
    (kindOf ts).isAtom = true ∨ (kindOf ts).isSign = true := by
  induction h with
  | int kind | float kind | trueWord kind | falseWord kind | var kind | callNone kind | call kind
  | parens kind => exact .inl (kindOf_cons kind rfl _)
  | neg kind | not kind | plus kind => exact .inr (kindOf_cons kind rfl _)
  | @stepBefore _ _ _ increment step => exact .inr (kindOf_cons step (by cases increment <;> rfl) _)
  | ofPrimary _ ih | ofSuffixed _ ih | ofUnary _ ih | tighter _ ih | ofOperation _ ih
  | ofConditional _ ih | lastArgument _ ih => exact ih
  | select first _ _ ih | stepAfter first _ ih | binary first _ _ _ ih | ternary first _ _ _ _ ih
  | assign first _ _ ih | argument first _ _ ih => rwa [kindOf_append first.ne_nil]

theorem Spelled.kindOf_ne {p : Phrase} {ts : List Token} {k : Token.Kind} (h : p.Spelled ts)
    (other : k.isAtom = false ∧ k.isSign = false) (rest : List Token) :
    kindOf (ts ++ rest) ≠ k := by
  rintro rfl
  rw [kindOf_append h.ne_nil] at other
  have first := h.isAtom_or_isSign
  rw [other.1, other.2] at first
  cases first <;> contradiction

theorem single_of_symbol {t : Token} {s : Symbol} (h : t.Is s) (ts : List Token) :
    Single (t :: ts) := by
  intro word
  rw [show (kindOf (t :: ts)).isWord = false from h.isWord] at word
  cases word

/-- A word inside an expression has no word next to it. -/
theorem Spelled.single {p : Phrase} {ts : List Token} (h : p.Spelled ts) :
    ∀ {rest}, (kindOf rest).isWord = false → Single (ts ++ rest) := by
  induction h with
  | int | float | trueWord | falseWord | var => exact fun apart _ => apart
  | callNone _ opens | call _ opens => exact fun _ _ => opens.isWord
  | parens sign | neg sign | not sign | plus sign | stepBefore sign =>
      exact fun _ => single_of_symbol sign _
  | ofPrimary _ ih | ofSuffixed _ ih | ofUnary _ ih | tighter _ ih | ofOperation _ ih
  | ofConditional _ ih | lastArgument _ ih => exact ih
  | select _ sign _ ih | stepAfter _ sign ih | ternary _ sign _ _ _ ih | argument _ sign _ ih =>
      intro rest _
      rw [List.append_assoc]
      exact ih sign.isWord
  | binary _ operator _ _ ih | assign _ operator _ ih =>
      obtain ⟨s, sign, _⟩ := operator
      intro rest _
      rw [List.append_assoc]
      exact ih sign.isWord

/-- An expression does not begin like a declaration. -/
theorem Spelled.not_declares {p : Phrase} {ts : List Token} {t : Token} (h : p.Spelled ts)
    (apart : t.kind.isWord = false) (rest : List Token) :
    (kindOf (ts ++ t :: rest)).declares (secondOf (ts ++ t :: rest)) = false := by
  have single : Single (ts ++ t :: rest) := h.single apart
  rw [secondOf_append h.ne_nil]
  unfold Token.Kind.declares
  split
  next first => exact absurd first (h.kindOf_ne (by decide) _)
  next first second =>
      have apart := single (by rw [first]; rfl)
      rw [second] at apart
      cases apart
  next => rfl

/-! ## What goes on -/

theorem Suffixes.follow {a e : Expr} {ts rest : List Token} (h : Suffixes a ts e)
    (after : 1 < (kindOf rest).rank) : 0 < (kindOf (ts ++ rest)).rank := by
  cases h with
  | done => exact Nat.lt_of_succ_lt after
  | select dot =>
      change 0 < (Token.kind _).rank
      rw [dot]
      decide
  | step step =>
      change 0 < (Token.kind _).rank
      rw [step.rank]
      decide

theorem Chain.follow {level : Nat} {a e : Expr} {ts rest : List Token} (h : Chain level a ts e)
    (after : level + 2 < (kindOf rest).rank) : level + 1 < (kindOf (ts ++ rest)).rank := by
  cases h with
  | done => exact Nat.lt_of_succ_lt after
  | operator operator own =>
      change _ < (Token.kind _).rank
      rw [operator.rank, own]
      exact Nat.lt_succ_self _

end Phrase

section

variable {t : Token} {n : Nat}

theorem Token.Is.follow {s : Symbol} (h : t.Is s) (low : n < (Kind.sym s).rank)
    (rest : List Token) : n < (kindOf (t :: rest)).rank := by
  change n < t.kind.rank
  rwa [h]

theorem Token.IsAssignment.follow {op : Option ArithOp} (h : t.IsAssignment op)
    (rest : List Token) : 8 < (kindOf (t :: rest)).rank := by
  change 8 < t.kind.rank
  rw [h.rank]
  decide

theorem Token.Kind.ne_of_rank {k : Kind} {s : Symbol} (h : n < k.rank)
    (low : (Kind.sym s).rank = n) : k ≠ .sym s := by
  rintro rfl
  exact Nat.ne_of_gt h low

end

/-! ## Where a statement begins -/

theorem Token.IsType.isWord {t : Token} {ty : Ty} (h : t.IsType ty) : t.kind.isWord = true := by
  obtain ⟨name, word, _⟩ := h
  rw [word]
  rfl

theorem Token.Kind.ne_of_isWord {k : Kind} {s : Symbol} (h : k.isWord = true) : k ≠ .sym s := by
  rintro rfl
  cases h

theorem Separated.exists_first {α : Type} {item : α → List Token → Prop} {as : List α}
    {ts : List Token} (h : Separated item as ts) : ∃ a front back, item a front ∧ ts = front ++ back := by
  cases h with
  | last only => exact ⟨_, ts, [], only, (List.append_nil _).symm⟩
  | cons first => exact ⟨_, _, _, first, rfl⟩

theorem Declarator.Spelled.exists_word {v : Declarator} {ts : List Token} (h : v.Spelled ts) :
    ∃ t more, ts = t :: more ∧ t.IsWord v.name := by
  cases h with
  | plain word | initialised word => exact ⟨_, _, rfl, word⟩

theorem Token.IsType.kindOf_ne {t : Token} {ty : Ty} {s : Symbol} (h : t.IsType ty)
    (rest : List Token) : kindOf (t :: rest) ≠ .sym s := Kind.ne_of_isWord h.isWord

/-- A declaration begins with `const` or with two words. -/
theorem Stmt.Simple.declares {pos : Nat} {ty : Ty} {isConst : Bool} {vars : List Declarator}
    {ts : List Token} (h : (Stmt.decl pos ty isConst vars).Simple ts) (rest : List Token) :
    (kindOf (ts ++ rest)).declares (secondOf (ts ++ rest)) = true := by
  cases h with
  | @decl _ t _ _ _ _ _ const_ type list =>
      cases const_ with
      | present symbol =>
          change (Token.kind _).declares _ = true
          rw [symbol]
          rfl
      | absent =>
          obtain ⟨v, front, back, first, rfl⟩ := list.exists_first
          obtain ⟨t', more, rfl, second⟩ := first.exists_word
          obtain ⟨name, word, found⟩ := type
          change t.kind.declares t'.kind = true
          rw [word, second]
          exact Option.isSome_iff_exists.2 ⟨ty, found⟩

/-- No simple statement begins with a symbol that begins no expression, `const` apart. -/
theorem Stmt.Simple.kindOf_ne {s : Stmt} {ts : List Token} {k : Token.Kind} (h : s.Simple ts)
    (other : (k.isAtom = false ∧ k.isSign = false) ∧ k ≠ .sym .constWord) (rest : List Token) :
    kindOf (ts ++ rest) ≠ k := by
  cases h with
  | expr value =>
      rw [List.append_assoc]
      exact value.kindOf_ne other.1 _
  | @decl _ t _ _ _ _ _ const_ type =>
      cases const_ with
      | present symbol =>
          intro begins
          exact other.2 (begins.symm.trans symbol)
      | absent =>
          rintro rfl
          obtain ⟨name, word, _⟩ := type
          have first : t.kind.isAtom = false := other.1.1
          rw [word] at first
          cases first

/-- What no statement begins with. -/
theorem Clause.Spelled.kindOf_ne {s : Stmt} {ts : List Token} {k : Token.Kind}
    (h : (statement s).Spelled ts) (other : k = .sym .elseWord ∨ k = .sym .rbrace ∨ k = .stop)
    (rest : List Token) : kindOf (ts ++ rest) ≠ k := by
  cases h with
  | simple simple =>
      apply simple.kindOf_ne
      obtain rfl | rfl | rfl := other
      all_goals decide
  | empty symbol | block symbol | ifThen symbol | ifElse symbol | forLoop symbol | whileLoop symbol
  | doWhile symbol | breakLoop symbol | continueLoop symbol | ret symbol =>
      change Token.kind _ ≠ k
      rw [symbol]
      obtain rfl | rfl | rfl := other
      all_goals exact nofun

theorem Clause.Spelled.ne_nil {s : Stmt} {ts : List Token} (h : (statement s).Spelled ts) :
    ts ≠ [] := by
  rintro rfl
  exact h.kindOf_ne (.inr (.inr rfl)) [] rfl

theorem Clause.Spelled.length_le {ss : List Stmt} {ts : List Token}
    (h : (statements ss).Spelled ts) : ss.length ≤ ts.length := by
  induction ss generalizing ts with
  | nil => exact Nat.zero_le _
  | cons s ss ih =>
      cases h with
      | cons first later =>
          have := ih later
          have := List.length_pos_iff.2 first.ne_nil
          simp only [List.length_append, List.length_cons]
          omega

/-! ## Where parameters and functions begin -/

theorem Param.Spelled.kindOf_ne {p : Param} {ts : List Token} (h : p.Spelled ts)
    (rest : List Token) : kindOf (ts ++ rest) ≠ .sym .rparen := by
  obtain ⟨static_, const_, type, _⟩ := h
  cases static_ with
  | present symbol => exact fun h => by cases symbol.symm.trans h
  | absent => cases const_ with
    | present symbol => exact fun h => by cases symbol.symm.trans h
    | absent => exact type.kindOf_ne _

/-- What looks like `void` alone is not a parameter. -/
theorem Param.Spelled.not_void {p : Param} {ts : List Token} (h : p.Spelled ts)
    (rest : List Token) :
    ¬(kindOf (ts ++ rest) = .word "void" ∧ secondOf (ts ++ rest) = .sym .rparen) := by
  rintro ⟨first, second⟩
  obtain ⟨static_, const_, _, word⟩ := h
  cases static_ with
  | present symbol => cases symbol.symm.trans first
  | absent => cases const_ with
    | present symbol => cases symbol.symm.trans first
    | absent => cases word.symm.trans second

theorem FunctionDef.Spelled.kindOf_ne {f : FunctionDef} {ts : List Token} (h : f.Spelled ts)
    (rest : List Token) : kindOf (ts ++ rest) ≠ .stop := by
  obtain ⟨t, more, rfl⟩ := List.exists_cons_of_ne_nil h.ne_nil
  exact h.unstopped t (List.mem_cons_self ..)

theorem IsModule.length_le {fs : List FunctionDef} {ts : List Token} (h : IsModule fs ts) :
    fs.length ≤ ts.length := by
  induction h with
  | nil => exact Nat.le_refl _
  | cons first _ ih =>
      have := List.length_pos_iff.2 first.ne_nil
      simp only [List.length_append, List.length_cons]
      omega

/-- Every comma is a token, so there are no more items than that. -/
theorem Separated.length_le {α : Type} {item : α → List Token → Prop} {as : List α}
    {ts : List Token} (h : Separated item as ts) (t : Token) (rest : List Token) :
    as.length ≤ (ts ++ t :: rest).length := by
  induction h with
  | last =>
      simp only [List.length_append, List.length_cons, List.length_nil]
      omega
  | cons _ _ _ ih =>
      simp only [List.length_append, List.length_cons] at ih ⊢
      omega

end PixelKernel.Language
