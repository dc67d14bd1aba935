import PixelKernel.Proofs.Syntax.Completeness
import PixelKernel.Proofs.Syntax.Elements
import PixelKernel.Proofs.Syntax.Soundness

/-! # The parser and its grammar

A text is read as a module exactly when its tokens spell that module, so a text has one reading at
most. The lexer puts one stop token at the end, which is where the parser ends.
-/

namespace PixelKernel.Language

/-! ## The end of a text -/

/-- The stop token stands behind the others, and is the only one. -/
def Stopped (body ts : List Token) : Prop :=
  Unstopped body ∧ ∃ t : Token, t.kind = .stop ∧ ts = body ++ [t]

/-- The first stop token tells what stands before it. -/
theorem Unstopped.append_inj {front body rest rest' : List Token} {t t' : Token}
    (h : Unstopped front) (h' : Unstopped body) (ends : t.kind = .stop) (ends' : t'.kind = .stop)
    (same : front ++ t :: rest = body ++ t' :: rest') : front = body := by
  induction front generalizing body with
  | nil =>
      cases body with
      | nil => rfl
      | cons first body =>
          injection same with same
          exact absurd (same ▸ ends) (Unstopped.cons_iff.1 h').1
  | cons first front ih =>
      cases body with
      | nil =>
          injection same with same
          exact absurd (same ▸ ends') (Unstopped.cons_iff.1 h).1
      | cons first' body =>
          injection same with same more
          rw [same, ih (Unstopped.cons_iff.1 h).2 (Unstopped.cons_iff.1 h').2 more]

theorem Numeral.kind_ne_stop {n : Numeral} : n.kind ≠ .ok .stop := by
  unfold Numeral.kind
  split
  · exact nofun
  · dsimp only
    split <;> exact nofun

theorem Token.Kind.ofWord_ne_stop (text : String) : ofWord text ≠ .stop := by
  unfold ofWord
  intro h
  split at h <;> cases h

theorem numberToken_ne_stop {cs : List Char} {n : Nat} : numberToken cs ≠ .ok (.stop, n) :=
  fun h => Numeral.kind_ne_stop (numberToken_eq_ok h).2.2

/-- No characters spell the stop token. -/
theorem TokenAt.ne_stop {c : Char} {cs : List Char} {k : Token.Kind} {n : Nat}
    (h : TokenAt c cs k n) : k ≠ .stop := by
  cases h with
  | number starts read =>
      rintro rfl
      exact numberToken_ne_stop read
  | word => exact Token.Kind.ofWord_ne_stop _
  | pair | single =>
      intro h
      cases h

theorem readElement_ne_stop {c : Char} {cs : List Char} {e : Element}
    (h : readElement c cs = .ok e) : e.kind ≠ some .stop := by
  cases readElement_iff.1 h with
  | skipped =>
      intro hk
      cases hk
  | token solid token found => exact fun hk => found.ne_stop (Option.some.inj hk)

theorem stopped_tokensFrom {pos : Nat} {cs : List Char} {ts : List Token}
    (h : tokensFrom pos cs = .ok ts) : ∃ body, Stopped body ts := by
  fun_induction tokensFrom pos cs generalizing ts with
  | case1 pos =>
      cases h
      exact ⟨[], .nil, _, rfl, rfl⟩
  | case2 | case3 => cases h
  | case4 pos c cs e he more hts hk ih =>
      cases h
      exact ih hts
  | case5 pos c cs e he more hts kind hk ih =>
      cases h
      obtain ⟨body, unstopped, t, ends, rfl⟩ := ih hts
      refine ⟨_ :: body, Unstopped.cons_iff.2 ⟨?_, unstopped⟩, t, ends, rfl⟩
      rintro rfl
      exact readElement_ne_stop he hk

/-- The lexer ends a text with the stop token. -/
theorem stopped_tokens {source : String} {ts : List Token} (h : tokens source = .ok ts) :
    ∃ body, Stopped body ts := stopped_tokensFrom h

/-! ## Parsing -/

variable {body ts : List Token} {module : List FunctionDef}

theorem Parser.isModule_of_functions {rest : List Token} (text : Stopped body ts)
    (run : functions ts ts = .ok (module, rest)) : IsModule module body := by
  obtain ⟨⟨front, split, spelled⟩, ended⟩ :=
    (Ensures.functions ts (Nat.le_refl _)).of_ok module rest run
  obtain ⟨unstopped, t, ends, rfl⟩ := text
  cases rest with
  | nil =>
      rw [List.append_nil] at split
      subst split
      exact absurd ends (spelled.unstopped t (List.mem_append_right body (List.mem_cons_self ..)))
  | cons t' rest =>
      rw [unstopped.append_inj spelled.unstopped ends ended split]
      exact spelled

theorem Parser.functions_of_isModule (text : Stopped body ts) (spelled : IsModule module body)
    (shallow : ∀ c, functions ts ts = .error c → ¬c.TooDeep) :
    ∃ rest, functions ts ts = .ok (module, rest) := by
  obtain ⟨-, t, ends, rfl⟩ := text
  have enough : module.length ≤ (body ++ [t]).length := by
    have := spelled.length_le
    simp only [List.length_append]
    omega
  have reads : Reads (functions (body ++ [t])) (body ++ [t]) module [t] :=
    .functions spelled enough ends
  obtain run | ⟨c, run, deep⟩ := reads.run
  · exact ⟨[t], run⟩
  · exact absurd deep (shallow c run)

/-- Tokens that are not nested too deeply spell one module at most. -/
theorem IsModule.unique {module' : List FunctionDef} (text : Stopped body ts)
    (h : IsModule module body) (h' : IsModule module' body)
    (shallow : ∀ c, Parser.functions ts ts = .error c → ¬c.TooDeep) : module = module' := by
  obtain ⟨rest, run⟩ := Parser.functions_of_isModule text h shallow
  obtain ⟨rest', run'⟩ := Parser.functions_of_isModule text h' shallow
  cases run.symm.trans run'
  rfl

/-- Tokens that are not nested too deeply are read as a module exactly when they spell it; and
    so is every text that they are the tokens of. -/
theorem parses_exactly (text : Stopped body ts)
    (shallow : ∀ c, Parser.functions ts ts = .error c → ¬c.TooDeep) (module : List FunctionDef) :
    ((∃ rest, Parser.functions ts ts = .ok (module, rest)) ↔ IsModule module body) ∧
      ∀ source, tokens source = .ok ts →
        (parseModule source = .ok module ↔ IsModule module body) := by
  have exactly : (∃ rest, Parser.functions ts ts = .ok (module, rest)) ↔ IsModule module body :=
    ⟨fun ⟨_, run⟩ => Parser.isModule_of_functions text run,
      fun spelled => Parser.functions_of_isModule text spelled shallow⟩
  refine ⟨exactly, ?_⟩
  intro source lexed
  rw [← exactly]
  unfold parseModule
  rw [lexed]
  change (Parser.functions ts ts >>= fun r => pure r.1) = _ ↔ _
  cases Parser.functions ts ts with
  | error c => exact ⟨nofun, nofun⟩
  | ok r =>
      obtain ⟨module', rest⟩ := r
      constructor
      · intro h
        cases h
        exact ⟨rest, rfl⟩
      · rintro ⟨_, h⟩
        cases h
        rfl

/-- A function with two `if`s and one `else`. -/
def nestedIf : String := "void f()\x7bif(a)if(b);else;\x7d"

def nestedIfTokens : List Token :=
  [⟨.word "void", 0, 4⟩, ⟨.word "f", 5, 6⟩, ⟨.sym .lparen, 6, 7⟩, ⟨.sym .rparen, 7, 8⟩,
    ⟨.sym .lbrace, 8, 9⟩, ⟨.sym .ifWord, 9, 11⟩, ⟨.sym .lparen, 11, 12⟩, ⟨.word "a", 12, 13⟩,
    ⟨.sym .rparen, 13, 14⟩, ⟨.sym .ifWord, 14, 16⟩, ⟨.sym .lparen, 16, 17⟩, ⟨.word "b", 17, 18⟩,
    ⟨.sym .rparen, 18, 19⟩, ⟨.sym .semi, 19, 20⟩, ⟨.sym .elseWord, 20, 24⟩, ⟨.sym .semi, 24, 25⟩,
    ⟨.sym .rbrace, 25, 26⟩]

/-- The `else` goes to the second `if`. -/
theorem parses_nestedIf : parseModule nestedIf = .ok [⟨"f", .void, [],
    [.ifThen (.var 12 "a") (.ifElse (.var 17 "b") .empty .empty)], none, 0⟩] := by
  have text : Stopped nestedIfTokens (nestedIfTokens ++ [⟨.stop, 26, 26⟩]) :=
    ⟨by unfold Unstopped; decide, _, rfl, rfl⟩
  have shallow : ∀ c, Parser.functions (nestedIfTokens ++ [⟨.stop, 26, 26⟩])
      (nestedIfTokens ++ [⟨.stop, 26, 26⟩]) = .error c → ¬c.TooDeep := by
    have read : (Parser.functions (nestedIfTokens ++ [⟨.stop, 26, 26⟩])
        (nestedIfTokens ++ [⟨.stop, 26, 26⟩])).isOk = true := by decide +kernel
    intro c run
    rw [run] at read
    cases read
  have lexed : tokens nestedIf = .ok (nestedIfTokens ++ [⟨.stop, 26, 26⟩]) := by
    have made : (tokens nestedIf).toOption = some (nestedIfTokens ++ [⟨.stop, 26, 26⟩]) := by
      decide +kernel
    cases h : tokens nestedIf with
    | error c => rw [h] at made; cases made
    | ok ts => rw [h] at made; cases made; rfl
  apply ((parses_exactly text shallow _).2 nestedIf lexed).2
  have word (n : String) (i j : Nat) : Token.IsWord ⟨.word n, i, j⟩ n := rfl
  have sym (s : Symbol) (i j : Nat) : Token.Is ⟨.sym s, i, j⟩ s := rfl
  have name {t : Token} {n : String} (word : t.IsWord n) :
      (Phrase.expression (.var t.start n)).Spelled [t] :=
    .ofConditional (.ofOperation (.tighter (.tighter (.tighter (.tighter (.tighter (.tighter
      (.ofUnary (.ofSuffixed (.ofPrimary (.var word)))))))))))
  have inner := Clause.Spelled.ifElse (sym .ifWord 14 16) (sym .lparen 16 17)
    (name (word "b" 17 18)) (sym .rparen 18 19) (.empty (sym .semi 19 20)) rfl
    (sym .elseWord 20 24) (.empty (sym .semi 24 25))
  have outer := Clause.Spelled.ifThen (sym .ifWord 9 11) (sym .lparen 11 12)
    (name (word "a" 12 13)) (sym .rparen 13 14) inner
  have spelled := FunctionDef.Spelled.mk .none ⟨"void", word "void" 0 4, rfl⟩ (word "f" 5 6)
    (sym .lparen 6 7) .none (sym .rparen 7 8) (sym .lbrace 8 9) (.cons outer .nil)
    (sym .rbrace 25 26)
  exact .cons spelled .nil

end PixelKernel.Language
