import Mathlib.Logic.Basic
import Mathlib.Logic.ExistsUnique
import PixelKernel.Proofs.Syntax.Parsing
import PixelKernel.Proofs.Syntax.Progress

/-! # Every text is compiled to an end

A run of a routine ends if more calls may be nested than the routine costs. That is so for all
routines together, by induction on the number of calls. The parser of a text costs no more than
some calls for each character, so every text has one outcome.
-/

namespace PixelKernel.Language

open PixelKernel.Language.Parser (maxNesting)

namespace Routine

open Walk

variable {α : Type} {s : Cursor}

/-! ## Runs -/

theorem Reliable.mono {call : ∀ {β : Type}, Routine β → Walk β} {n m : Nat} (h : Reliable call n)
    (fewer : m ≤ n) : Reliable call m :=
  fun r s bound valid enough less => h r s bound valid enough (Nat.lt_of_lt_of_le less fewer)

/-- Where what is called is reliable, so is the routine that calls it. -/
theorem retraces_body {call : ∀ {β : Type}, Routine β → Walk β} (r : Routine α) {bound : List Token}
    (valid : s.Valid) (enough : s.left ≤ bound.length) (h : Reliable call (r.cost s)) :
    Retraces s (fun _ => r.Achieves s) (r.parser s.room bound) (r.body call) := by
  cases r with
  | expression => exact retraces_expression valid h
  | assignment => exact retraces_assignment valid h
  | conditional => exact retraces_conditional valid h
  | operation level => exact retraces_operation level valid h
  | chain level left => exact retraces_chain level left valid h
  | unary => exact retraces_unary valid h
  | suffixed => exact retraces_suffixed valid h
  | suffixes base => exact retraces_suffixes base valid h
  | primary => exact retraces_primary valid h
  | arguments => exact retraces_arguments valid enough h
  | statement => exact retraces_statement valid h
  | clause => exact retraces_clause valid h
  | block => exact retraces_block valid enough h
  | declaration => exact retraces_declaration valid h
  | declarators => exact retraces_declarators valid enough h
  | function => exact retraces_function valid h
  | parameters => exact retraces_parameters valid enough h
  | functions => exact retraces_functions valid enough h

/-- With more calls than a routine costs, its run is that of its parser. -/
theorem reliable_run (calls : Nat) : Reliable (run calls) calls := by
  induction calls with
  | zero => exact fun _ _ _ _ _ less => absurd less (Nat.not_lt_zero _)
  | succ calls ih =>
      exact fun r _ _ valid enough less =>
        retraces_body r valid enough (ih.mono (Nat.le_of_lt_succ less))

/-- The cursor that a walk has come to. -/
def final : EStateM.Result Halt Cursor α → Cursor
  | .ok _ s | .error _ s => s

/-- What a run of a routine comes to when so many calls may be nested. -/
structure Progresses (r : Routine α) (s : Cursor) (calls : Nat) : Prop where
  /-- To the result of the parser, with the same tokens ahead, or to its complaint: there always
      has been a token to look at, and the levels have been counted. -/
  ends : (∃ a s', r.run calls s = .ok a s' ∧ r.parser s.room s.ahead s.ahead = .ok (a, s'.ahead)) ∨
    ∃ c s', r.run calls s = .error (.complaint c) s' ∧ r.parser s.room s.ahead s.ahead = .error c
  /-- No further than to the next stop token. -/
  stays : s.Reaches (final (r.run calls s))
  /-- To a later token, and to the level that it was on. -/
  achieves : ∀ {a s'}, r.run calls s = .ok a s' → r.Achieves s s'

theorem progresses (r : Routine α) (valid : s.Valid) {calls : Nat} (enough : r.cost s < calls) :
    r.Progresses s calls := by
  have retraced : Retraced s (fun _ => r.Achieves s) (r.parser s.room s.ahead s.ahead)
      (r.run calls s) := reliable_run calls r s s.ahead valid (Nat.le_of_eq left_eq) enough
  suffices ∀ x y, Retraced s (fun _ => r.Achieves s) x y →
      ((∃ a s', y = .ok a s' ∧ x = .ok (a, s'.ahead)) ∨
        ∃ c s', y = .error (.complaint c) s' ∧ x = .error c) ∧
      s.Reaches (final y) ∧ ∀ a s', y = .ok a s' → r.Achieves s s' by
    obtain ⟨ends, stays, achieves⟩ := this _ _ retraced
    exact ⟨ends, stays, achieves _ _⟩
  intro x y h
  cases h with
  | ok reached _ achieved =>
      exact ⟨.inl ⟨_, _, rfl, rfl⟩, reached, fun a s' same => by cases same; exact achieved⟩
  | error reached => exact ⟨.inr ⟨_, _, rfl, rfl⟩, reached, nofun⟩

end Routine

/-! ## Texts -/

/-- Every token but the stop token takes a character. -/
theorem length_le_of_tokensFrom {pos : Nat} {cs : List Char} {ts : List Token}
    (h : tokensFrom pos cs = .ok ts) : ts.length ≤ cs.length + 1 := by
  fun_induction tokensFrom pos cs generalizing ts with
  | case1 pos =>
      cases h
      exact Nat.le_refl _
  | case2 | case3 => cases h
  | case4 pos c cs e he more hts hk ih =>
      cases h
      have shorter := readElement_length he
      have := ih hts
      omega
  | case5 pos c cs e he more hts kind hk ih =>
      cases h
      have shorter := readElement_length he
      have := ih hts
      rw [List.length_cons]
      omega

theorem length_le_of_tokens {source : String} {ts : List Token} (h : tokens source = .ok ts) :
    ts.length ≤ source.length + 1 := by
  rw [← String.length_toList]
  exact length_le_of_tokensFrom h

/-- Before the first token. -/
theorem valid_of_tokens {source : String} {ts : List Token} (h : tokens source = .ok ts) :
    Cursor.Valid ⟨ts, 0, 0⟩ := by
  obtain ⟨body, _, t, ends, rfl⟩ := stopped_tokens h
  exact ⟨by simp, ⟨t, by simp, ends⟩, Nat.one_lt_two_pow (by decide)⟩

/-- So many calls are enough to compile a text. -/
def callsFor (source : String) : Nat := 15 * (source.length + 2)

theorem parseWithin_eq {source : String} {calls : Nat} (enough : callsFor source ≤ calls) :
    parseWithin calls source = some (parseModule source) := by
  unfold parseWithin parseModule
  cases read : tokens source with
  | error c => rfl
  | ok ts =>
      have costs : Routine.functions.cost ⟨ts, 0, 0⟩ < calls := by
        have := length_le_of_tokens read
        change 15 * (ts.length - 0) + 1 < calls
        unfold callsFor at enough
        omega
      have ends := (Routine.functions.progresses (valid_of_tokens read) costs).ends
      change (∃ a s', _ ∧ Parser.functionsWithin maxNesting ts ts = _) ∨
        (∃ c s', _ ∧ Parser.functionsWithin maxNesting ts ts = _) at ends
      rw [Parser.functionsWithin_maxNesting] at ends
      change Walk.outcome (Routine.functions.run calls ⟨ts, 0, 0⟩) =
        some (Parser.functions ts ts >>= fun r => .ok r.1)
      obtain ⟨module, s', walked, parsed⟩ | ⟨c, s', walked, parsed⟩ := ends
      all_goals rw [walked, parsed]
      all_goals rfl

theorem compileWithin_eq {source : String} {calls : Nat} (enough : callsFor source ≤ calls) :
    compileWithin calls source = some (compile source) := by
  rw [compileWithin, parseWithin_eq enough]
  rfl

/-- What a text is compiled to, whenever calls enough may be nested. -/
def CompilesTo (source : String) (outcome : Except Diagnostic Program) : Prop :=
  ∀ calls, callsFor source ≤ calls → compileWithin calls source = some outcome

theorem compilesTo_iff {source : String} {outcome : Except Diagnostic Program} :
    CompilesTo source outcome ↔ outcome = compile source := by
  constructor
  · intro h
    exact Option.some.inj ((h _ (Nat.le_refl _)).symm.trans (compileWithin_eq (Nat.le_refl _)))
  · rintro rfl calls enough
    exact compileWithin_eq enough

theorem compiled_once (source : String) :
    Xor (∃! program, CompilesTo source (.ok program))
      (∃! diagnostic, CompilesTo source (.error diagnostic)) := by
  simp only [compilesTo_iff]
  cases compile source with
  | ok program => exact .inl ⟨⟨program, rfl, fun _ same => by cases same; rfl⟩, nofun⟩
  | error d => exact .inr ⟨⟨d, rfl, fun _ same => by cases same; rfl⟩, nofun⟩

/-- From every cursor each part of the parser makes progress, and so every text is compiled, to a
    program or to one diagnostic. -/
theorem parser_progresses :
    (∀ {α : Type} (r : Routine α) (s : Cursor) (calls : Nat), s.Valid → r.cost s < calls →
      r.Progresses s calls) ∧
    ∀ source, CompilesTo source (compile source) ∧
      Xor (∃! program, CompilesTo source (.ok program))
        (∃! diagnostic, CompilesTo source (.error diagnostic)) :=
  ⟨fun r _ _ valid enough => r.progresses valid enough,
    fun source => ⟨compilesTo_iff.2 rfl, compiled_once source⟩⟩

/-- At the assignment in a block, three levels down. A stop token stands behind the block, and one
    more at the end. -/
def inBlock : Cursor where
  tokens := [⟨.sym .lbrace, 0, 1⟩, ⟨.word "x", 1, 2⟩, ⟨.sym .assign, 3, 4⟩, ⟨.int 1, 5, 6⟩,
    ⟨.sym .semi, 6, 7⟩, ⟨.sym .rbrace, 8, 9⟩, ⟨.stop, 9, 9⟩, ⟨.word "y", 10, 11⟩, ⟨.stop, 11, 11⟩]
  index := 1
  nesting := 3

theorem inBlock_progresses :
    inBlock.Valid ∧ Routine.statement.cost inBlock < 134 ∧
    Routine.statement.run 134 inBlock =
      .ok (.expr (.assign 3 none (.var 1 "x") (.lit 5 (.int 1)))) { inBlock with index := 5 } ∧
    Routine.statement.Progresses inBlock 134 := by
  have valid : inBlock.Valid := ⟨by decide, ⟨_, rfl, rfl⟩, by decide⟩
  exact ⟨valid, by decide, rfl, parser_progresses.1 _ _ _ valid (by decide)⟩

end PixelKernel.Language
