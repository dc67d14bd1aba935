import PixelKernel.Proofs.Syntax.Spacing

/-! # Texts that do not lex

The lexer goes through a text by whole elements. Where no element begins it complains, and it points
at what it cannot read: a character, a number or its exponent, or a comment that does not end.
-/

namespace PixelKernel.Language

variable {c : Char} {cs rest : List Char} {n pos : Nat} {cause : Cause}

/-- Whole elements lead from the front of a text to `rest`. -/
inductive LexesTo (rest : List Char) : List Char → Prop
  | here : LexesTo rest rest
  | element {c : Char} {cs : List Char} {e : Element} (read : readElement c cs = .ok e)
      (more : LexesTo rest e.rest) : LexesTo rest (c :: cs)

/-- No digits come next, behind a sign or at once. -/
def NoDigits (cs : List Char) : Prop := ∀ sign ∈ [[], ['+'], ['-']], ∀ d more,
  cs = sign ++ d :: more → d.isDigit = false

/-- What is wrong at the front of a text that begins with no element, and how many bytes behind the
    front it is. -/
inductive Unreadable : List Char → Nat → Cause → Prop
  | comment {body : List Char} (endless : ¬['*', '/'] <:+: body) :
      Unreadable ('/' :: '*' :: body) 0 .unterminatedComment
  | exponent {stem more : List Char} {mark : Char}
      (number : startsNumber (stem ++ mark :: more) = true)
      (digits : ∀ c ∈ stem, c.isDigit = true ∨ c = '.') (letter : mark = 'e' ∨ mark = 'E')
      (missing : NoDigits more) :
      Unreadable (stem ++ mark :: more) (byteCount stem) .exponentWithoutDigits
  | malformed {cs : List Char} (number : startsNumber cs = true)
      (runs : (cs.drop (readNumeral cs).count).head?.any isWordChar = true) :
      Unreadable cs 0 .malformedNumber
  | large {cs : List Char} (number : startsNumber cs = true)
      (large : 2 ^ 63 ≤ digitValue (cs.takeWhile Char.isDigit)) :
      Unreadable cs 0 .integerTooLarge
  | char {c : Char} {cs : List Char} (solid : isBlank c = false)
      (number : startsNumber (c :: cs) = false) (word : isWordStart c = false)
      (pair : cs.head?.bind (Symbol.ofPair? c) = none) (single : Symbol.ofChar? c = none) :
      Unreadable (c :: cs) 0 (.unexpectedChar c)

/-- What is wrong begins between two characters. -/
theorem Unreadable.boundary (h : Unreadable cs n cause) :
    ∃ front back, cs = front ++ back ∧ n = byteCount front := by
  cases h with
  | exponent => exact ⟨_, _, rfl, rfl⟩
  | comment | malformed | large | char => exact ⟨[], _, rfl, rfl⟩

/-! ## Comments and numbers -/

theorem endless_of_closeComment (h : closeComment cs = none) : ¬['*', '/'] <:+: cs := by
  fun_induction closeComment cs with
  | case1 => simp
  | case2 => cases h
  | case3 c cs front ih =>
      rw [List.infix_cons_iff, not_or]
      refine ⟨?_, ih (Option.map_eq_none_iff.1 h)⟩
      rintro ⟨more, same⟩
      cases same
      exact front _ rfl rfl

theorem noDigits_of_takeWhile {sign : List Char} (run : cs.takeWhile Char.isDigit = [])
    (signed : sign = ['+'] ∨ sign = ['-']) : NoDigits (sign ++ cs) := by
  intro other among d more same
  have digit (h : cs = d :: more) : d.isDigit = false := by
    rw [h, List.takeWhile_cons] at run
    split at run
    · cases run
    · next no => exact Bool.eq_false_iff.2 no
  obtain rfl | rfl := signed
  all_goals
    simp only [List.mem_cons, List.not_mem_nil, or_false] at among
    obtain rfl | rfl | rfl := among
    all_goals cases same
    all_goals first | rfl | exact digit rfl

theorem noDigits_of_unsigned (run : cs.takeWhile Char.isDigit = [])
    (plus : ∀ r, cs ≠ '+' :: r) (minus : ∀ r, cs ≠ '-' :: r) : NoDigits cs := by
  intro other among d more same
  simp only [List.mem_cons, List.not_mem_nil, or_false] at among
  obtain rfl | rfl | rfl := among
  · rw [same, List.nil_append, List.takeWhile_cons] at run
    split at run
    · cases run
    · next no => exact Bool.eq_false_iff.2 no
  · exact absurd same (plus _)
  · exact absurd same (minus _)

/-- An exponent without digits is a letter with nothing behind it that could be its number. -/
theorem readPower_empty (h : (readPower cs).any (·.digits.isEmpty) = true) :
    ∃ mark more, cs = mark :: more ∧ (mark = 'e' ∨ mark = 'E') ∧ NoDigits more := by
  unfold readPower at h
  split at h
  · cases h
  next mark more =>
  split at h
  next letter =>
    refine ⟨mark, more, rfl, letter, ?_⟩
    split at h
    · exact noDigits_of_takeWhile (List.isEmpty_iff.1 h) (.inl rfl)
    · exact noDigits_of_takeWhile (List.isEmpty_iff.1 h) (.inr rfl)
    · next plus minus => exact noDigits_of_unsigned (List.isEmpty_iff.1 h) plus minus
  · cases h

/-- Before its exponent a number has digits and at most a point. -/
theorem digits_of_mem_stem (h : c ∈ cs.take (readNumeral cs).stem) :
    c.isDigit = true ∨ c = '.' := by
  rw [Numeral.stem_eq, readNumeral_part, List.take_add, List.mem_append] at h
  have run (cs : List Char) (h : c ∈ cs.take (cs.takeWhile Char.isDigit).length) :
      c.isDigit = true := by
    rw [← List.prefix_iff_eq_take.1 (List.takeWhile_prefix _)] at h
    exact List.all_eq_true.1 List.all_takeWhile _ h
  obtain whole | part := h
  · exact .inl (run cs whole)
  · unfold readPart at part
    split at part
    · next r same =>
      rw [same] at part
      rcases List.mem_cons.1 part with rfl | digits
      · exact .inr rfl
      · exact .inl (run r digits)
    · cases part

theorem unreadable_of_numberToken {e : Complaint} (number : startsNumber cs = true)
    (h : numberToken cs = .error e) : Unreadable cs e.pos e.cause := by
  unfold numberToken at h
  dsimp only at h
  split at h
  next exponent =>
    cases h
    rw [readNumeral_power] at exponent
    obtain ⟨mark, more, behind, letter, missing⟩ := readPower_empty exponent
    have split : cs = cs.take (readNumeral cs).stem ++ mark :: more := by
      rw [← behind, List.take_append_drop]
    have fault := Unreadable.exponent (split ▸ number) (fun c => digits_of_mem_stem) letter missing
    rw [ascii_stem.bytes, ← split] at fault
    exact fault
  next =>
  split at h
  next runs =>
    cases h
    exact .malformed number runs
  next =>
  split at h
  next cause kind =>
    cases h
    unfold Numeral.kind at kind
    split at kind
    · cases kind
    · dsimp only at kind
      split at kind
      · cases kind
      · next large =>
        cases kind
        exact .large number (Nat.le_of_not_lt large)
  next => cases h

/-! ## Elements -/

theorem unreadable_of_readElement {e : Complaint} (h : readElement c cs = .error e) :
    Unreadable (c :: cs) e.pos e.cause := by
  unfold readElement at h
  split at h
  · cases h
  next solid =>
  split at h
  · cases h
  split at h
  next starts =>
    obtain ⟨rfl, second⟩ := starts
    obtain ⟨more, rfl⟩ := List.head?_eq_some_iff.1 second
    split at h
    next endless =>
      cases h
      exact .comment (endless_of_closeComment endless)
    · cases h
  split at h
  next number =>
    cases read : numberToken (c :: cs) with
    | error e' =>
        rw [read] at h
        cases h
        exact unreadable_of_numberToken number read
    | ok r => rw [read] at h; cases h
  next number =>
  split at h
  · cases h
  next word =>
  split at h
  · cases h
  next pair =>
  split at h
  · cases h
  next single =>
    cases h
    exact .char (Bool.eq_false_iff.2 solid) (Bool.eq_false_iff.2 number) (Bool.eq_false_iff.2 word)
      pair single

theorem readElement_split {e : Element} (h : readElement c cs = .ok e) :
    ∃ w, c :: cs = w ++ e.rest ∧ e.bytes = byteCount w := by
  cases readElement_iff.1 h with
  | skipped front split bytes => exact ⟨_, congrArg (List.cons c) split, bytes⟩
  | token solid noComment here =>
      obtain ⟨w, split, bytes, -⟩ := here.exists_spells solid noComment
      exact ⟨c :: w, congrArg (List.cons c) split, bytes⟩

/-- A complaint of the lexer is about the first place where no element begins. -/
theorem unreadable_of_tokensFrom {e : Complaint} (h : tokensFrom pos cs = .error e) :
    ∃ before rest n, cs = before ++ rest ∧ LexesTo rest cs ∧ Unreadable rest n e.cause ∧
      e.pos = pos + byteCount before + n := by
  fun_induction tokensFrom pos cs with
  | case1 => cases h
  | case2 pos c cs e' read =>
      cases h
      exact ⟨[], c :: cs, e'.pos, rfl, .here, unreadable_of_readElement read, rfl⟩
  | case3 pos c cs e' read e'' more ih =>
      cases h
      obtain ⟨before, rest, n, split, leads, fault, place⟩ := ih more
      obtain ⟨w, front, bytes⟩ := readElement_split read
      refine ⟨w ++ before, rest, n, ?_, .element read leads, fault, ?_⟩
      · rw [front, split, List.append_assoc]
      · rw [place, bytes, byteCount_append, Nat.add_assoc pos]
  | case4 | case5 => cases h

end PixelKernel.Language
