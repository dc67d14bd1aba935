import PixelKernel.Language.Token.Lexer

/-! # Elements of a text

What the lexer reads at once, said without the order in which it tries: a blank, a comment up to its
first end, or a token where neither begins.
-/

namespace PixelKernel.Language

variable {c : Char} {cs v w rest : List Char} {k : Token.Kind} {n : Nat}

theorem byteCount_cons : byteCount (c :: cs) = c.utf8Size + byteCount cs := by
  simp only [byteCount, List.map_cons, List.sum_cons]

theorem byteCount_append : byteCount (v ++ w) = byteCount v + byteCount w := by
  simp only [byteCount, List.map_append, List.sum_append]

theorem isBlank_iff :
    isBlank c = true ↔ c = ' ' ∨ c = '\t' ∨ c = '\n' ∨ c = '\x0c' ∨ c = '\r' := by
  simp only [isBlank, Bool.or_eq_true, decide_eq_true_eq, or_assoc]

/-! ## Comments -/

/-- A block comment goes to the first end that comes. -/
theorem closeComment_append {body : List Char} (first : ¬['*', '/'] <:+: body) :
    closeComment (body ++ '*' :: '/' :: rest) = some (byteCount body + 2, rest) := by
  induction body with
  | nil => rfl
  | cons c body ih =>
      rw [List.infix_cons_iff, not_or] at first
      obtain ⟨front, first⟩ := first
      rw [List.cons_append, closeComment, ih first]
      · simp only [Option.map_some, byteCount_cons, Nat.add_assoc]
      · rintro r rfl more
        cases body with
        | nil => cases more
        | cons d body =>
            cases more
            exact front ⟨body, rfl⟩

theorem exists_of_closeComment (h : closeComment cs = some (n, rest)) :
    ∃ body, ¬['*', '/'] <:+: body ∧ cs = body ++ '*' :: '/' :: rest ∧ n = byteCount body + 2 := by
  fun_induction closeComment cs generalizing n with
  | case1 => cases h
  | case2 r =>
      cases h
      exact ⟨[], by simp, rfl, rfl⟩
  | case3 c cs front ih =>
      simp only [Option.map_eq_some_iff, Prod.exists, Prod.mk.injEq] at h
      obtain ⟨m, r, closed, rfl, rfl⟩ := h
      obtain ⟨body, first, rfl, rfl⟩ := ih closed
      refine ⟨c :: body, ?_, rfl, by simp only [byteCount_cons, Nat.add_assoc]⟩
      rw [List.infix_cons_iff, not_or]
      refine ⟨?_, first⟩
      rintro ⟨more, same⟩
      cases same
      exact front _ rfl rfl

/-- A line goes to its first line end, or to the end of the text. -/
theorem line_split (cs : List Char) : '\n' ∉ cs.takeWhile (· ≠ '\n') ∧
    ∀ c ∈ (cs.dropWhile (· ≠ '\n')).head?, c = '\n' := by
  constructor
  · intro inside
    have other := List.all_eq_true.1 (@List.all_takeWhile _ (· ≠ '\n') cs) _ inside
    exact absurd other (by decide)
  · intro c head
    have ends := List.head?_dropWhile_not (· ≠ '\n') cs
    rw [Option.mem_def.1 head] at ends
    simpa using ends

theorem line_append {body : List Char} (one : '\n' ∉ body) (ends : ∀ c ∈ rest.head?, c = '\n') :
    (body ++ rest).takeWhile (· ≠ '\n') = body ∧ (body ++ rest).dropWhile (· ≠ '\n') = rest := by
  have within : ∀ c ∈ body, decide (c ≠ '\n') = true := by
    intro c inside
    rw [decide_eq_true_eq]
    rintro rfl
    exact one inside
  rw [List.takeWhile_append_of_pos within, List.dropWhile_append_of_pos within]
  cases rest with
  | nil => exact ⟨List.append_nil body, rfl⟩
  | cons c rest =>
      cases ends c rfl
      exact ⟨List.append_nil body, rfl⟩

/-! ## What is skipped -/

/-- What the lexer skips at once in front of `rest`. -/
inductive Skipped (rest : List Char) : List Char → Prop
  | blank {c : Char} (blank : isBlank c = true) : Skipped rest [c]
  | line {body : List Char} (one : '\n' ∉ body) (ends : ∀ c ∈ rest.head?, c = '\n') :
      Skipped rest ('/' :: '/' :: body)
  | block {body : List Char} (first : ¬['*', '/'] <:+: body) :
      Skipped rest ('/' :: '*' :: (body ++ ['*', '/']))

theorem utf8Size_of_isBlank (h : isBlank c = true) : c.utf8Size = 1 := by
  obtain rfl | rfl | rfl | rfl | rfl := isBlank_iff.1 h <;> rfl

theorem byteCount_block {body : List Char} :
    byteCount ('/' :: '*' :: (body ++ ['*', '/'])) = 2 + (byteCount body + 2) := by
  rw [byteCount_cons, byteCount_cons, byteCount_append]
  change 1 + (1 + (byteCount body + 2)) = _
  omega

/-- The lexer skips what spacing is made of. -/
theorem Skipped.readElement (h : Skipped rest (c :: w)) :
    readElement c (w ++ rest) = .ok ⟨none, byteCount (c :: w), rest⟩ := by
  unfold Language.readElement
  cases h with
  | blank blank =>
      rw [if_pos blank, byteCount_cons, utf8Size_of_isBlank blank]
      rfl
  | @line body one ends =>
      have one : '\n' ∉ '/' :: body := by
        rw [List.mem_cons]
        exact not_or.2 ⟨by decide, one⟩
      obtain ⟨run, left⟩ := line_append one ends
      rw [if_neg (by decide), if_pos ⟨rfl, rfl⟩]
      simp only [run, left]
      rw [byteCount_cons]
      rfl
  | @block body first =>
      rw [if_neg (by decide), if_neg (by rintro ⟨-, second⟩; cases second), if_pos ⟨rfl, rfl⟩]
      have closed : closeComment (body ++ '*' :: '/' :: rest) = some (byteCount body + 2, rest) :=
        closeComment_append first
      have text : (('*' :: (body ++ ['*', '/'])) ++ rest).tail = body ++ '*' :: '/' :: rest := by
        simp only [List.cons_append, List.tail_cons, List.append_assoc, List.nil_append]
      simp only [text, closed, byteCount_block]

/-! ## Tokens -/

/-- A comment begins. -/
def StartsComment (c : Char) (cs : List Char) : Prop :=
  c = '/' ∧ (cs.head? = some '/' ∨ cs.head? = some '*')

/-- A token of kind `k` and of `n` characters is at the front of `c :: cs`. -/
inductive TokenAt (c : Char) (cs : List Char) : Token.Kind → Nat → Prop
  | number {k : Token.Kind} {n : Nat} (starts : startsNumber (c :: cs) = true)
      (read : numberToken (c :: cs) = .ok (k, n)) : TokenAt c cs k n
  | word (number : startsNumber (c :: cs) = false) (starts : isWordStart c = true) :
      TokenAt c cs (.ofWord (String.ofList (c :: cs.takeWhile isWordChar)))
        (c :: cs.takeWhile isWordChar).length
  | pair {s : Symbol} (number : startsNumber (c :: cs) = false) (word : isWordStart c = false)
      (two : cs.head?.bind (Symbol.ofPair? c) = some s) : TokenAt c cs (.sym s) 2
  | single {s : Symbol} (number : startsNumber (c :: cs) = false) (word : isWordStart c = false)
      (two : cs.head?.bind (Symbol.ofPair? c) = none) (one : Symbol.ofChar? c = some s) :
      TokenAt c cs (.sym s) 1

/-- The lexer takes the token at the front of a text where no comment begins. -/
theorem TokenAt.readElement (h : TokenAt c cs k n) (solid : isBlank c = false)
    (token : ¬StartsComment c cs) : readElement c cs = .ok (.token (c :: cs) k n) := by
  unfold Language.readElement
  rw [if_neg (Bool.eq_false_iff.1 solid), if_neg fun h => token ⟨h.1, .inl h.2⟩,
    if_neg fun h => token ⟨h.1, .inr h.2⟩]
  cases h with
  | number starts read => rw [if_pos starts, read]; rfl
  | word number starts => rw [if_neg (Bool.eq_false_iff.1 number), if_pos starts]
  | pair number word two =>
      rw [if_neg (Bool.eq_false_iff.1 number), if_neg (Bool.eq_false_iff.1 word), two]
  | single number word two one =>
      rw [if_neg (Bool.eq_false_iff.1 number), if_neg (Bool.eq_false_iff.1 word), two]
      simp only [one]

theorem numberToken_eq_ok (h : numberToken cs = .ok (k, n)) :
    (readNumeral cs).count = n ∧ ((readNumeral cs).power.any (·.digits.isEmpty)) = false ∧
      (readNumeral cs).kind = .ok k := by
  unfold numberToken at h
  simp only at h
  split at h
  · cases h
  next digits =>
      split at h
      · cases h
      · split at h
        · cases h
        next kind =>
            cases h
            exact ⟨rfl, Bool.eq_false_iff.2 digits, kind⟩

/-! ## Both -/

/-- What is at the front of `c :: cs`. -/
inductive ElementAt (c : Char) (cs : List Char) : Element → Prop
  | skipped {w rest : List Char} {n : Nat} (front : Skipped rest (c :: w)) (split : cs = w ++ rest)
      (bytes : n = byteCount (c :: w)) : ElementAt c cs ⟨none, n, rest⟩
  | token {k : Token.Kind} {n : Nat} (solid : isBlank c = false) (token : ¬StartsComment c cs)
      (found : TokenAt c cs k n) : ElementAt c cs (.token (c :: cs) k n)

variable {e : Element}

theorem elementAt_of_readElement (h : Language.readElement c cs = .ok e) : ElementAt c cs e := by
  unfold Language.readElement at h
  split at h
  next blank =>
      cases h
      refine .skipped (.blank blank) (w := []) rfl ?_
      rw [byteCount_cons, utf8Size_of_isBlank blank]
      rfl
  next solid =>
  split at h
  next starts =>
      obtain ⟨rfl, second⟩ := starts
      obtain ⟨more, rfl⟩ := List.head?_eq_some_iff.1 second
      cases h
      obtain ⟨one, ends⟩ := line_split more
      refine .skipped (.line one ends) ?_ ?_
      · exact (congrArg (List.cons '/') List.takeWhile_append_dropWhile).symm
      · rw [byteCount_cons]
        rfl
  next line =>
  split at h
  next starts =>
      obtain ⟨rfl, second⟩ := starts
      obtain ⟨more, rfl⟩ := List.head?_eq_some_iff.1 second
      split at h
      · cases h
      next n rest closed =>
          cases h
          obtain ⟨body, first, text, rfl⟩ := exists_of_closeComment closed
          rw [List.tail_cons] at text
          subst text
          refine .skipped (.block first) ?_ byteCount_block.symm
          rw [List.cons_append, List.append_assoc]
          rfl
  next block =>
  have token : ¬StartsComment c cs := fun starts =>
    starts.2.elim (fun second => line ⟨starts.1, second⟩) fun second => block ⟨starts.1, second⟩
  have solid := Bool.eq_false_iff.2 solid
  split at h
  next starts =>
      cases read : numberToken (c :: cs) with
      | error => rw [read] at h; cases h
      | ok r =>
          rw [read] at h
          cases h
          exact .token solid token (.number starts read)
  next number =>
  have number := Bool.eq_false_iff.2 number
  split at h
  next starts =>
      cases h
      exact .token solid token (.word number starts)
  next word =>
  have word := Bool.eq_false_iff.2 word
  split at h
  next two =>
      cases h
      exact .token solid token (.pair number word two)
  next two =>
  split at h
  next one =>
      cases h
      exact .token solid token (.single number word two one)
  · cases h

/-- The lexer reads what is at the front of a text. -/
theorem readElement_iff : readElement c cs = .ok e ↔ ElementAt c cs e := by
  constructor
  · exact elementAt_of_readElement
  · intro h
    cases h with
    | skipped front split bytes => rw [split, bytes, front.readElement]
    | token solid token found => exact found.readElement solid token

end PixelKernel.Language
