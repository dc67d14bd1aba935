import PixelKernel.Proofs.Syntax.Elements

/-! # Spellings of tokens

A token takes as much of a text as it can, so what it takes may depend on what stands behind it.
A blank ends every token. The spelling of a token in one text is therefore read as the same token
wherever a blank or the end of the text follows it.
-/

namespace PixelKernel.Language

/-! ## Blanks -/

/-- A blank comes next, or the end of the text. -/
def Clear (cs : List Char) : Prop := ∀ c ∈ cs.head?, isBlank c = true

theorem clear_nil : Clear [] := by
  intro c head
  cases head

theorem isDigit_of_isBlank {c : Char} (h : isBlank c = true) : c.isDigit = false := by
  obtain rfl | rfl | rfl | rfl | rfl := isBlank_iff.1 h <;> rfl

theorem isWordChar_of_isBlank {c : Char} (h : isBlank c = true) : isWordChar c = false := by
  obtain rfl | rfl | rfl | rfl | rfl := isBlank_iff.1 h <;> rfl

theorem not_suffix_of_isBlank {c : Char} (h : isBlank c = true) :
    decide (c = 'f' ∨ c = 'F') = false := by
  obtain rfl | rfl | rfl | rfl | rfl := isBlank_iff.1 h <;> rfl

variable {c d : Char} {cs v w tail rest : List Char} {k : Token.Kind} {n : Nat}

theorem Clear.ne (h : Clear rest) (solid : isBlank d = false) : rest.head? ≠ some d := by
  intro head
  have blank := h d head
  rw [solid] at blank
  cases blank

/-- A character that is no blank stands in front only if the spelling begins with it. -/
theorem Clear.head?_append (h : Clear rest) (solid : isBlank d = false)
    (head : (w ++ rest).head? = some d) : (w ++ tail).head? = some d := by
  cases w with
  | nil => exact absurd head (h.ne solid)
  | cons c w => exact head

theorem Clear.takeWhile {p : Char → Bool} (h : Clear rest) (ends : ∀ c, isBlank c → p c = false) :
    rest.takeWhile p = [] := by
  cases rest with
  | nil => rfl
  | cons c rest =>
      have stops := ends c (h c rfl)
      rw [List.takeWhile_cons_of_neg (by simp [stops])]

theorem Clear.any_head? {p : Char → Bool} (h : Clear rest) (ends : ∀ c, isBlank c → p c = false) :
    rest.head?.any p = false := by
  cases rest with
  | nil => rfl
  | cons c rest => exact ends c (h c rfl)

/-- A run that ends within `w` is no longer when other text that ends it stands behind `w`. -/
theorem Clear.takeWhile_append {p : Char → Bool} (h : Clear rest)
    (ends : ∀ c, isBlank c → p c = false)
    (fits : ((w ++ tail).takeWhile p).length ≤ w.length) :
    (w ++ rest).takeWhile p = (w ++ tail).takeWhile p := by
  induction w with
  | nil =>
      rw [List.nil_append, h.takeWhile ends]
      exact (List.eq_nil_of_length_eq_zero (Nat.le_zero.1 fits)).symm
  | cons c w ih =>
      rw [List.cons_append, List.cons_append, List.takeWhile_cons, List.takeWhile_cons]
      cases hc : p c with
      | false => rfl
      | true =>
          rw [List.cons_append, List.takeWhile_cons_of_pos hc] at fits
          simp only [if_true]
          rw [ih (Nat.le_of_succ_le_succ fits)]

/-! ## Bytes -/

/-- The first `n` characters take a byte each. -/
structure Ascii (n : Nat) (cs : List Char) : Prop where
  length : n ≤ cs.length
  bytes : byteCount (cs.take n) = n

namespace Ascii

theorem zero : Ascii 0 cs := ⟨Nat.zero_le _, by rw [List.take_zero]; rfl⟩

theorem add {m : Nat} (first : Ascii m cs) (second : Ascii n (cs.drop m)) :
    Ascii (m + n) cs where
  length := by
    have length := second.length
    have := first.length
    rw [List.length_drop] at length
    omega
  bytes := by rw [List.take_add, byteCount_append, first.bytes, second.bytes]

theorem cons (size : c.utf8Size = 1) (h : Ascii n cs) : Ascii (n + 1) (c :: cs) where
  length := Nat.succ_le_succ h.length
  bytes := by rw [List.take_succ_cons, byteCount_cons, size, h.bytes, Nat.add_comm]

theorem takeWhile {p : Char → Bool} (size : ∀ c, p c → c.utf8Size = 1) :
    Ascii (cs.takeWhile p).length cs := by
  induction cs with
  | nil => exact zero
  | cons c cs ih =>
      rw [List.takeWhile_cons]
      cases hc : p c with
      | false => exact zero
      | true => exact ih.cons (size c hc)

end Ascii

theorem utf8Size_of_isDigit (h : c.isDigit = true) : c.utf8Size = 1 := by
  simp only [Char.isDigit, Bool.and_eq_true, decide_eq_true_eq] at h
  exact Char.utf8Size_eq_one_iff.2 (UInt32.le_trans h.2 (by decide))

theorem utf8Size_of_isAlpha (h : c.isAlpha = true) : c.utf8Size = 1 := by
  rw [Char.utf8Size_eq_one_iff]
  have letter : c.isUpper = true ∨ c.isLower = true := Bool.or_eq_true_iff.1 h
  cases letter with
  | inl upper => exact UInt32.le_trans (of_decide_eq_true upper).2 (by decide)
  | inr lower => exact UInt32.le_trans (of_decide_eq_true (Bool.and_eq_true_iff.1 lower).2) (by decide)

theorem utf8Size_of_isWordStart (h : isWordStart c = true) : c.utf8Size = 1 := by
  simp only [isWordStart, Bool.or_eq_true, decide_eq_true_eq] at h
  cases h with
  | inl h => exact utf8Size_of_isAlpha h
  | inr h => subst h; rfl

theorem utf8Size_of_isWordChar (h : isWordChar c = true) : c.utf8Size = 1 := by
  simp only [isWordChar, Char.isAlphanum, Bool.or_eq_true, decide_eq_true_eq] at h
  obtain (h | h) | rfl := h
  · exact utf8Size_of_isAlpha h
  · exact utf8Size_of_isDigit h
  · rfl

/-! ## Numbers -/

/-- Characters of a point and the digits after it. -/
def partSize (part : Option (List Char)) : Nat := (part.map (·.length + 1)).getD 0

/-- Characters of an exponent. -/
def powerSize (power : Option Power) : Nat :=
  (power.map fun p => 1 + p.signed.toNat + p.digits.length).getD 0

theorem powerSize_signed {negative : Bool} {digits : List Char} :
    powerSize (some ⟨true, negative, digits⟩) = digits.length + 1 + 1 := by
  simp only [powerSize, Option.map_some, Option.getD_some, Bool.toNat_true]
  omega

theorem powerSize_unsigned {negative : Bool} {digits : List Char} :
    powerSize (some ⟨false, negative, digits⟩) = digits.length + 1 := by
  simp only [powerSize, Option.map_some, Option.getD_some, Bool.toNat_false]
  omega

theorem Ascii.digits : Ascii (cs.takeWhile Char.isDigit).length cs :=
  .takeWhile fun _ => utf8Size_of_isDigit

theorem ascii_readPart : Ascii (partSize (readPart cs)) cs := by
  unfold readPart
  split
  · exact Ascii.digits.cons (c := '.') rfl
  · exact .zero

theorem ascii_readPower : Ascii (powerSize (readPower cs)) cs := by
  unfold readPower
  split
  · exact .zero
  next c more =>
      split
      next mark =>
          have size : c.utf8Size = 1 := by obtain rfl | rfl := mark <;> rfl
          split
          · rw [powerSize_signed]
            exact (Ascii.digits.cons (c := '+') rfl).cons size
          · rw [powerSize_signed]
            exact (Ascii.digits.cons (c := '-') rfl).cons size
          · rw [powerSize_unsigned]
            exact Ascii.digits.cons size
      · exact .zero

theorem readPart_eq_none (h : cs.head? ≠ some '.') : readPart cs = none := by
  unfold readPart
  split
  · exact absurd rfl h
  · rfl

theorem readPower_eq_none (small : cs.head? ≠ some 'e') (capital : cs.head? ≠ some 'E') :
    readPower cs = none := by
  unfold readPower
  split
  · rfl
  next c more =>
      have mark : ¬(c = 'e' ∨ c = 'E') := by
        rintro (rfl | rfl)
        · exact small rfl
        · exact capital rfl
      rw [if_neg mark]

theorem Clear.readPart_append (h : Clear rest)
    (fits : partSize (readPart (w ++ tail)) ≤ w.length) :
    readPart (w ++ rest) = readPart (w ++ tail) := by
  cases w with
  | nil =>
      cases found : readPart tail with
      | none => exact (readPart_eq_none (h.ne rfl)).trans found.symm
      | some digits =>
          rw [List.nil_append, found] at fits
          exact absurd fits (Nat.not_succ_le_zero _)
  | cons c w =>
      by_cases point : c = '.'
      · subst point
        have run := h.takeWhile_append (fun _ => isDigit_of_isBlank) (Nat.le_of_succ_le_succ fits)
        exact congrArg some run
      · have other (more : List Char) : readPart (c :: w ++ more) = none :=
          readPart_eq_none fun head => point (Option.some.inj head)
        rw [other, other]

/-- An exponent takes its letter and at least one digit. -/
theorem one_lt_powerSize (digits : ((readPower cs).any (·.digits.isEmpty)) = false)
    (taken : 0 < powerSize (readPower cs)) : 1 < powerSize (readPower cs) := by
  cases found : readPower cs with
  | none => rw [found] at taken; cases taken
  | some power =>
      rw [found, Option.any_some, List.isEmpty_eq_false_iff] at digits
      have := List.length_pos_iff.2 digits
      simp only [powerSize, Option.map_some, Option.getD_some]
      omega

theorem Clear.readPower_append (h : Clear rest)
    (fits : powerSize (readPower (w ++ tail)) ≤ w.length)
    (digits : ((readPower (w ++ tail)).any (·.digits.isEmpty)) = false) :
    readPower (w ++ rest) = readPower (w ++ tail) := by
  cases w with
  | nil =>
      cases found : readPower tail with
      | none => exact (readPower_eq_none (h.ne rfl) (h.ne rfl)).trans found.symm
      | some power =>
          rw [List.nil_append, found] at fits
          simp only [powerSize, Option.map_some, Option.getD_some, List.length_nil] at fits
          omega
  | cons c w =>
      by_cases mark : c = 'e' ∨ c = 'E'
      · cases w with
        | nil =>
            have taken : 0 < powerSize (readPower ([c] ++ tail)) := by
              simp only [List.singleton_append, readPower, if_pos mark]
              split
              · rw [powerSize_signed]
                exact Nat.succ_pos _
              · rw [powerSize_signed]
                exact Nat.succ_pos _
              · rw [powerSize_unsigned]
                exact Nat.succ_pos _
            exact absurd fits (Nat.not_le_of_lt (one_lt_powerSize digits taken))
        | cons d w =>
            -- the sign, or the first digit, is part of the spelling
            have run {w : List Char} (fits : ((w ++ tail).takeWhile Char.isDigit).length ≤ w.length) :=
              h.takeWhile_append (fun _ => isDigit_of_isBlank) fits
            simp only [List.cons_append, readPower, if_pos mark] at fits ⊢
            split at fits
            next same =>
                cases same
                rw [powerSize_signed] at fits
                exact congrArg (fun digits => some (Power.mk true false digits))
                  (run (Nat.le_of_succ_le_succ (Nat.le_of_succ_le_succ fits)))
            next same =>
                cases same
                rw [powerSize_signed] at fits
                exact congrArg (fun digits => some (Power.mk true true digits))
                  (run (Nat.le_of_succ_le_succ (Nat.le_of_succ_le_succ fits)))
            next plus minus =>
                rw [powerSize_unsigned] at fits
                have digits := run (w := d :: w) (Nat.le_of_succ_le_succ fits)
                split
                next same => cases same; exact absurd rfl (plus _)
                next same => cases same; exact absurd rfl (minus _)
                · rw [← List.cons_append, digits, List.cons_append]
      · have other (more : List Char) : readPower (c :: w ++ more) = none := by
          simp only [List.cons_append, readPower, if_neg mark]
        rw [other, other]

attribute [ext] Numeral

theorem dropWhile_eq_drop {p : Char → Bool} :
    cs.dropWhile p = cs.drop (cs.takeWhile p).length := by
  have cut : (cs.takeWhile p ++ cs.dropWhile p).drop (cs.takeWhile p).length = cs.dropWhile p :=
    List.drop_left
  rw [List.takeWhile_append_dropWhile] at cut
  exact cut.symm

theorem readNumeral_part :
    (readNumeral cs).part = readPart (cs.drop (readNumeral cs).whole.length) := by
  change readPart (cs.dropWhile Char.isDigit) = readPart (cs.drop (cs.takeWhile Char.isDigit).length)
  rw [dropWhile_eq_drop]

theorem readNumeral_power : (readNumeral cs).power = readPower (cs.drop (readNumeral cs).stem) := rfl

/-- Characters of a numeral before its suffix. -/
def Numeral.body (n : Numeral) : Nat := n.stem + powerSize n.power

theorem readNumeral_suffix : (readNumeral cs).suffix =
    (cs.drop (readNumeral cs).body).head?.any fun c => c = 'f' ∨ c = 'F' := rfl

theorem Numeral.count_eq {n : Numeral} : n.count = n.body + n.suffix.toNat := rfl

theorem Numeral.stem_eq {n : Numeral} : n.stem = n.whole.length + partSize n.part := rfl

theorem ascii_stem : Ascii (readNumeral cs).stem cs := by
  rw [Numeral.stem_eq, readNumeral_part]
  exact Ascii.digits.add ascii_readPart

theorem ascii_readNumeral : Ascii (readNumeral cs).count cs := by
  have body : Ascii (readNumeral cs).body cs := ascii_stem.add ascii_readPower
  apply body.add
  rw [readNumeral_suffix]
  cases cs.drop (readNumeral cs).body with
  | nil => exact .zero
  | cons c more =>
      simp only [List.head?_cons, Option.any_some]
      by_cases mark : c = 'f' ∨ c = 'F'
      · have size : c.utf8Size = 1 := by obtain rfl | rfl := mark <;> rfl
        simp only [mark, decide_true]
        exact Ascii.zero.cons size
      · simp only [mark, decide_false]
        exact Ascii.zero

theorem Clear.readNumeral_append (h : Clear rest)
    (taken : (readNumeral (w ++ tail)).count = w.length)
    (digits : ((readNumeral (w ++ tail)).power.any (·.digits.isEmpty)) = false) :
    readNumeral (w ++ rest) = readNumeral (w ++ tail) := by
  have cut {k : Nat} (le : k ≤ w.length) (more : List Char) :
      (w ++ more).drop k = w.drop k ++ more := List.drop_append_of_le_length le
  rw [Numeral.count_eq, Numeral.body, Numeral.stem_eq] at taken
  have whole : (readNumeral (w ++ rest)).whole = (readNumeral (w ++ tail)).whole := by
    apply h.takeWhile_append fun _ => isDigit_of_isBlank
    change (readNumeral (w ++ tail)).whole.length ≤ _
    omega
  have part : (readNumeral (w ++ rest)).part = (readNumeral (w ++ tail)).part := by
    rw [readNumeral_part, cut (by omega)] at taken
    rw [readNumeral_part, readNumeral_part, whole, cut (by omega), cut (by omega)]
    apply h.readPart_append
    rw [List.length_drop]
    omega
  have stem : (readNumeral (w ++ rest)).stem = (readNumeral (w ++ tail)).stem := by
    rw [Numeral.stem_eq, Numeral.stem_eq, whole, part]
  have power : (readNumeral (w ++ rest)).power = (readNumeral (w ++ tail)).power := by
    rw [← Numeral.stem_eq] at taken
    rw [readNumeral_power, cut (by omega)] at taken digits
    rw [readNumeral_power, readNumeral_power, stem, cut (by omega), cut (by omega)]
    apply h.readPower_append
    · rw [List.length_drop]
      omega
    · exact digits
  have body : (readNumeral (w ++ rest)).body = (readNumeral (w ++ tail)).body := by
    rw [Numeral.body, Numeral.body, stem, power]
  have suffix : (readNumeral (w ++ rest)).suffix = (readNumeral (w ++ tail)).suffix := by
    rw [← Numeral.stem_eq, ← Numeral.body] at taken
    rw [readNumeral_suffix, body, cut (by omega)]
    cases left : w.drop (readNumeral (w ++ tail)).body with
    | cons c more => rw [readNumeral_suffix, cut (by omega), left]; rfl
    | nil =>
        have ends := List.drop_eq_nil_iff.1 left
        cases marked : (readNumeral (w ++ tail)).suffix with
        | true => rw [marked, Bool.toNat_true] at taken; omega
        | false => exact h.any_head? fun _ => not_suffix_of_isBlank
  exact Numeral.ext whole part power suffix

theorem Clear.numberToken_append (h : Clear rest)
    (read : numberToken (w ++ tail) = .ok (k, w.length)) :
    numberToken (w ++ rest) = .ok (k, w.length) := by
  obtain ⟨taken, digits, kind⟩ := numberToken_eq_ok read
  have same := h.readNumeral_append taken digits
  have ends : ((w ++ rest).drop w.length).head?.any isWordChar = false := by
    rw [List.drop_left]
    exact h.any_head? fun _ => isWordChar_of_isBlank
  unfold numberToken
  simp only [same, taken, digits, ends, kind, Bool.false_eq_true, if_false]

theorem startsNumber_iff : startsNumber (c :: cs) = true ↔
    c.isDigit = true ∨ c = '.' ∧ ∃ d, cs.head? = some d ∧ d.isDigit = true := by
  by_cases point : c = '.'
  · subst point
    cases cs with
    | nil =>
        have number : ¬startsNumber ['.'] = true := by decide
        simp only [number, List.head?_nil, reduceCtorEq, false_and, exists_false, and_false, or_false,
          false_iff]
        decide
    | cons d cs =>
        simp only [List.head?_cons, Option.some.injEq, exists_eq_left', true_and]
        exact ⟨.inr, fun h => h.elim (fun digit => absurd digit (by decide)) id⟩
  · have first : startsNumber (c :: cs) = c.isDigit := by
      unfold startsNumber
      split
      next same => cases same; exact absurd rfl point
      next same => cases same; rfl
      next same => cases same
    rw [first]
    exact ⟨.inl, fun h => h.elim id fun h => absurd h.1 point⟩

theorem one_lt_stem (digit : d.isDigit = true) : 1 < (readNumeral ('.' :: d :: cs)).stem := by
  rw [Numeral.stem_eq, readNumeral_part]
  change 1 < 0 + (((d :: cs).takeWhile Char.isDigit).length + 1)
  rw [List.takeWhile_cons_of_pos digit, List.length_cons]
  omega

/-! ## Tokens -/

theorem solid_of_ofPair? {s : Symbol} (h : Symbol.ofPair? c d = some s) :
    isBlank d = false ∧ c.utf8Size = 1 ∧ d.utf8Size = 1 := by
  unfold Symbol.ofPair? at h
  split at h
  all_goals first | exact ⟨rfl, rfl, rfl⟩ | cases h

theorem utf8Size_of_ofChar? {s : Symbol} (h : Symbol.ofChar? c = some s) : c.utf8Size = 1 := by
  unfold Symbol.ofChar? at h
  split at h
  all_goals first | rfl | cases h

theorem TokenAt.pos (h : TokenAt c cs k n) : 0 < n := by
  cases h with
  | number starts read => exact numberToken_count starts read
  | word | pair | single => exact Nat.succ_pos _

/-- Tokens are spelled with characters of one byte. -/
theorem TokenAt.ascii (h : TokenAt c cs k n) : Ascii n (c :: cs) := by
  cases h with
  | number starts read => exact (numberToken_eq_ok read).1 ▸ ascii_readNumeral
  | word number starts =>
      exact (Ascii.takeWhile fun _ => utf8Size_of_isWordChar).cons (utf8Size_of_isWordStart starts)
  | pair number word two =>
      obtain ⟨d, head, two⟩ := Option.bind_eq_some_iff.1 two
      obtain ⟨-, first, second⟩ := solid_of_ofPair? two
      obtain ⟨cs, rfl⟩ := List.head?_eq_some_iff.1 head
      exact (Ascii.zero.cons second).cons first
  | single number word two one => exact Ascii.zero.cons (utf8Size_of_ofChar? one)

theorem Clear.startsComment_append (h : Clear rest) (starts : StartsComment c (w ++ rest)) :
    StartsComment c (w ++ tail) :=
  ⟨starts.1, starts.2.imp (h.head?_append rfl) (h.head?_append rfl)⟩

theorem Clear.startsNumber_append (h : Clear rest)
    (number : startsNumber (c :: (w ++ tail)) = false) :
    startsNumber (c :: (w ++ rest)) = false := by
  rw [Bool.eq_false_iff] at number ⊢
  intro starts
  apply number
  rw [startsNumber_iff] at starts ⊢
  apply starts.imp id
  rintro ⟨point, d, head, digit⟩
  have solid : isBlank d = false := by
    rw [Bool.eq_false_iff]
    intro blank
    rw [isDigit_of_isBlank blank] at digit
    cases digit
  exact ⟨point, d, h.head?_append solid head, digit⟩

/-- What token a text begins with depends on the characters of the token. -/
theorem Clear.tokenAt_append (h : Clear rest) (found : TokenAt c (w ++ tail) k (w.length + 1)) :
    TokenAt c (w ++ rest) k (w.length + 1) := by
  generalize size : w.length + 1 = n at found
  cases found with
  | number starts read =>
      subst size
      refine .number ?_ (h.numberToken_append (w := c :: w) read)
      rw [startsNumber_iff] at starts ⊢
      obtain digit | ⟨rfl, d, head, digit⟩ := starts
      · exact .inl digit
      · cases w with
        | cons e w => exact .inr ⟨rfl, d, head, digit⟩
        | nil =>
            -- a point alone is no number
            obtain ⟨more, rfl⟩ := List.head?_eq_some_iff.1 head
            have long : 1 < (readNumeral ('.' :: d :: more)).stem := one_lt_stem digit
            have taken := (numberToken_eq_ok read).1
            rw [Numeral.count_eq, Numeral.body] at taken
            rw [List.nil_append, List.length_nil] at taken
            omega
  | word number starts =>
      have run : (w ++ rest).takeWhile isWordChar = (w ++ tail).takeWhile isWordChar :=
        h.takeWhile_append (fun _ => isWordChar_of_isBlank) (Nat.le_of_eq (Nat.succ.inj size).symm)
      rw [← run] at size ⊢
      exact .word (h.startsNumber_append number) starts
  | pair number word two =>
      obtain ⟨d, rfl⟩ := List.length_eq_one_iff.1 (Nat.succ.inj size)
      exact .pair (h.startsNumber_append number) word two
  | single number word two one =>
      obtain rfl := List.eq_nil_of_length_eq_zero (Nat.succ.inj size)
      refine .single (h.startsNumber_append number) word ?_ one
      rw [Option.bind_eq_none_iff]
      intro d head
      cases second : Symbol.ofPair? c d with
      | none => rfl
      | some s => exact absurd head (h.ne (solid_of_ofPair? second).1)

/-- The characters `w` are read as a token of kind `k` in front of a blank or the end. -/
def Spells (k : Token.Kind) : List Char → Prop
  | [] => False
  | c :: w => ∀ rest, Clear rest →
      readElement c (w ++ rest) = .ok ⟨some k, byteCount (c :: w), rest⟩

/-- A token of a text has a spelling, and is read wherever that spelling ends clearly. -/
theorem TokenAt.exists_spells (found : TokenAt c cs k n) (solid : isBlank c = false)
    (token : ¬StartsComment c cs) :
    ∃ w, cs = w ++ (c :: cs).drop n ∧ n = byteCount (c :: w) ∧ Spells k (c :: w) := by
  obtain ⟨length, bytes⟩ := found.ascii
  obtain ⟨m, rfl⟩ := Nat.exists_eq_succ_of_ne_zero (Nat.pos_iff_ne_zero.1 found.pos)
  have split : cs = cs.take m ++ cs.drop m := (List.take_append_drop m cs).symm
  have size : (cs.take m).length = m := List.length_take_of_le (Nat.le_of_succ_le_succ length)
  have spelled : byteCount (c :: cs.take m) = m + 1 := bytes
  refine ⟨cs.take m, split, bytes.symm, ?_⟩
  generalize cs.take m = w at split size spelled
  generalize cs.drop m = tail at split
  subst split size
  intro rest clear
  have again := (clear.tokenAt_append found).readElement solid
    fun starts => token (clear.startsComment_append starts)
  have left : (c :: (w ++ rest)).drop (w.length + 1) = rest := List.drop_left
  rw [again, Element.token, left, spelled]

theorem Spells.head (h : Spells k w) : ∃ c v, w = c :: v ∧ isBlank c = false := by
  cases w with
  | nil => cases h
  | cons c v =>
      cases blank : isBlank c with
      | false => exact ⟨c, v, rfl, blank⟩
      | true =>
          have skip : readElement c (v ++ []) = .ok ⟨none, _, v ++ []⟩ :=
            (Skipped.blank blank).readElement
          rw [h [] clear_nil] at skip
          cases skip

end PixelKernel.Language
