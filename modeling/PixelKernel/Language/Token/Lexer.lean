import PixelKernel.Language.Complaint

/-! # From text to tokens

Text is a sequence of elements: a blank character, a complete comment, or a token. One
element is read at a time; each takes at least one character, so reading ends.
-/

namespace PixelKernel.Language

def isBlank (c : Char) : Bool :=
  c = ' ' || c = '\t' || c = '\n' || c = '\x0c' || c = '\r'

def isWordStart (c : Char) : Bool := c.isAlpha || c = '_'

def isWordChar (c : Char) : Bool := c.isAlphanum || c = '_'

/-- Bytes that characters take in the text. -/
def byteCount (cs : List Char) : Nat := (cs.map Char.utf8Size).sum

def digitValue (cs : List Char) : Nat :=
  cs.foldl (fun n c => 10 * n + (c.toNat - '0'.toNat)) 0

/-- What is left after the end of a block comment, with the bytes passed over. -/
def closeComment : List Char → Option (Nat × List Char)
  | [] => none
  | '*' :: '/' :: rest => some (2, rest)
  | c :: rest => (closeComment rest).map fun (n, r) => (c.utf8Size + n, r)

/-- An exponent as written: whether it has a sign, whether that is a minus, its digits. -/
structure Power where
  signed : Bool
  negative : Bool
  digits : List Char

/-- A decimal number as written. -/
structure Numeral where
  whole : List Char
  /-- Digits after the point, when there is a point. -/
  part : Option (List Char)
  power : Option Power
  suffix : Bool

namespace Numeral

def isFloat (n : Numeral) : Bool := n.part.isSome || n.power.isSome || n.suffix

/-- Characters before the exponent. -/
def stem (n : Numeral) : Nat := n.whole.length + (n.part.map (·.length + 1)).getD 0

/-- Characters taken. -/
def count (n : Numeral) : Nat :=
  n.stem + (n.power.map fun p => 1 + p.signed.toNat + p.digits.length).getD 0 + n.suffix.toNat

def value (n : Numeral) : Decimal.Scaled :=
  let part := n.part.getD []
  let shift : Int := match n.power with
    | none => 0
    | some p => if p.negative then -(digitValue p.digits : Int) else digitValue p.digits
  ⟨digitValue (n.whole ++ part), shift - part.length⟩

def kind (n : Numeral) : Except Cause Token.Kind :=
  if n.isFloat then .ok (.float (Decimal.nearest n.value))
  else
    let value := digitValue n.whole
    if value < 2 ^ 63 then .ok (.int value) else .error .integerTooLarge

end Numeral

/-- A point and the digits after it. -/
def readPart : List Char → Option (List Char)
  | '.' :: r => some (r.takeWhile Char.isDigit)
  | _ => none

/-- An exponent; its digits may be missing, which is a fault of the number. -/
def readPower : List Char → Option Power
  | [] => none
  | c :: r =>
    if c = 'e' ∨ c = 'E' then
      match r with
      | '+' :: r => some ⟨true, false, r.takeWhile Char.isDigit⟩
      | '-' :: r => some ⟨true, true, r.takeWhile Char.isDigit⟩
      | r => some ⟨false, false, r.takeWhile Char.isDigit⟩
    else none

/-- The number at the front of a text, taken as far as it goes. -/
def readNumeral (cs : List Char) : Numeral :=
  let stem : Numeral := ⟨cs.takeWhile Char.isDigit, readPart (cs.dropWhile Char.isDigit), none, false⟩
  let long : Numeral := { stem with power := readPower (cs.drop stem.stem) }
  { long with suffix := (cs.drop long.count).head?.any fun c => c = 'f' ∨ c = 'F' }

/-- The number token at the front of a text, with its length; complaints count bytes from
    its start. -/
def numberToken (cs : List Char) : Except Complaint (Token.Kind × Nat) :=
  let n := readNumeral cs
  if n.power.any (·.digits.isEmpty) then .error ⟨n.stem, .exponentWithoutDigits⟩
  else if (cs.drop n.count).head?.any isWordChar then .error ⟨0, .malformedNumber⟩
  else match n.kind with
    | .error cause => .error ⟨0, cause⟩
    | .ok kind => .ok (kind, n.count)

/-- An element of text: a token or something that separates tokens. -/
structure Element where
  kind : Option Token.Kind
  bytes : Nat
  rest : List Char

/-- A token of `n` one-byte characters at the front of `cs`. -/
def Element.token (cs : List Char) (kind : Token.Kind) (n : Nat) : Element :=
  ⟨some kind, n, cs.drop n⟩

def startsNumber : List Char → Bool
  | '.' :: d :: _ => d.isDigit
  | c :: _ => c.isDigit
  | [] => false

/-- Reads the element at the front of `c :: cs`. -/
def readElement (c : Char) (cs : List Char) : Except Complaint Element :=
  if isBlank c then .ok ⟨none, 1, cs⟩
  else if c = '/' ∧ cs.head? = some '/' then
    let body := cs.takeWhile (· ≠ '\n')
    .ok ⟨none, 1 + byteCount body, cs.dropWhile (· ≠ '\n')⟩
  else if c = '/' ∧ cs.head? = some '*' then
    match closeComment cs.tail with
    | none => .error ⟨0, .unterminatedComment⟩
    | some (n, rest) => .ok ⟨none, 2 + n, rest⟩
  else if startsNumber (c :: cs) then
    (numberToken (c :: cs)).map fun (kind, n) => .token (c :: cs) kind n
  else if isWordStart c then
    let text := c :: cs.takeWhile isWordChar
    .ok (.token (c :: cs) (.ofWord (String.ofList text)) text.length)
  else match cs.head?.bind (Symbol.ofPair? c) with
    | some s => .ok (.token (c :: cs) (.sym s) 2)
    | none => match Symbol.ofChar? c with
      | some s => .ok (.token (c :: cs) (.sym s) 1)
      | none => .error ⟨0, .unexpectedChar c⟩

theorem closeComment_length {cs rest : List Char} {n : Nat}
    (h : closeComment cs = some (n, rest)) : rest.length < cs.length := by
  fun_induction closeComment cs generalizing n with
  | case1 => simp at h
  | case2 r =>
    simp only [Option.some.injEq, Prod.mk.injEq] at h
    obtain ⟨-, rfl⟩ := h
    exact Nat.lt_succ_of_lt (Nat.lt_succ_self _)
  | case3 c cs _ ih =>
    simp only [Option.map_eq_some_iff, Prod.exists] at h
    obtain ⟨m, r, hr, he⟩ := h
    simp only [Prod.mk.injEq] at he
    obtain ⟨-, rfl⟩ := he
    exact Nat.lt_succ_of_lt (ih hr)

theorem length_dropWhile_le (p : Char → Bool) (cs : List Char) :
    (cs.dropWhile p).length ≤ cs.length := by
  induction cs with
  | nil => simp
  | cons c cs ih =>
    simp only [List.dropWhile_cons]
    split
    · exact Nat.le_succ_of_le ih
    · exact Nat.le_refl _

theorem stem_pos {cs : List Char} (hs : startsNumber cs) : 0 < (readNumeral cs).stem := by
  have : (readNumeral cs).stem = (cs.takeWhile Char.isDigit).length +
      ((readPart (cs.dropWhile Char.isDigit)).map (·.length + 1)).getD 0 := rfl
  rw [this]
  cases cs with
  | nil => simp [startsNumber] at hs
  | cons c cs =>
    by_cases hd : c.isDigit
    · rw [List.takeWhile_cons_of_pos hd, List.length_cons]
      omega
    · by_cases hc : c = '.'
      · subst hc
        simp [readPart]
      · exfalso
        unfold startsNumber at hs
        split at hs <;> simp_all

theorem numberToken_count {cs : List Char} {kind : Token.Kind} {n : Nat}
    (hs : startsNumber cs) (h : numberToken cs = .ok (kind, n)) : 0 < n := by
  have := stem_pos hs
  unfold numberToken at h
  dsimp only at h
  repeat' split at h
  all_goals simp only [Except.ok.injEq, Prod.mk.injEq, reduceCtorEq] at h
  have : (readNumeral cs).stem ≤ (readNumeral cs).count := by
    simp only [Numeral.count]
    omega
  omega

theorem readElement_length {c : Char} {cs : List Char} {e : Element}
    (h : readElement c cs = .ok e) : e.rest.length < (c :: cs).length := by
  unfold readElement at h
  split at h
  · cases h; simp
  · split at h
    · cases h
      exact Nat.lt_succ_of_le (length_dropWhile_le _ _)
    · split at h
      next hc =>
        split at h
        · simp at h
        next n rest hr =>
          cases h
          have := closeComment_length hr
          simp only [List.length_tail, List.length_cons] at this ⊢
          omega
      · split at h
        next hs =>
          cases hn : numberToken (c :: cs) with
          | error => simp [hn, Except.map] at h
          | ok r =>
            obtain ⟨kind, n⟩ := r
            have := numberToken_count hs hn
            simp only [hn, Except.map, Except.ok.injEq] at h
            subst h
            simp only [Element.token, List.length_drop, List.length_cons]
            omega
        · split at h
          · cases h
            simp only [Element.token, List.length_drop, List.length_cons]
            omega
          · split at h
            · cases h
              simp only [Element.token, List.length_drop, List.length_cons]
              omega
            · split at h
              · cases h
                simp [Element.token]
              · simp at h

/-- Tokens of the text `cs` that starts at byte `pos`, with the stop token at its end. -/
def tokensFrom (pos : Nat) (cs : List Char) : Except Complaint (List Token) :=
  match cs with
  | [] => .ok [⟨.stop, pos, pos⟩]
  | c :: cs =>
    match _h : readElement c cs with
    | .error e => .error { e with pos := pos + e.pos }
    | .ok e =>
      match tokensFrom (pos + e.bytes) e.rest with
      | .error e => .error e
      | .ok ts =>
        match e.kind with
        | none => .ok ts
        | some kind => .ok (⟨kind, pos, pos + e.bytes⟩ :: ts)
termination_by cs.length
decreasing_by exact readElement_length _h

/-- Tokens of a source text. -/
def tokens (source : String) : Except Complaint (List Token) :=
  tokensFrom 0 source.toList

end PixelKernel.Language
